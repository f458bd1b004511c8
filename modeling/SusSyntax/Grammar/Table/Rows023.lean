import SusSyntax.Grammar.Action

/-!
The parse table: the rows of the states 23 to 45.
-/

namespace SusSyntax.Grammar

/-- The rows of the states 23 to 45. -/
def rows023 : List Row := [
  -- 23
  ⟨.operator,
    [(.shared (.reduce .binaryOp 3 32), [.rparen, .lbrace, .rbrace, .inKw, .dotDot, .arrow, .eqEq,
       .bangEq, .le, .ge, .rbracket, .comma, .newline]),
     (.exact (.reduce .binaryOp 3 32), [.assign, .lt, .gt]),
     (.shared (.shift 65), [.plus]),
     (.exact (.shift 65), [.minus]),
     (.shared (.shift 60), [.star, .percent]),
     (.shared (.shift 64), [.pipe]),
     (.shared (.shift 61), [.amp]),
     (.shared (.shift 62), [.caret]),
     (.exact (.shift 60), [.slash]),
     (.exact (.shift 221), [.dot]),
     (.shared (.shift 55), [.lparen]),
     (.shared (.shift 71), [.lbracket]),
     (.shared .shiftExtra, [.lineComment, .blockComment])],
    [(.parenthesisExpressionList, 39), (.arrayBracketExpression, 40)]⟩,
  -- 24
  ⟨.operator,
    [(.shared (.reduce .binaryOp 3 32), [.rparen, .lbrace, .rbrace, .inKw, .dotDot, .arrow,
       .caret, .eqEq, .bangEq, .le, .ge, .rbracket, .comma, .newline]),
     (.exact (.reduce .binaryOp 3 32), [.assign, .lt, .gt]),
     (.shared (.shift 65), [.plus]),
     (.exact (.shift 65), [.minus]),
     (.shared (.shift 60), [.star, .percent]),
     (.shared (.shift 64), [.pipe]),
     (.shared (.shift 61), [.amp]),
     (.exact (.shift 60), [.slash]),
     (.exact (.shift 221), [.dot]),
     (.shared (.shift 55), [.lparen]),
     (.shared (.shift 71), [.lbracket]),
     (.shared .shiftExtra, [.lineComment, .blockComment])],
    [(.parenthesisExpressionList, 39), (.arrayBracketExpression, 40)]⟩,
  -- 25
  ⟨.operand,
    [(.exact (.reduce .linebreak 2 0), [.identifier, .regKw, .initialKw, .whenKw, .ifKw, .forKw,
       .domainKw, .interfaceKw, .inputKw, .outputKw, .stateKw, .genKw, .minus]),
     (.shared (.reduce .linebreak 2 0), [.rparen, .lbrace, .rbrace, .arrow, .plus, .star, .bang,
       .pipe, .amp, .caret, .lparen, .colonColon, .number]),
     (.sharedPair (.reduce .linebreak 2 0) (.shiftRepeat 25), [.newline]),
     (.shared .shiftExtra, [.lineComment, .blockComment])],
    [(.linebreak, 25)]⟩,
  -- 26
  ⟨.operator,
    [(.exact (.reduce .templateArgs 4 5), [.identifier, .assign, .inKw, .minus, .lt, .gt, .slash,
       .dot]),
     (.shared (.reduce .templateArgs 4 5), [.rparen, .lbrace, .rbrace, .dotDot, .arrow, .plus,
       .star, .pipe, .amp, .caret, .eqEq, .bangEq, .le, .ge, .percent, .lparen, .lbracket,
       .rbracket, .comma, .newline]),
     (.shared .shiftExtra, [.lineComment, .blockComment])],
    []⟩,
  -- 27
  ⟨.operator,
    [(.exact (.reduce .templateArgs 2 0), [.identifier, .assign, .inKw, .minus, .lt, .gt, .slash,
       .dot]),
     (.shared (.reduce .templateArgs 2 0), [.rparen, .lbrace, .rbrace, .dotDot, .arrow, .plus,
       .star, .pipe, .amp, .caret, .eqEq, .bangEq, .le, .ge, .percent, .lparen, .lbracket,
       .rbracket, .comma, .newline]),
     (.shared .shiftExtra, [.lineComment, .blockComment])],
    []⟩,
  -- 28
  ⟨.operator,
    [(.exact (.reduce .templateGlobal 2 9), [.identifier, .assign, .inKw, .minus, .lt, .gt,
       .slash, .dot]),
     (.shared (.reduce .templateGlobal 2 9), [.rparen, .lbrace, .rbrace, .dotDot, .arrow, .plus,
       .star, .pipe, .amp, .caret, .eqEq, .bangEq, .le, .ge, .percent, .lparen, .lbracket,
       .rbracket, .comma, .newline]),
     (.shared .shiftExtra, [.lineComment, .blockComment])],
    []⟩,
  -- 29
  ⟨.operator,
    [(.exact (.reduce .templateGlobal 3 17), [.identifier, .assign, .inKw, .minus, .lt, .gt,
       .slash, .dot]),
     (.shared (.reduce .templateGlobal 3 17), [.rparen, .lbrace, .rbrace, .dotDot, .arrow, .plus,
       .star, .pipe, .amp, .caret, .eqEq, .bangEq, .le, .ge, .percent, .lparen, .lbracket,
       .rbracket, .comma, .newline]),
     (.shared .shiftExtra, [.lineComment, .blockComment])],
    []⟩,
  -- 30
  ⟨.operator,
    [(.exact (.reduce .templateArgs 4 11), [.identifier, .assign, .inKw, .minus, .lt, .gt, .slash,
       .dot]),
     (.shared (.reduce .templateArgs 4 11), [.rparen, .lbrace, .rbrace, .dotDot, .arrow, .plus,
       .star, .pipe, .amp, .caret, .eqEq, .bangEq, .le, .ge, .percent, .lparen, .lbracket,
       .rbracket, .comma, .newline]),
     (.shared .shiftExtra, [.lineComment, .blockComment])],
    []⟩,
  -- 31
  ⟨.operator,
    [(.exact (.reduce .templateArgs 4 28), [.identifier, .assign, .inKw, .minus, .lt, .gt, .slash,
       .dot]),
     (.shared (.reduce .templateArgs 4 28), [.rparen, .lbrace, .rbrace, .dotDot, .arrow, .plus,
       .star, .pipe, .amp, .caret, .eqEq, .bangEq, .le, .ge, .percent, .lparen, .lbracket,
       .rbracket, .comma, .newline]),
     (.shared .shiftExtra, [.lineComment, .blockComment])],
    []⟩,
  -- 32
  ⟨.operator,
    [(.exact (.reduce .templateArgs 5 28), [.identifier, .assign, .inKw, .minus, .lt, .gt, .slash,
       .dot]),
     (.shared (.reduce .templateArgs 5 28), [.rparen, .lbrace, .rbrace, .dotDot, .arrow, .plus,
       .star, .pipe, .amp, .caret, .eqEq, .bangEq, .le, .ge, .percent, .lparen, .lbracket,
       .rbracket, .comma, .newline]),
     (.shared .shiftExtra, [.lineComment, .blockComment])],
    []⟩,
  -- 33
  ⟨.operator,
    [(.exact (.reduce .arrayBracketExpression 3 24), [.identifier, .assign, .inKw, .minus, .lt,
       .gt, .slash, .dot]),
     (.shared (.reduce .arrayBracketExpression 3 24), [.rparen, .lbrace, .rbrace, .dotDot, .arrow,
       .plus, .star, .pipe, .amp, .caret, .eqEq, .bangEq, .le, .ge, .percent, .lparen, .lbracket,
       .rbracket, .comma, .newline]),
     (.shared .shiftExtra, [.lineComment, .blockComment])],
    []⟩,
  -- 34
  ⟨.operator,
    [(.exact (.reduce .templateArgs 3 0), [.identifier, .assign, .inKw, .minus, .lt, .gt, .slash,
       .dot]),
     (.shared (.reduce .templateArgs 3 0), [.rparen, .lbrace, .rbrace, .dotDot, .arrow, .plus,
       .star, .pipe, .amp, .caret, .eqEq, .bangEq, .le, .ge, .percent, .lparen, .lbracket,
       .rbracket, .comma, .newline]),
     (.shared .shiftExtra, [.lineComment, .blockComment])],
    []⟩,
  -- 35
  ⟨.operator,
    [(.exact (.reduce .templateArgs 3 5), [.identifier, .assign, .inKw, .minus, .lt, .gt, .slash,
       .dot]),
     (.shared (.reduce .templateArgs 3 5), [.rparen, .lbrace, .rbrace, .dotDot, .arrow, .plus,
       .star, .pipe, .amp, .caret, .eqEq, .bangEq, .le, .ge, .percent, .lparen, .lbracket,
       .rbracket, .comma, .newline]),
     (.shared .shiftExtra, [.lineComment, .blockComment])],
    []⟩,
  -- 36
  ⟨.operator,
    [(.exact (.reduce .templateArgs 5 38), [.identifier, .assign, .inKw, .minus, .lt, .gt, .slash,
       .dot]),
     (.shared (.reduce .templateArgs 5 38), [.rparen, .lbrace, .rbrace, .dotDot, .arrow, .plus,
       .star, .pipe, .amp, .caret, .eqEq, .bangEq, .le, .ge, .percent, .lparen, .lbracket,
       .rbracket, .comma, .newline]),
     (.shared .shiftExtra, [.lineComment, .blockComment])],
    []⟩,
  -- 37
  ⟨.operator,
    [(.exact (.reduce .templateArgs 5 11), [.identifier, .assign, .inKw, .minus, .lt, .gt, .slash,
       .dot]),
     (.shared (.reduce .templateArgs 5 11), [.rparen, .lbrace, .rbrace, .dotDot, .arrow, .plus,
       .star, .pipe, .amp, .caret, .eqEq, .bangEq, .le, .ge, .percent, .lparen, .lbracket,
       .rbracket, .comma, .newline]),
     (.shared .shiftExtra, [.lineComment, .blockComment])],
    []⟩,
  -- 38
  ⟨.operator,
    [(.exact (.reduce .templateArgs 6 38), [.identifier, .assign, .inKw, .minus, .lt, .gt, .slash,
       .dot]),
     (.shared (.reduce .templateArgs 6 38), [.rparen, .lbrace, .rbrace, .dotDot, .arrow, .plus,
       .star, .pipe, .amp, .caret, .eqEq, .bangEq, .le, .ge, .percent, .lparen, .lbracket,
       .rbracket, .comma, .newline]),
     (.shared .shiftExtra, [.lineComment, .blockComment])],
    []⟩,
  -- 39
  ⟨.operator,
    [(.shared (.reduce .funcCall 2 23), [.rparen, .lbrace, .rbrace, .inKw, .dotDot, .arrow, .plus,
       .star, .pipe, .amp, .caret, .eqEq, .bangEq, .le, .ge, .percent, .lparen, .lbracket,
       .rbracket, .comma, .newline]),
     (.exact (.reduce .funcCall 2 23), [.assign, .minus, .lt, .gt, .slash, .dot]),
     (.shared .shiftExtra, [.lineComment, .blockComment])],
    []⟩,
  -- 40
  ⟨.operator,
    [(.shared (.reduce .arrayOp 2 8), [.rparen, .lbrace, .rbrace, .inKw, .dotDot, .arrow, .plus,
       .star, .pipe, .amp, .caret, .eqEq, .bangEq, .le, .ge, .percent, .lparen, .lbracket,
       .rbracket, .comma, .newline]),
     (.exact (.reduce .arrayOp 2 8), [.assign, .minus, .lt, .gt, .slash, .dot]),
     (.shared .shiftExtra, [.lineComment, .blockComment])],
    []⟩,
  -- 41
  ⟨.operator,
    [(.shared (.reduce .parenthesisExpressionList 2 0), [.rparen, .lbrace, .rbrace, .inKw,
       .dotDot, .arrow, .plus, .star, .pipe, .amp, .caret, .eqEq, .bangEq, .le, .ge, .percent,
       .lparen, .lbracket, .rbracket, .comma, .newline]),
     (.exact (.reduce .parenthesisExpressionList 2 0), [.assign, .minus, .lt, .gt, .slash, .dot]),
     (.shared .shiftExtra, [.lineComment, .blockComment])],
    []⟩,
  -- 42
  ⟨.operator,
    [(.shared (.reduce .fieldAccess 3 33), [.rparen, .lbrace, .rbrace, .inKw, .dotDot, .arrow,
       .plus, .star, .pipe, .amp, .caret, .eqEq, .bangEq, .le, .ge, .percent, .lparen, .lbracket,
       .rbracket, .comma, .newline]),
     (.exact (.reduce .fieldAccess 3 33), [.assign, .minus, .lt, .gt, .slash, .dot]),
     (.shared .shiftExtra, [.lineComment, .blockComment])],
    []⟩,
  -- 43
  ⟨.operator,
    [(.shared (.reduce .parenthesisExpressionList 3 5), [.rparen, .lbrace, .rbrace, .inKw,
       .dotDot, .arrow, .plus, .star, .pipe, .amp, .caret, .eqEq, .bangEq, .le, .ge, .percent,
       .lparen, .lbracket, .rbracket, .comma, .newline]),
     (.exact (.reduce .parenthesisExpressionList 3 5), [.assign, .minus, .lt, .gt, .slash, .dot]),
     (.shared .shiftExtra, [.lineComment, .blockComment])],
    []⟩,
  -- 44
  ⟨.operator,
    [(.shared (.reduce .parenthesisExpressionList 4 11), [.rparen, .lbrace, .rbrace, .inKw,
       .dotDot, .arrow, .plus, .star, .pipe, .amp, .caret, .eqEq, .bangEq, .le, .ge, .percent,
       .lparen, .lbracket, .rbracket, .comma, .newline]),
     (.exact (.reduce .parenthesisExpressionList 4 11), [.assign, .minus, .lt, .gt, .slash,
       .dot]),
     (.shared .shiftExtra, [.lineComment, .blockComment])],
    []⟩,
  -- 45
  ⟨.operator,
    [(.shared (.reduce .parenthesisExpression 3 24), [.rparen, .lbrace, .rbrace, .inKw, .dotDot,
       .arrow, .plus, .star, .pipe, .amp, .caret, .eqEq, .bangEq, .le, .ge, .percent, .lparen,
       .lbracket, .rbracket, .comma, .newline]),
     (.exact (.reduce .parenthesisExpression 3 24), [.assign, .minus, .lt, .gt, .slash, .dot]),
     (.shared .shiftExtra, [.lineComment, .blockComment])],
    []⟩]

end SusSyntax.Grammar
