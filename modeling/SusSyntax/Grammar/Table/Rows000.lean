import SusSyntax.Grammar.Action

/-!
The parse table: the rows of the states 0 to 22.
-/

namespace SusSyntax.Grammar

/-- The rows of the states 0 to 22. -/
def rows000 : List Row := [
  -- 0
  ⟨.anything,
    [(.exact .recover, [.eof, .identifier, .builtinKw, .externKw, .moduleKw, .structKw, .constKw,
       .hashParen, .rparen, .lbrace, .rbrace, .assign, .regKw, .initialKw, .whenKw, .ifKw,
       .elseKw, .forKw, .inKw, .dotDot, .domainKw, .interfaceKw, .colon, .arrow, .inputKw,
       .outputKw, .stateKw, .genKw, .quote, .plus, .minus, .star, .bang, .pipe, .amp, .caret,
       .eqEq, .bangEq, .lt, .le, .gt, .ge, .slash, .percent, .dot, .lparen, .lbracket, .rbracket,
       .typeKw, .number, .comma, .newline]),
     (.shared .shiftExtra, [.lineComment, .blockComment])],
    []⟩,
  -- 1
  ⟨.anything,
    [(.shared (.reduce .sourceFile 0 0), [.eof]),
     (.shared (.shift 169), [.builtinKw, .externKw]),
     (.shared (.shift 223), [.moduleKw, .structKw]),
     (.shared (.shift 124), [.constKw]),
     (.shared (.shift 94), [.newline]),
     (.shared .shiftExtra, [.lineComment, .blockComment])],
    [(.sourceFile, 225), (.globalObject, 143), (.constAndType, 223), (.linebreak, 94)]⟩,
  -- 2
  ⟨.operand,
    [(.exact (.shift 12), [.identifier]),
     (.shared (.shift 2), [.lbrace]),
     (.shared (.shift 164), [.rbrace]),
     (.exact (.shift 81), [.regKw]),
     (.exact (.shift 85), [.initialKw]),
     (.exact (.shift 66), [.whenKw, .ifKw]),
     (.exact (.shift 91), [.forKw]),
     (.exact (.shift 226), [.domainKw]),
     (.exact (.shift 215), [.interfaceKw]),
     (.exact (.shift 104), [.inputKw, .outputKw]),
     (.exact (.shift 123), [.stateKw, .genKw]),
     (.shared (.shift 69), [.plus, .minus, .star, .bang, .pipe, .amp, .caret]),
     (.shared (.shift 70), [.lparen]),
     (.shared (.shift 196), [.colonColon]),
     (.shared (.shift 50), [.number]),
     (.shared (.shift 3), [.newline]),
     (.shared .shiftExtra, [.lineComment, .blockComment])],
    [(.block, 144), (.declAssignStatement, 144), (.assignLeftSide, 127), (.assignTo, 117),
     (.writeModifiers, 46), (.ifStatement, 144), (.forStatement, 144), (.domainStatement, 144),
     (.interfaceStatement, 144), (.declaration, 150), (.type, 177), (.arrayType, 177),
     (.expression, 50), (.unaryOp, 50), (.binaryOp, 50), (.arrayOp, 50), (.funcCall, 50),
     (.fieldAccess, 50), (.parenthesisExpression, 50), (.namespaceList, 17),
     (.templateGlobal, 51), (.linebreak, 3), (.writeModifiersItems, 80)]⟩,
  -- 3
  ⟨.operand,
    [(.exact (.shift 12), [.identifier]),
     (.shared (.shift 2), [.lbrace]),
     (.shared (.shift 159), [.rbrace]),
     (.exact (.shift 81), [.regKw]),
     (.exact (.shift 85), [.initialKw]),
     (.exact (.shift 66), [.whenKw, .ifKw]),
     (.exact (.shift 91), [.forKw]),
     (.exact (.shift 226), [.domainKw]),
     (.exact (.shift 215), [.interfaceKw]),
     (.exact (.shift 104), [.inputKw, .outputKw]),
     (.exact (.shift 123), [.stateKw, .genKw]),
     (.shared (.shift 69), [.plus, .minus, .star, .bang, .pipe, .amp, .caret]),
     (.shared (.shift 70), [.lparen]),
     (.shared (.shift 196), [.colonColon]),
     (.shared (.shift 50), [.number]),
     (.shared (.shift 25), [.newline]),
     (.shared .shiftExtra, [.lineComment, .blockComment])],
    [(.block, 160), (.declAssignStatement, 160), (.assignLeftSide, 129), (.assignTo, 117),
     (.writeModifiers, 46), (.ifStatement, 160), (.forStatement, 160), (.domainStatement, 160),
     (.interfaceStatement, 160), (.declaration, 150), (.type, 177), (.arrayType, 177),
     (.expression, 50), (.unaryOp, 50), (.binaryOp, 50), (.arrayOp, 50), (.funcCall, 50),
     (.fieldAccess, 50), (.parenthesisExpression, 50), (.namespaceList, 17),
     (.templateGlobal, 51), (.linebreak, 25), (.writeModifiersItems, 80)]⟩,
  -- 4
  ⟨.operand,
    [(.exact (.shift 12), [.identifier]),
     (.shared (.shift 2), [.lbrace]),
     (.shared (.shift 174), [.rbrace]),
     (.exact (.shift 81), [.regKw]),
     (.exact (.shift 85), [.initialKw]),
     (.exact (.shift 66), [.whenKw, .ifKw]),
     (.exact (.shift 91), [.forKw]),
     (.exact (.shift 226), [.domainKw]),
     (.exact (.shift 215), [.interfaceKw]),
     (.exact (.shift 104), [.inputKw, .outputKw]),
     (.exact (.shift 123), [.stateKw, .genKw]),
     (.shared (.shift 69), [.plus, .minus, .star, .bang, .pipe, .amp, .caret]),
     (.shared (.shift 70), [.lparen]),
     (.shared (.shift 196), [.colonColon]),
     (.shared (.shift 50), [.number]),
     (.shared (.shift 25), [.newline]),
     (.shared .shiftExtra, [.lineComment, .blockComment])],
    [(.block, 209), (.declAssignStatement, 209), (.assignLeftSide, 191), (.assignTo, 117),
     (.writeModifiers, 46), (.ifStatement, 209), (.forStatement, 209), (.domainStatement, 209),
     (.interfaceStatement, 209), (.declaration, 150), (.type, 177), (.arrayType, 177),
     (.expression, 50), (.unaryOp, 50), (.binaryOp, 50), (.arrayOp, 50), (.funcCall, 50),
     (.fieldAccess, 50), (.parenthesisExpression, 50), (.namespaceList, 17),
     (.templateGlobal, 51), (.linebreak, 25), (.writeModifiersItems, 80)]⟩,
  -- 5
  ⟨.operand,
    [(.exact (.shift 12), [.identifier]),
     (.shared (.shift 2), [.lbrace]),
     (.shared (.shift 163), [.rbrace]),
     (.exact (.shift 81), [.regKw]),
     (.exact (.shift 85), [.initialKw]),
     (.exact (.shift 66), [.whenKw, .ifKw]),
     (.exact (.shift 91), [.forKw]),
     (.exact (.shift 226), [.domainKw]),
     (.exact (.shift 215), [.interfaceKw]),
     (.exact (.shift 104), [.inputKw, .outputKw]),
     (.exact (.shift 123), [.stateKw, .genKw]),
     (.shared (.shift 69), [.plus, .minus, .star, .bang, .pipe, .amp, .caret]),
     (.shared (.shift 70), [.lparen]),
     (.shared (.shift 196), [.colonColon]),
     (.shared (.shift 50), [.number]),
     (.shared (.shift 25), [.newline]),
     (.shared .shiftExtra, [.lineComment, .blockComment])],
    [(.block, 209), (.declAssignStatement, 209), (.assignLeftSide, 191), (.assignTo, 117),
     (.writeModifiers, 46), (.ifStatement, 209), (.forStatement, 209), (.domainStatement, 209),
     (.interfaceStatement, 209), (.declaration, 150), (.type, 177), (.arrayType, 177),
     (.expression, 50), (.unaryOp, 50), (.binaryOp, 50), (.arrayOp, 50), (.funcCall, 50),
     (.fieldAccess, 50), (.parenthesisExpression, 50), (.namespaceList, 17),
     (.templateGlobal, 51), (.linebreak, 25), (.writeModifiersItems, 80)]⟩,
  -- 6
  ⟨.operand,
    [(.exact (.shift 12), [.identifier]),
     (.shared (.shift 2), [.lbrace]),
     (.shared (.shift 172), [.rbrace]),
     (.exact (.shift 81), [.regKw]),
     (.exact (.shift 85), [.initialKw]),
     (.exact (.shift 66), [.whenKw, .ifKw]),
     (.exact (.shift 91), [.forKw]),
     (.exact (.shift 226), [.domainKw]),
     (.exact (.shift 215), [.interfaceKw]),
     (.exact (.shift 104), [.inputKw, .outputKw]),
     (.exact (.shift 123), [.stateKw, .genKw]),
     (.shared (.shift 69), [.plus, .minus, .star, .bang, .pipe, .amp, .caret]),
     (.shared (.shift 70), [.lparen]),
     (.shared (.shift 196), [.colonColon]),
     (.shared (.shift 50), [.number]),
     (.shared (.shift 25), [.newline]),
     (.shared .shiftExtra, [.lineComment, .blockComment])],
    [(.block, 209), (.declAssignStatement, 209), (.assignLeftSide, 191), (.assignTo, 117),
     (.writeModifiers, 46), (.ifStatement, 209), (.forStatement, 209), (.domainStatement, 209),
     (.interfaceStatement, 209), (.declaration, 150), (.type, 177), (.arrayType, 177),
     (.expression, 50), (.unaryOp, 50), (.binaryOp, 50), (.arrayOp, 50), (.funcCall, 50),
     (.fieldAccess, 50), (.parenthesisExpression, 50), (.namespaceList, 17),
     (.templateGlobal, 51), (.linebreak, 25), (.writeModifiersItems, 80)]⟩,
  -- 7
  ⟨.operand,
    [(.exact (.shift 12), [.identifier]),
     (.shared (.shift 2), [.lbrace]),
     (.shared (.shift 136), [.rbrace]),
     (.exact (.shift 81), [.regKw]),
     (.exact (.shift 85), [.initialKw]),
     (.exact (.shift 66), [.whenKw, .ifKw]),
     (.exact (.shift 91), [.forKw]),
     (.exact (.shift 226), [.domainKw]),
     (.exact (.shift 215), [.interfaceKw]),
     (.exact (.shift 104), [.inputKw, .outputKw]),
     (.exact (.shift 123), [.stateKw, .genKw]),
     (.shared (.shift 69), [.plus, .minus, .star, .bang, .pipe, .amp, .caret]),
     (.shared (.shift 70), [.lparen]),
     (.shared (.shift 196), [.colonColon]),
     (.shared (.shift 50), [.number]),
     (.shared (.shift 25), [.newline]),
     (.shared .shiftExtra, [.lineComment, .blockComment])],
    [(.block, 209), (.declAssignStatement, 209), (.assignLeftSide, 191), (.assignTo, 117),
     (.writeModifiers, 46), (.ifStatement, 209), (.forStatement, 209), (.domainStatement, 209),
     (.interfaceStatement, 209), (.declaration, 150), (.type, 177), (.arrayType, 177),
     (.expression, 50), (.unaryOp, 50), (.binaryOp, 50), (.arrayOp, 50), (.funcCall, 50),
     (.fieldAccess, 50), (.parenthesisExpression, 50), (.namespaceList, 17),
     (.templateGlobal, 51), (.linebreak, 25), (.writeModifiersItems, 80)]⟩,
  -- 8
  ⟨.operand,
    [(.exact (.shift 12), [.identifier]),
     (.shared (.shift 2), [.lbrace]),
     (.shared (.shift 173), [.rbrace]),
     (.exact (.shift 81), [.regKw]),
     (.exact (.shift 85), [.initialKw]),
     (.exact (.shift 66), [.whenKw, .ifKw]),
     (.exact (.shift 91), [.forKw]),
     (.exact (.shift 226), [.domainKw]),
     (.exact (.shift 215), [.interfaceKw]),
     (.exact (.shift 104), [.inputKw, .outputKw]),
     (.exact (.shift 123), [.stateKw, .genKw]),
     (.shared (.shift 69), [.plus, .minus, .star, .bang, .pipe, .amp, .caret]),
     (.shared (.shift 70), [.lparen]),
     (.shared (.shift 196), [.colonColon]),
     (.shared (.shift 50), [.number]),
     (.shared (.shift 25), [.newline]),
     (.shared .shiftExtra, [.lineComment, .blockComment])],
    [(.block, 209), (.declAssignStatement, 209), (.assignLeftSide, 191), (.assignTo, 117),
     (.writeModifiers, 46), (.ifStatement, 209), (.forStatement, 209), (.domainStatement, 209),
     (.interfaceStatement, 209), (.declaration, 150), (.type, 177), (.arrayType, 177),
     (.expression, 50), (.unaryOp, 50), (.binaryOp, 50), (.arrayOp, 50), (.funcCall, 50),
     (.fieldAccess, 50), (.parenthesisExpression, 50), (.namespaceList, 17),
     (.templateGlobal, 51), (.linebreak, 25), (.writeModifiersItems, 80)]⟩,
  -- 9
  ⟨.operand,
    [(.exact (.shift 12), [.identifier]),
     (.shared (.shift 2), [.lbrace]),
     (.shared (.shift 165), [.rbrace]),
     (.exact (.shift 81), [.regKw]),
     (.exact (.shift 85), [.initialKw]),
     (.exact (.shift 66), [.whenKw, .ifKw]),
     (.exact (.shift 91), [.forKw]),
     (.exact (.shift 226), [.domainKw]),
     (.exact (.shift 215), [.interfaceKw]),
     (.exact (.shift 104), [.inputKw, .outputKw]),
     (.exact (.shift 123), [.stateKw, .genKw]),
     (.shared (.shift 69), [.plus, .minus, .star, .bang, .pipe, .amp, .caret]),
     (.shared (.shift 70), [.lparen]),
     (.shared (.shift 196), [.colonColon]),
     (.shared (.shift 50), [.number]),
     (.shared (.shift 25), [.newline]),
     (.shared .shiftExtra, [.lineComment, .blockComment])],
    [(.block, 209), (.declAssignStatement, 209), (.assignLeftSide, 191), (.assignTo, 117),
     (.writeModifiers, 46), (.ifStatement, 209), (.forStatement, 209), (.domainStatement, 209),
     (.interfaceStatement, 209), (.declaration, 150), (.type, 177), (.arrayType, 177),
     (.expression, 50), (.unaryOp, 50), (.binaryOp, 50), (.arrayOp, 50), (.funcCall, 50),
     (.fieldAccess, 50), (.parenthesisExpression, 50), (.namespaceList, 17),
     (.templateGlobal, 51), (.linebreak, 25), (.writeModifiersItems, 80)]⟩,
  -- 10
  ⟨.operand,
    [(.exact (.shift 12), [.identifier]),
     (.shared (.shift 2), [.lbrace]),
     (.exact (.shift 81), [.regKw]),
     (.exact (.shift 85), [.initialKw]),
     (.exact (.shift 66), [.whenKw, .ifKw]),
     (.exact (.shift 91), [.forKw]),
     (.exact (.shift 226), [.domainKw]),
     (.exact (.shift 215), [.interfaceKw]),
     (.exact (.shift 104), [.inputKw, .outputKw]),
     (.exact (.shift 123), [.stateKw, .genKw]),
     (.shared (.shift 69), [.plus, .minus, .star, .bang, .pipe, .amp, .caret]),
     (.shared (.shift 70), [.lparen]),
     (.shared (.shift 196), [.colonColon]),
     (.shared (.shift 50), [.number]),
     (.shared (.shift 25), [.newline]),
     (.shared .shiftExtra, [.lineComment, .blockComment])],
    [(.block, 209), (.declAssignStatement, 209), (.assignLeftSide, 191), (.assignTo, 117),
     (.writeModifiers, 46), (.ifStatement, 209), (.forStatement, 209), (.domainStatement, 209),
     (.interfaceStatement, 209), (.declaration, 150), (.type, 177), (.arrayType, 177),
     (.expression, 50), (.unaryOp, 50), (.binaryOp, 50), (.arrayOp, 50), (.funcCall, 50),
     (.fieldAccess, 50), (.parenthesisExpression, 50), (.namespaceList, 17),
     (.templateGlobal, 51), (.linebreak, 25), (.writeModifiersItems, 80)]⟩,
  -- 11
  ⟨.operand,
    [(.exact (.shift 12), [.identifier]),
     (.exact (.shift 81), [.regKw]),
     (.exact (.shift 85), [.initialKw]),
     (.exact (.shift 104), [.inputKw, .outputKw]),
     (.exact (.shift 123), [.stateKw, .genKw]),
     (.shared (.shift 69), [.plus, .minus, .star, .bang, .pipe, .amp, .caret]),
     (.shared (.shift 70), [.lparen]),
     (.shared (.shift 196), [.colonColon]),
     (.shared (.shift 50), [.number]),
     (.shared .shiftExtra, [.lineComment, .blockComment])],
    [(.assignTo, 142), (.writeModifiers, 46), (.declaration, 150), (.type, 177),
     (.arrayType, 177), (.expression, 50), (.unaryOp, 50), (.binaryOp, 50), (.arrayOp, 50),
     (.funcCall, 50), (.fieldAccess, 50), (.parenthesisExpression, 50), (.namespaceList, 17),
     (.templateGlobal, 51), (.writeModifiersItems, 80)]⟩,
  -- 12
  ⟨.operator,
    [(.exact (.reduce .namespaceList 1 1), [.identifier, .assign, .inKw, .minus, .lt, .gt, .slash,
       .dot]),
     (.shared (.reduce .namespaceList 1 1), [.hashParen, .rparen, .lbrace, .rbrace, .dotDot,
       .arrow, .plus, .star, .pipe, .amp, .caret, .eqEq, .bangEq, .le, .ge, .percent, .lparen,
       .lbracket, .rbracket, .comma, .newline]),
     (.shared (.shift 229), [.colonColon]),
     (.shared .shiftExtra, [.lineComment, .blockComment])],
    [(.namespaceListItems, 13)]⟩,
  -- 13
  ⟨.operator,
    [(.exact (.reduce .namespaceList 2 4), [.identifier, .assign, .inKw, .minus, .lt, .gt, .slash,
       .dot]),
     (.shared (.reduce .namespaceList 2 4), [.hashParen, .rparen, .lbrace, .rbrace, .dotDot,
       .arrow, .plus, .star, .pipe, .amp, .caret, .eqEq, .bangEq, .le, .ge, .percent, .lparen,
       .lbracket, .rbracket, .comma, .newline]),
     (.shared (.shift 229), [.colonColon]),
     (.shared .shiftExtra, [.lineComment, .blockComment])],
    [(.namespaceListItems, 14)]⟩,
  -- 14
  ⟨.operator,
    [(.exact (.reduce .namespaceListItems 2 10), [.identifier, .assign, .inKw, .minus, .lt, .gt,
       .slash, .dot]),
     (.shared (.reduce .namespaceListItems 2 10), [.hashParen, .rparen, .lbrace, .rbrace, .dotDot,
       .arrow, .plus, .star, .pipe, .amp, .caret, .eqEq, .bangEq, .le, .ge, .percent, .lparen,
       .lbracket, .rbracket, .comma, .newline]),
     (.sharedPair (.reduce .namespaceListItems 2 10) (.shiftRepeat 229), [.colonColon]),
     (.shared .shiftExtra, [.lineComment, .blockComment])],
    [(.namespaceListItems, 14)]⟩,
  -- 15
  ⟨.operator,
    [(.exact (.reduce .templateGlobal 2 7), [.identifier, .assign, .inKw, .minus, .lt, .gt,
       .slash, .dot]),
     (.shared (.shift 133), [.hashParen]),
     (.shared (.reduce .templateGlobal 2 7), [.rparen, .lbrace, .rbrace, .dotDot, .arrow, .plus,
       .star, .pipe, .amp, .caret, .eqEq, .bangEq, .le, .ge, .percent, .lparen, .lbracket,
       .rbracket, .comma, .newline]),
     (.shared .shiftExtra, [.lineComment, .blockComment])],
    [(.templateArgs, 29)]⟩,
  -- 16
  ⟨.operator,
    [(.exact (.reduce .namespaceListItems 2 5), [.identifier, .assign, .inKw, .minus, .lt, .gt,
       .slash, .dot]),
     (.shared (.reduce .namespaceListItems 2 5), [.hashParen, .rparen, .lbrace, .rbrace, .dotDot,
       .arrow, .plus, .star, .pipe, .amp, .caret, .eqEq, .bangEq, .le, .ge, .percent, .lparen,
       .lbracket, .rbracket, .colonColon, .comma, .newline]),
     (.shared .shiftExtra, [.lineComment, .blockComment])],
    []⟩,
  -- 17
  ⟨.operator,
    [(.exact (.reduce .templateGlobal 1 3), [.identifier, .assign, .inKw, .minus, .lt, .gt,
       .slash, .dot]),
     (.shared (.shift 133), [.hashParen]),
     (.shared (.reduce .templateGlobal 1 3), [.rparen, .lbrace, .rbrace, .dotDot, .arrow, .plus,
       .star, .pipe, .amp, .caret, .eqEq, .bangEq, .le, .ge, .percent, .lparen, .lbracket,
       .rbracket, .comma, .newline]),
     (.shared .shiftExtra, [.lineComment, .blockComment])],
    [(.templateArgs, 28)]⟩,
  -- 18
  ⟨.operator,
    [(.shared (.reduce .unaryOp 2 21), [.rparen, .lbrace, .rbrace, .inKw, .dotDot, .arrow, .plus,
       .star, .pipe, .amp, .caret, .eqEq, .bangEq, .le, .ge, .percent, .rbracket, .comma,
       .newline]),
     (.exact (.reduce .unaryOp 2 21), [.assign, .minus, .lt, .gt, .slash]),
     (.exact (.shift 221), [.dot]),
     (.shared (.shift 55), [.lparen]),
     (.shared (.shift 71), [.lbracket]),
     (.shared .shiftExtra, [.lineComment, .blockComment])],
    [(.parenthesisExpressionList, 39), (.arrayBracketExpression, 40)]⟩,
  -- 19
  ⟨.operator,
    [(.shared (.reduce .binaryOp 3 32), [.rparen, .lbrace, .rbrace, .inKw, .dotDot, .arrow, .pipe,
       .amp, .caret, .eqEq, .bangEq, .le, .ge, .rbracket, .comma, .newline]),
     (.exact (.reduce .binaryOp 3 32), [.assign, .lt, .gt]),
     (.shared (.shift 65), [.plus]),
     (.exact (.shift 65), [.minus]),
     (.shared (.shift 60), [.star, .percent]),
     (.exact (.shift 60), [.slash]),
     (.exact (.shift 221), [.dot]),
     (.shared (.shift 55), [.lparen]),
     (.shared (.shift 71), [.lbracket]),
     (.shared .shiftExtra, [.lineComment, .blockComment])],
    [(.parenthesisExpressionList, 39), (.arrayBracketExpression, 40)]⟩,
  -- 20
  ⟨.operator,
    [(.shared (.reduce .binaryOp 3 32), [.rparen, .lbrace, .rbrace, .inKw, .dotDot, .arrow, .pipe,
       .caret, .eqEq, .bangEq, .le, .ge, .rbracket, .comma, .newline]),
     (.exact (.reduce .binaryOp 3 32), [.assign, .lt, .gt]),
     (.shared (.shift 65), [.plus]),
     (.exact (.shift 65), [.minus]),
     (.shared (.shift 60), [.star, .percent]),
     (.shared (.shift 61), [.amp]),
     (.exact (.shift 60), [.slash]),
     (.exact (.shift 221), [.dot]),
     (.shared (.shift 55), [.lparen]),
     (.shared (.shift 71), [.lbracket]),
     (.shared .shiftExtra, [.lineComment, .blockComment])],
    [(.parenthesisExpressionList, 39), (.arrayBracketExpression, 40)]⟩,
  -- 21
  ⟨.operator,
    [(.shared (.reduce .binaryOp 3 32), [.rparen, .lbrace, .rbrace, .inKw, .dotDot, .arrow, .plus,
       .star, .pipe, .amp, .caret, .eqEq, .bangEq, .le, .ge, .percent, .rbracket, .comma,
       .newline]),
     (.exact (.reduce .binaryOp 3 32), [.assign, .minus, .lt, .gt, .slash]),
     (.exact (.shift 221), [.dot]),
     (.shared (.shift 55), [.lparen]),
     (.shared (.shift 71), [.lbracket]),
     (.shared .shiftExtra, [.lineComment, .blockComment])],
    [(.parenthesisExpressionList, 39), (.arrayBracketExpression, 40)]⟩,
  -- 22
  ⟨.operator,
    [(.shared (.reduce .binaryOp 3 32), [.rparen, .lbrace, .rbrace, .inKw, .dotDot, .arrow, .plus,
       .pipe, .amp, .caret, .eqEq, .bangEq, .le, .ge, .rbracket, .comma, .newline]),
     (.exact (.reduce .binaryOp 3 32), [.assign, .minus, .lt, .gt]),
     (.shared (.shift 60), [.star, .percent]),
     (.exact (.shift 60), [.slash]),
     (.exact (.shift 221), [.dot]),
     (.shared (.shift 55), [.lparen]),
     (.shared (.shift 71), [.lbracket]),
     (.shared .shiftExtra, [.lineComment, .blockComment])],
    [(.parenthesisExpressionList, 39), (.arrayBracketExpression, 40)]⟩]

end SusSyntax.Grammar
