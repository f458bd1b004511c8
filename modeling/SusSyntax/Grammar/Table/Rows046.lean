import SusSyntax.Grammar.Action

/-!
The parse table: the rows of the states 46 to 68.
-/

namespace SusSyntax.Grammar

/-- The rows of the states 46 to 68. -/
def rows046 : List Row := [
  -- 46
  ⟨.operand,
    [(.exact (.shift 12), [.identifier]),
     (.exact (.shift 104), [.inputKw, .outputKw]),
     (.exact (.shift 123), [.stateKw, .genKw]),
     (.shared (.shift 69), [.plus, .minus, .star, .bang, .pipe, .amp, .caret]),
     (.shared (.shift 70), [.lparen]),
     (.shared (.shift 196), [.colonColon]),
     (.shared (.shift 49), [.number]),
     (.shared .shiftExtra, [.lineComment, .blockComment])],
    [(.declaration, 151), (.type, 177), (.arrayType, 177), (.expression, 49), (.unaryOp, 49),
     (.binaryOp, 49), (.arrayOp, 49), (.funcCall, 49), (.fieldAccess, 49),
     (.parenthesisExpression, 49), (.namespaceList, 17), (.templateGlobal, 51)]⟩,
  -- 47
  ⟨.operator,
    [(.shared (.reduce .latencySpecifier 2 24), [.rparen, .rbrace, .inKw, .arrow, .comma,
       .newline]),
     (.exact (.reduce .latencySpecifier 2 24), [.assign]),
     (.shared (.shift 65), [.plus]),
     (.exact (.shift 65), [.minus]),
     (.shared (.shift 60), [.star, .percent]),
     (.shared (.shift 64), [.pipe]),
     (.shared (.shift 61), [.amp]),
     (.shared (.shift 62), [.caret]),
     (.shared (.shift 63), [.eqEq, .bangEq, .le, .ge]),
     (.exact (.shift 63), [.lt, .gt]),
     (.exact (.shift 60), [.slash]),
     (.shared (.shift 221), [.dot]),
     (.shared (.shift 55), [.lparen]),
     (.shared (.shift 71), [.lbracket]),
     (.shared .shiftExtra, [.lineComment, .blockComment])],
    [(.parenthesisExpressionList, 39), (.arrayBracketExpression, 40)]⟩,
  -- 48
  ⟨.operator,
    [(.shared (.shift 43), [.rparen]),
     (.shared (.shift 65), [.plus, .minus]),
     (.shared (.shift 60), [.star, .percent]),
     (.shared (.shift 64), [.pipe]),
     (.shared (.shift 61), [.amp]),
     (.shared (.shift 62), [.caret]),
     (.shared (.shift 63), [.eqEq, .bangEq, .le, .ge]),
     (.exact (.shift 63), [.lt, .gt]),
     (.exact (.shift 60), [.slash]),
     (.shared (.shift 221), [.dot]),
     (.shared (.shift 55), [.lparen]),
     (.shared (.shift 71), [.lbracket]),
     (.shared (.shift 78), [.comma]),
     (.shared .shiftExtra, [.lineComment, .blockComment])],
    [(.parenthesisExpressionList, 39), (.arrayBracketExpression, 40), (.commaBreak, 75),
     (.parenthesisExpressionItems, 166)]⟩,
  -- 49
  ⟨.operator,
    [(.shared (.reduce .assignTo 2 22), [.rbrace, .comma, .newline]),
     (.exact (.reduce .assignTo 2 22), [.assign]),
     (.shared (.shift 65), [.plus, .minus]),
     (.shared (.shift 60), [.star, .percent]),
     (.shared (.shift 64), [.pipe]),
     (.shared (.shift 61), [.amp]),
     (.shared (.shift 62), [.caret]),
     (.shared (.shift 63), [.eqEq, .bangEq, .le, .ge]),
     (.exact (.shift 63), [.lt, .gt]),
     (.exact (.shift 60), [.slash]),
     (.shared (.shift 221), [.dot]),
     (.shared (.shift 55), [.lparen]),
     (.shared (.shift 71), [.lbracket]),
     (.shared .shiftExtra, [.lineComment, .blockComment])],
    [(.parenthesisExpressionList, 39), (.arrayBracketExpression, 40)]⟩,
  -- 50
  ⟨.operator,
    [(.shared (.reduce .assignTo 1 14), [.rbrace, .comma, .newline]),
     (.exact (.reduce .assignTo 1 14), [.assign]),
     (.shared (.shift 65), [.plus, .minus]),
     (.shared (.shift 60), [.star, .percent]),
     (.shared (.shift 64), [.pipe]),
     (.shared (.shift 61), [.amp]),
     (.shared (.shift 62), [.caret]),
     (.shared (.shift 63), [.eqEq, .bangEq, .le, .ge]),
     (.exact (.shift 63), [.lt, .gt]),
     (.exact (.shift 60), [.slash]),
     (.shared (.shift 221), [.dot]),
     (.shared (.shift 55), [.lparen]),
     (.shared (.shift 71), [.lbracket]),
     (.shared .shiftExtra, [.lineComment, .blockComment])],
    [(.parenthesisExpressionList, 39), (.arrayBracketExpression, 40)]⟩,
  -- 51
  ⟨.operator,
    [(.shared (.reduce .type 1 0), [.identifier]),
     (.shared (.reduce .expression 1 0), [.rbrace, .plus, .minus, .star, .pipe, .amp, .caret,
       .eqEq, .bangEq, .le, .ge, .percent, .dot, .lparen, .comma, .newline]),
     (.exact (.reduce .expression 1 0), [.assign, .lt, .gt, .slash]),
     (.sharedPair (.reduce .type 1 0) (.reduce .expression 1 0), [.lbracket]),
     (.shared .shiftExtra, [.lineComment, .blockComment])],
    []⟩,
  -- 52
  ⟨.operator,
    [(.shared (.reduce .templateArg 3 34), [.rparen, .comma, .newline]),
     (.shared (.shift 65), [.plus, .minus]),
     (.shared (.shift 60), [.star, .percent]),
     (.shared (.shift 64), [.pipe]),
     (.shared (.shift 61), [.amp]),
     (.shared (.shift 62), [.caret]),
     (.shared (.shift 63), [.eqEq, .bangEq, .le, .ge]),
     (.exact (.shift 63), [.lt, .gt]),
     (.exact (.shift 60), [.slash]),
     (.shared (.shift 221), [.dot]),
     (.shared (.shift 55), [.lparen]),
     (.shared (.shift 71), [.lbracket]),
     (.shared .shiftExtra, [.lineComment, .blockComment])],
    [(.parenthesisExpressionList, 39), (.arrayBracketExpression, 40)]⟩,
  -- 53
  ⟨.operator,
    [(.shared (.shift 2), [.lbrace]),
     (.shared (.shift 65), [.plus, .minus]),
     (.shared (.shift 60), [.star, .percent]),
     (.shared (.shift 64), [.pipe]),
     (.shared (.shift 61), [.amp]),
     (.shared (.shift 62), [.caret]),
     (.shared (.shift 63), [.eqEq, .bangEq, .le, .ge]),
     (.exact (.shift 63), [.lt, .gt]),
     (.exact (.shift 60), [.slash]),
     (.shared (.shift 221), [.dot]),
     (.shared (.shift 55), [.lparen]),
     (.shared (.shift 71), [.lbracket]),
     (.shared .shiftExtra, [.lineComment, .blockComment])],
    [(.block, 211), (.parenthesisExpressionList, 39), (.arrayBracketExpression, 40)]⟩,
  -- 54
  ⟨.operand,
    [(.exact (.shift 12), [.identifier]),
     (.shared (.shift 69), [.plus, .minus, .star, .bang, .pipe, .amp, .caret]),
     (.shared (.shift 70), [.lparen]),
     (.shared (.shift 196), [.colonColon]),
     (.exact (.shift 110), [.typeKw]),
     (.shared (.shift 52), [.number]),
     (.shared .shiftExtra, [.lineComment, .blockComment])],
    [(.expression, 52), (.unaryOp, 52), (.binaryOp, 52), (.arrayOp, 52), (.funcCall, 52),
     (.fieldAccess, 52), (.parenthesisExpression, 52), (.namespaceList, 17),
     (.templateGlobal, 52)]⟩,
  -- 55
  ⟨.operand,
    [(.shared (.shift 12), [.identifier]),
     (.shared (.shift 41), [.rparen]),
     (.shared (.shift 69), [.plus, .minus, .star, .bang, .pipe, .amp, .caret]),
     (.shared (.shift 70), [.lparen]),
     (.shared (.shift 196), [.colonColon]),
     (.shared (.shift 48), [.number]),
     (.shared .shiftExtra, [.lineComment, .blockComment])],
    [(.expression, 48), (.unaryOp, 48), (.binaryOp, 48), (.arrayOp, 48), (.funcCall, 48),
     (.fieldAccess, 48), (.parenthesisExpression, 48), (.namespaceList, 17),
     (.templateGlobal, 48)]⟩,
  -- 56
  ⟨.operator,
    [(.shared (.shift 2), [.lbrace]),
     (.shared (.shift 65), [.plus, .minus]),
     (.shared (.shift 60), [.star, .percent]),
     (.shared (.shift 64), [.pipe]),
     (.shared (.shift 61), [.amp]),
     (.shared (.shift 62), [.caret]),
     (.shared (.shift 63), [.eqEq, .bangEq, .le, .ge]),
     (.exact (.shift 63), [.lt, .gt]),
     (.exact (.shift 60), [.slash]),
     (.shared (.shift 221), [.dot]),
     (.shared (.shift 55), [.lparen]),
     (.shared (.shift 71), [.lbracket]),
     (.shared .shiftExtra, [.lineComment, .blockComment])],
    [(.block, 175), (.parenthesisExpressionList, 39), (.arrayBracketExpression, 40)]⟩,
  -- 57
  ⟨.operator,
    [(.shared (.reduce .declAssignStatement 3 31), [.rbrace, .newline]),
     (.shared (.shift 65), [.plus, .minus]),
     (.shared (.shift 60), [.star, .percent]),
     (.shared (.shift 64), [.pipe]),
     (.shared (.shift 61), [.amp]),
     (.shared (.shift 62), [.caret]),
     (.shared (.shift 63), [.eqEq, .bangEq, .le, .ge]),
     (.exact (.shift 63), [.lt, .gt]),
     (.exact (.shift 60), [.slash]),
     (.shared (.shift 221), [.dot]),
     (.shared (.shift 55), [.lparen]),
     (.shared (.shift 71), [.lbracket]),
     (.shared .shiftExtra, [.lineComment, .blockComment])],
    [(.parenthesisExpressionList, 39), (.arrayBracketExpression, 40)]⟩,
  -- 58
  ⟨.operator,
    [(.shared (.reduce .parenthesisExpressionItems 2 5), [.rparen, .comma]),
     (.shared (.shift 65), [.plus, .minus]),
     (.shared (.shift 60), [.star, .percent]),
     (.shared (.shift 64), [.pipe]),
     (.shared (.shift 61), [.amp]),
     (.shared (.shift 62), [.caret]),
     (.shared (.shift 63), [.eqEq, .bangEq, .le, .ge]),
     (.exact (.shift 63), [.lt, .gt]),
     (.exact (.shift 60), [.slash]),
     (.shared (.shift 221), [.dot]),
     (.shared (.shift 55), [.lparen]),
     (.shared (.shift 71), [.lbracket]),
     (.shared .shiftExtra, [.lineComment, .blockComment])],
    [(.parenthesisExpressionList, 39), (.arrayBracketExpression, 40)]⟩,
  -- 59
  ⟨.operand,
    [(.shared (.shift 12), [.identifier]),
     (.shared (.shift 69), [.plus, .minus, .star, .bang, .pipe, .amp, .caret]),
     (.shared (.shift 70), [.lparen]),
     (.shared (.shift 196), [.colonColon]),
     (.shared (.shift 57), [.number]),
     (.shared .shiftExtra, [.lineComment, .blockComment])],
    [(.expression, 57), (.unaryOp, 57), (.binaryOp, 57), (.arrayOp, 57), (.funcCall, 57),
     (.fieldAccess, 57), (.parenthesisExpression, 57), (.namespaceList, 17),
     (.templateGlobal, 57)]⟩,
  -- 60
  ⟨.operand,
    [(.shared (.shift 12), [.identifier]),
     (.shared (.shift 69), [.plus, .minus, .star, .bang, .pipe, .amp, .caret]),
     (.shared (.shift 70), [.lparen]),
     (.shared (.shift 196), [.colonColon]),
     (.shared (.shift 21), [.number]),
     (.shared .shiftExtra, [.lineComment, .blockComment])],
    [(.expression, 21), (.unaryOp, 21), (.binaryOp, 21), (.arrayOp, 21), (.funcCall, 21),
     (.fieldAccess, 21), (.parenthesisExpression, 21), (.namespaceList, 17),
     (.templateGlobal, 21)]⟩,
  -- 61
  ⟨.operand,
    [(.shared (.shift 12), [.identifier]),
     (.shared (.shift 69), [.plus, .minus, .star, .bang, .pipe, .amp, .caret]),
     (.shared (.shift 70), [.lparen]),
     (.shared (.shift 196), [.colonColon]),
     (.shared (.shift 19), [.number]),
     (.shared .shiftExtra, [.lineComment, .blockComment])],
    [(.expression, 19), (.unaryOp, 19), (.binaryOp, 19), (.arrayOp, 19), (.funcCall, 19),
     (.fieldAccess, 19), (.parenthesisExpression, 19), (.namespaceList, 17),
     (.templateGlobal, 19)]⟩,
  -- 62
  ⟨.operand,
    [(.shared (.shift 12), [.identifier]),
     (.shared (.shift 69), [.plus, .minus, .star, .bang, .pipe, .amp, .caret]),
     (.shared (.shift 70), [.lparen]),
     (.shared (.shift 196), [.colonColon]),
     (.shared (.shift 24), [.number]),
     (.shared .shiftExtra, [.lineComment, .blockComment])],
    [(.expression, 24), (.unaryOp, 24), (.binaryOp, 24), (.arrayOp, 24), (.funcCall, 24),
     (.fieldAccess, 24), (.parenthesisExpression, 24), (.namespaceList, 17),
     (.templateGlobal, 24)]⟩,
  -- 63
  ⟨.operand,
    [(.shared (.shift 12), [.identifier]),
     (.shared (.shift 69), [.plus, .minus, .star, .bang, .pipe, .amp, .caret]),
     (.shared (.shift 70), [.lparen]),
     (.shared (.shift 196), [.colonColon]),
     (.shared (.shift 23), [.number]),
     (.shared .shiftExtra, [.lineComment, .blockComment])],
    [(.expression, 23), (.unaryOp, 23), (.binaryOp, 23), (.arrayOp, 23), (.funcCall, 23),
     (.fieldAccess, 23), (.parenthesisExpression, 23), (.namespaceList, 17),
     (.templateGlobal, 23)]⟩,
  -- 64
  ⟨.operand,
    [(.shared (.shift 12), [.identifier]),
     (.shared (.shift 69), [.plus, .minus, .star, .bang, .pipe, .amp, .caret]),
     (.shared (.shift 70), [.lparen]),
     (.shared (.shift 196), [.colonColon]),
     (.shared (.shift 20), [.number]),
     (.shared .shiftExtra, [.lineComment, .blockComment])],
    [(.expression, 20), (.unaryOp, 20), (.binaryOp, 20), (.arrayOp, 20), (.funcCall, 20),
     (.fieldAccess, 20), (.parenthesisExpression, 20), (.namespaceList, 17),
     (.templateGlobal, 20)]⟩,
  -- 65
  ⟨.operand,
    [(.shared (.shift 12), [.identifier]),
     (.shared (.shift 69), [.plus, .minus, .star, .bang, .pipe, .amp, .caret]),
     (.shared (.shift 70), [.lparen]),
     (.shared (.shift 196), [.colonColon]),
     (.shared (.shift 22), [.number]),
     (.shared .shiftExtra, [.lineComment, .blockComment])],
    [(.expression, 22), (.unaryOp, 22), (.binaryOp, 22), (.arrayOp, 22), (.funcCall, 22),
     (.fieldAccess, 22), (.parenthesisExpression, 22), (.namespaceList, 17),
     (.templateGlobal, 22)]⟩,
  -- 66
  ⟨.operand,
    [(.shared (.shift 12), [.identifier]),
     (.shared (.shift 69), [.plus, .minus, .star, .bang, .pipe, .amp, .caret]),
     (.shared (.shift 70), [.lparen]),
     (.shared (.shift 196), [.colonColon]),
     (.shared (.shift 56), [.number]),
     (.shared .shiftExtra, [.lineComment, .blockComment])],
    [(.expression, 56), (.unaryOp, 56), (.binaryOp, 56), (.arrayOp, 56), (.funcCall, 56),
     (.fieldAccess, 56), (.parenthesisExpression, 56), (.namespaceList, 17),
     (.templateGlobal, 56)]⟩,
  -- 67
  ⟨.operand,
    [(.shared (.shift 12), [.identifier]),
     (.shared (.shift 69), [.plus, .minus, .star, .bang, .pipe, .amp, .caret]),
     (.shared (.shift 70), [.lparen]),
     (.shared (.shift 196), [.colonColon]),
     (.shared (.shift 47), [.number]),
     (.shared .shiftExtra, [.lineComment, .blockComment])],
    [(.expression, 47), (.unaryOp, 47), (.binaryOp, 47), (.arrayOp, 47), (.funcCall, 47),
     (.fieldAccess, 47), (.parenthesisExpression, 47), (.namespaceList, 17),
     (.templateGlobal, 47)]⟩,
  -- 68
  ⟨.operand,
    [(.shared (.shift 12), [.identifier]),
     (.shared (.shift 69), [.plus, .minus, .star, .bang, .pipe, .amp, .caret]),
     (.shared (.shift 70), [.lparen]),
     (.shared (.shift 196), [.colonColon]),
     (.shared (.shift 74), [.number]),
     (.shared .shiftExtra, [.lineComment, .blockComment])],
    [(.expression, 74), (.unaryOp, 74), (.binaryOp, 74), (.arrayOp, 74), (.funcCall, 74),
     (.fieldAccess, 74), (.parenthesisExpression, 74), (.namespaceList, 17),
     (.templateGlobal, 74)]⟩]

end SusSyntax.Grammar
