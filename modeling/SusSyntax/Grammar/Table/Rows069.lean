import SusSyntax.Grammar.Action

/-!
The parse table: the rows of the states 69 to 91.
-/

namespace SusSyntax.Grammar

/-- The rows of the states 69 to 91. -/
def rows069 : List Row := [
  -- 69
  ⟨.operand,
    [(.shared (.shift 12), [.identifier]),
     (.shared (.shift 69), [.plus, .minus, .star, .bang, .pipe, .amp, .caret]),
     (.shared (.shift 70), [.lparen]),
     (.shared (.shift 196), [.colonColon]),
     (.shared (.shift 18), [.number]),
     (.shared .shiftExtra, [.lineComment, .blockComment])],
    [(.expression, 18), (.unaryOp, 18), (.binaryOp, 18), (.arrayOp, 18), (.funcCall, 18),
     (.fieldAccess, 18), (.parenthesisExpression, 18), (.namespaceList, 17),
     (.templateGlobal, 18)]⟩,
  -- 70
  ⟨.operand,
    [(.shared (.shift 12), [.identifier]),
     (.shared (.shift 69), [.plus, .minus, .star, .bang, .pipe, .amp, .caret]),
     (.shared (.shift 70), [.lparen]),
     (.shared (.shift 196), [.colonColon]),
     (.shared (.shift 76), [.number]),
     (.shared .shiftExtra, [.lineComment, .blockComment])],
    [(.expression, 76), (.unaryOp, 76), (.binaryOp, 76), (.arrayOp, 76), (.funcCall, 76),
     (.fieldAccess, 76), (.parenthesisExpression, 76), (.namespaceList, 17),
     (.templateGlobal, 76)]⟩,
  -- 71
  ⟨.operand,
    [(.shared (.shift 12), [.identifier]),
     (.shared (.shift 69), [.plus, .minus, .star, .bang, .pipe, .amp, .caret]),
     (.shared (.shift 70), [.lparen]),
     (.shared (.shift 196), [.colonColon]),
     (.shared (.shift 73), [.number]),
     (.shared .shiftExtra, [.lineComment, .blockComment])],
    [(.expression, 73), (.unaryOp, 73), (.binaryOp, 73), (.arrayOp, 73), (.funcCall, 73),
     (.fieldAccess, 73), (.parenthesisExpression, 73), (.namespaceList, 17),
     (.templateGlobal, 73)]⟩,
  -- 72
  ⟨.operand,
    [(.shared (.shift 12), [.identifier]),
     (.shared (.shift 69), [.plus, .minus, .star, .bang, .pipe, .amp, .caret]),
     (.shared (.shift 70), [.lparen]),
     (.shared (.shift 196), [.colonColon]),
     (.shared (.shift 53), [.number]),
     (.shared .shiftExtra, [.lineComment, .blockComment])],
    [(.expression, 53), (.unaryOp, 53), (.binaryOp, 53), (.arrayOp, 53), (.funcCall, 53),
     (.fieldAccess, 53), (.parenthesisExpression, 53), (.namespaceList, 17),
     (.templateGlobal, 53)]⟩,
  -- 73
  ⟨.operator,
    [(.shared (.shift 65), [.plus, .minus]),
     (.shared (.shift 60), [.star, .percent]),
     (.shared (.shift 64), [.pipe]),
     (.shared (.shift 61), [.amp]),
     (.shared (.shift 62), [.caret]),
     (.shared (.shift 63), [.eqEq, .bangEq, .le, .ge]),
     (.exact (.shift 63), [.lt, .gt]),
     (.exact (.shift 60), [.slash]),
     (.shared (.shift 221), [.dot]),
     (.shared (.shift 55), [.lparen]),
     (.shared (.shift 71), [.lbracket]),
     (.shared (.shift 33), [.rbracket]),
     (.shared .shiftExtra, [.lineComment, .blockComment])],
    [(.parenthesisExpressionList, 39), (.arrayBracketExpression, 40)]⟩,
  -- 74
  ⟨.operator,
    [(.shared (.shift 72), [.dotDot]),
     (.shared (.shift 65), [.plus, .minus]),
     (.shared (.shift 60), [.star, .percent]),
     (.shared (.shift 64), [.pipe]),
     (.shared (.shift 61), [.amp]),
     (.shared (.shift 62), [.caret]),
     (.shared (.shift 63), [.eqEq, .bangEq, .le, .ge]),
     (.exact (.shift 63), [.lt, .gt]),
     (.exact (.shift 60), [.slash]),
     (.exact (.shift 221), [.dot]),
     (.shared (.shift 55), [.lparen]),
     (.shared (.shift 71), [.lbracket]),
     (.shared .shiftExtra, [.lineComment, .blockComment])],
    [(.parenthesisExpressionList, 39), (.arrayBracketExpression, 40)]⟩,
  -- 75
  ⟨.operand,
    [(.shared (.shift 12), [.identifier]),
     (.shared (.shift 69), [.plus, .minus, .star, .bang, .pipe, .amp, .caret]),
     (.shared (.shift 70), [.lparen]),
     (.shared (.shift 196), [.colonColon]),
     (.shared (.shift 58), [.number]),
     (.shared .shiftExtra, [.lineComment, .blockComment])],
    [(.expression, 58), (.unaryOp, 58), (.binaryOp, 58), (.arrayOp, 58), (.funcCall, 58),
     (.fieldAccess, 58), (.parenthesisExpression, 58), (.namespaceList, 17),
     (.templateGlobal, 58)]⟩,
  -- 76
  ⟨.operator,
    [(.shared (.shift 45), [.rparen]),
     (.shared (.shift 65), [.plus, .minus]),
     (.shared (.shift 60), [.star, .percent]),
     (.shared (.shift 64), [.pipe]),
     (.shared (.shift 61), [.amp]),
     (.shared (.shift 62), [.caret]),
     (.shared (.shift 63), [.eqEq, .bangEq, .le, .ge]),
     (.exact (.shift 63), [.lt, .gt]),
     (.exact (.shift 60), [.slash]),
     (.shared (.shift 221), [.dot]),
     (.shared (.shift 55), [.lparen]),
     (.shared (.shift 71), [.lbracket]),
     (.shared .shiftExtra, [.lineComment, .blockComment])],
    [(.parenthesisExpressionList, 39), (.arrayBracketExpression, 40)]⟩,
  -- 77
  ⟨.operand,
    [(.exact (.reduce .commaBreak 2 0), [.identifier, .regKw, .initialKw, .inputKw, .outputKw,
       .stateKw, .genKw]),
     (.shared (.reduce .commaBreak 2 0), [.plus, .minus, .star, .bang, .pipe, .amp, .caret,
       .lparen, .colonColon, .number]),
     (.shared (.shift 25), [.newline]),
     (.shared .shiftExtra, [.lineComment, .blockComment])],
    [(.linebreak, 25)]⟩,
  -- 78
  ⟨.operand,
    [(.exact (.reduce .commaBreak 1 0), [.identifier, .regKw, .initialKw, .inputKw, .outputKw,
       .stateKw, .genKw]),
     (.shared (.reduce .commaBreak 1 0), [.plus, .minus, .star, .bang, .pipe, .amp, .caret,
       .lparen, .colonColon, .number]),
     (.shared (.shift 77), [.newline]),
     (.shared .shiftExtra, [.lineComment, .blockComment])],
    [(.linebreak, 77)]⟩,
  -- 79
  ⟨.operand,
    [(.exact (.reduce .writeModifiersItems 2 10), [.identifier, .inputKw, .outputKw, .stateKw,
       .genKw]),
     (.exactPair (.reduce .writeModifiersItems 2 10) (.shiftRepeat 81), [.regKw]),
     (.shared (.reduce .writeModifiersItems 2 10), [.plus, .minus, .star, .bang, .pipe, .amp,
       .caret, .lparen, .colonColon, .number]),
     (.shared .shiftExtra, [.lineComment, .blockComment])],
    [(.writeModifiersItems, 79)]⟩,
  -- 80
  ⟨.operand,
    [(.exact (.reduce .writeModifiers 1 15), [.identifier, .inputKw, .outputKw, .stateKw,
       .genKw]),
     (.exact (.shift 81), [.regKw]),
     (.shared (.reduce .writeModifiers 1 15), [.plus, .minus, .star, .bang, .pipe, .amp, .caret,
       .lparen, .colonColon, .number]),
     (.shared .shiftExtra, [.lineComment, .blockComment])],
    [(.writeModifiersItems, 79)]⟩,
  -- 81
  ⟨.operand,
    [(.exact (.reduce .writeModifiersItems 1 1), [.identifier, .regKw, .inputKw, .outputKw,
       .stateKw, .genKw]),
     (.shared (.reduce .writeModifiersItems 1 1), [.plus, .minus, .star, .bang, .pipe, .amp,
       .caret, .lparen, .colonColon, .number]),
     (.shared .shiftExtra, [.lineComment, .blockComment])],
    []⟩,
  -- 82
  ⟨.operand,
    [(.exact (.shift 12), [.identifier]),
     (.shared (.shift 87), [.arrow]),
     (.exact (.shift 104), [.inputKw, .outputKw]),
     (.exact (.shift 123), [.stateKw, .genKw]),
     (.shared (.shift 196), [.colonColon]),
     (.shared (.shift 25), [.newline]),
     (.shared .shiftExtra, [.lineComment, .blockComment])],
    [(.interfacePortsOutput, 204), (.declarationList, 170), (.declaration, 113), (.type, 177),
     (.arrayType, 177), (.namespaceList, 17), (.templateGlobal, 177), (.linebreak, 25)]⟩,
  -- 83
  ⟨.operand,
    [(.exact (.shift 12), [.identifier]),
     (.shared (.shift 87), [.arrow]),
     (.exact (.shift 104), [.inputKw, .outputKw]),
     (.exact (.shift 123), [.stateKw, .genKw]),
     (.shared (.shift 196), [.colonColon]),
     (.shared (.shift 82), [.newline]),
     (.shared .shiftExtra, [.lineComment, .blockComment])],
    [(.interfacePortsOutput, 203), (.declarationList, 162), (.declaration, 113), (.type, 177),
     (.arrayType, 177), (.namespaceList, 17), (.templateGlobal, 177), (.linebreak, 82)]⟩,
  -- 84
  ⟨.operand,
    [(.exact (.shift 103), [.identifier]),
     (.shared (.shift 219), [.rparen]),
     (.exact (.shift 104), [.inputKw, .outputKw]),
     (.exact (.shift 123), [.stateKw, .genKw]),
     (.shared (.shift 196), [.colonColon]),
     (.shared (.shift 86), [.newline]),
     (.shared .shiftExtra, [.lineComment, .blockComment])],
    [(.templateDeclarationType, 125), (.declaration, 125), (.type, 177), (.arrayType, 177),
     (.namespaceList, 17), (.templateGlobal, 177), (.linebreak, 86)]⟩,
  -- 85
  ⟨.operand,
    [(.exact (.reduce .writeModifiers 1 1), [.identifier, .inputKw, .outputKw, .stateKw, .genKw]),
     (.shared (.reduce .writeModifiers 1 1), [.plus, .minus, .star, .bang, .pipe, .amp, .caret,
       .lparen, .colonColon, .number]),
     (.shared .shiftExtra, [.lineComment, .blockComment])],
    []⟩,
  -- 86
  ⟨.operand,
    [(.exact (.shift 103), [.identifier]),
     (.shared (.shift 214), [.rparen]),
     (.exact (.shift 104), [.inputKw, .outputKw]),
     (.exact (.shift 123), [.stateKw, .genKw]),
     (.shared (.shift 196), [.colonColon]),
     (.shared (.shift 25), [.newline]),
     (.shared .shiftExtra, [.lineComment, .blockComment])],
    [(.templateDeclarationType, 118), (.declaration, 118), (.type, 177), (.arrayType, 177),
     (.namespaceList, 17), (.templateGlobal, 177), (.linebreak, 25)]⟩,
  -- 87
  ⟨.operand,
    [(.exact (.shift 12), [.identifier]),
     (.exact (.shift 104), [.inputKw, .outputKw]),
     (.exact (.shift 123), [.stateKw, .genKw]),
     (.shared (.shift 196), [.colonColon]),
     (.shared (.shift 88), [.newline]),
     (.shared .shiftExtra, [.lineComment, .blockComment])],
    [(.declarationList, 201), (.declaration, 113), (.type, 177), (.arrayType, 177),
     (.namespaceList, 17), (.templateGlobal, 177), (.linebreak, 88)]⟩,
  -- 88
  ⟨.operand,
    [(.exact (.shift 12), [.identifier]),
     (.exact (.shift 104), [.inputKw, .outputKw]),
     (.exact (.shift 123), [.stateKw, .genKw]),
     (.shared (.shift 196), [.colonColon]),
     (.shared (.shift 25), [.newline]),
     (.shared .shiftExtra, [.lineComment, .blockComment])],
    [(.declarationList, 208), (.declaration, 113), (.type, 177), (.arrayType, 177),
     (.namespaceList, 17), (.templateGlobal, 177), (.linebreak, 25)]⟩,
  -- 89
  ⟨.operand,
    [(.exact (.shift 103), [.identifier]),
     (.exact (.shift 104), [.inputKw, .outputKw]),
     (.exact (.shift 123), [.stateKw, .genKw]),
     (.shared (.shift 196), [.colonColon]),
     (.shared .shiftExtra, [.lineComment, .blockComment])],
    [(.templateDeclarationType, 184), (.declaration, 184), (.type, 177), (.arrayType, 177),
     (.namespaceList, 17), (.templateGlobal, 177)]⟩,
  -- 90
  ⟨.operand,
    [(.exact (.shift 12), [.identifier]),
     (.exact (.shift 104), [.inputKw, .outputKw]),
     (.exact (.shift 123), [.stateKw, .genKw]),
     (.shared (.shift 196), [.colonColon]),
     (.shared .shiftExtra, [.lineComment, .blockComment])],
    [(.declaration, 137), (.type, 177), (.arrayType, 177), (.namespaceList, 17),
     (.templateGlobal, 177)]⟩,
  -- 91
  ⟨.operand,
    [(.exact (.shift 12), [.identifier]),
     (.exact (.shift 104), [.inputKw, .outputKw]),
     (.exact (.shift 123), [.stateKw, .genKw]),
     (.shared (.shift 196), [.colonColon]),
     (.shared .shiftExtra, [.lineComment, .blockComment])],
    [(.declaration, 213), (.type, 177), (.arrayType, 177), (.namespaceList, 17),
     (.templateGlobal, 177)]⟩]

end SusSyntax.Grammar
