import SusSyntax.Grammar.Action

/-!
The parse table: the rows of the states 161 to 183.
-/

namespace SusSyntax.Grammar

/-- The rows of the states 161 to 183. -/
def rows161 : List Row := [
  -- 161
  ⟨.anything,
    [(.shared (.reduce .templateArg 1 13), [.rparen, .comma, .newline]),
     (.shared (.shift 54), [.colon]),
     (.shared .shiftExtra, [.lineComment, .blockComment])],
    []⟩,
  -- 162
  ⟨.anything,
    [(.shared (.reduce .interfacePorts 2 40), [.rbrace, .newline]),
     (.shared (.shift 87), [.arrow]),
     (.shared .shiftExtra, [.lineComment, .blockComment])],
    [(.interfacePortsOutput, 202)]⟩,
  -- 163
  ⟨.anything,
    [(.shared (.reduce .block 5 11), [.eof, .rbrace, .elseKw, .newline]),
     (.shared .shiftExtra, [.lineComment, .blockComment])],
    []⟩,
  -- 164
  ⟨.anything,
    [(.shared (.reduce .block 2 0), [.eof, .rbrace, .elseKw, .newline]),
     (.shared .shiftExtra, [.lineComment, .blockComment])],
    []⟩,
  -- 165
  ⟨.anything,
    [(.shared (.reduce .block 5 11), [.eof, .rbrace, .elseKw, .newline]),
     (.shared .shiftExtra, [.lineComment, .blockComment])],
    []⟩,
  -- 166
  ⟨.anything,
    [(.shared (.shift 44), [.rparen]),
     (.shared (.shift 78), [.comma]),
     (.shared .shiftExtra, [.lineComment, .blockComment])],
    [(.commaBreak, 75), (.parenthesisExpressionItems, 171)]⟩,
  -- 167
  ⟨.anything,
    [(.shared (.reduce .block 5 38), [.eof, .rbrace, .elseKw, .newline]),
     (.shared .shiftExtra, [.lineComment, .blockComment])],
    []⟩,
  -- 168
  ⟨.anything,
    [(.shared (.reduce .block 5 38), [.eof, .rbrace, .elseKw, .newline]),
     (.shared .shiftExtra, [.lineComment, .blockComment])],
    []⟩,
  -- 169
  ⟨.anything,
    [(.shared (.shift 224), [.moduleKw, .structKw]),
     (.shared (.shift 124), [.constKw]),
     (.shared .shiftExtra, [.lineComment, .blockComment])],
    [(.constAndType, 224)]⟩,
  -- 170
  ⟨.anything,
    [(.shared (.reduce .interfacePorts 3 47), [.rbrace, .newline]),
     (.shared (.shift 87), [.arrow]),
     (.shared .shiftExtra, [.lineComment, .blockComment])],
    [(.interfacePortsOutput, 210)]⟩,
  -- 171
  ⟨.anything,
    [(.shared (.reduce .parenthesisExpressionItems 2 10), [.rparen]),
     (.sharedPair (.reduce .parenthesisExpressionItems 2 10) (.shiftRepeat 78), [.comma]),
     (.shared .shiftExtra, [.lineComment, .blockComment])],
    [(.commaBreak, 75), (.parenthesisExpressionItems, 171)]⟩,
  -- 172
  ⟨.anything,
    [(.shared (.reduce .block 6 38), [.eof, .rbrace, .elseKw, .newline]),
     (.shared .shiftExtra, [.lineComment, .blockComment])],
    []⟩,
  -- 173
  ⟨.anything,
    [(.shared (.reduce .block 6 38), [.eof, .rbrace, .elseKw, .newline]),
     (.shared .shiftExtra, [.lineComment, .blockComment])],
    []⟩,
  -- 174
  ⟨.anything,
    [(.shared (.reduce .block 4 5), [.eof, .rbrace, .elseKw, .newline]),
     (.shared .shiftExtra, [.lineComment, .blockComment])],
    []⟩,
  -- 175
  ⟨.anything,
    [(.shared (.reduce .ifStatement 3 29), [.rbrace, .newline]),
     (.shared (.shift 135), [.elseKw]),
     (.shared .shiftExtra, [.lineComment, .blockComment])],
    []⟩,
  -- 176
  ⟨.anything,
    [(.shared (.shift 218), [.rparen]),
     (.shared (.shift 98), [.newline]),
     (.shared .shiftExtra, [.lineComment, .blockComment])],
    [(.linebreak, 98)]⟩,
  -- 177
  ⟨.anything,
    [(.shared (.shift 101), [.identifier]),
     (.shared (.shift 71), [.lbracket]),
     (.shared .shiftExtra, [.lineComment, .blockComment])],
    [(.arrayBracketExpression, 134)]⟩,
  -- 178
  ⟨.anything,
    [(.shared (.shift 26), [.rparen]),
     (.shared (.shift 98), [.newline]),
     (.shared .shiftExtra, [.lineComment, .blockComment])],
    [(.linebreak, 98)]⟩,
  -- 179
  ⟨.anything,
    [(.shared (.reduce .templateArgsItems 2 5), [.rparen, .comma, .newline]),
     (.shared .shiftExtra, [.lineComment, .blockComment])],
    []⟩,
  -- 180
  ⟨.anything,
    [(.shared (.shift 102), [.identifier]),
     (.shared (.shift 71), [.lbracket]),
     (.shared .shiftExtra, [.lineComment, .blockComment])],
    [(.arrayBracketExpression, 134)]⟩,
  -- 181
  ⟨.anything,
    [(.shared (.shift 100), [.identifier]),
     (.shared (.shift 71), [.lbracket]),
     (.shared .shiftExtra, [.lineComment, .blockComment])],
    [(.arrayBracketExpression, 134)]⟩,
  -- 182
  ⟨.anything,
    [(.shared (.shift 99), [.identifier]),
     (.shared (.shift 71), [.lbracket]),
     (.shared .shiftExtra, [.lineComment, .blockComment])],
    [(.arrayBracketExpression, 134)]⟩,
  -- 183
  ⟨.anything,
    [(.shared (.shift 38), [.rparen]),
     (.shared (.shift 98), [.newline]),
     (.shared .shiftExtra, [.lineComment, .blockComment])],
    [(.linebreak, 98)]⟩]

end SusSyntax.Grammar
