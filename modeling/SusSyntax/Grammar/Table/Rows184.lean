import SusSyntax.Grammar.Action

/-!
The parse table: the rows of the states 184 to 206.
-/

namespace SusSyntax.Grammar

/-- The rows of the states 184 to 206. -/
def rows184 : List Row := [
  -- 184
  ⟨.anything,
    [(.shared (.reduce .templateDeclarationItems 2 5), [.rparen, .comma, .newline]),
     (.shared .shiftExtra, [.lineComment, .blockComment])],
    []⟩,
  -- 185
  ⟨.anything,
    [(.shared (.shift 217), [.rparen]),
     (.shared (.shift 98), [.newline]),
     (.shared .shiftExtra, [.lineComment, .blockComment])],
    [(.linebreak, 98)]⟩,
  -- 186
  ⟨.anything,
    [(.shared (.shift 37), [.rparen]),
     (.shared (.shift 98), [.newline]),
     (.shared .shiftExtra, [.lineComment, .blockComment])],
    [(.linebreak, 98)]⟩,
  -- 187
  ⟨.anything,
    [(.shared (.shift 212), [.rparen]),
     (.shared (.shift 98), [.newline]),
     (.shared .shiftExtra, [.lineComment, .blockComment])],
    [(.linebreak, 98)]⟩,
  -- 188
  ⟨.anything,
    [(.shared (.reduce .constAndType 2 2), [.identifier]),
     (.shared (.shift 71), [.lbracket]),
     (.shared .shiftExtra, [.lineComment, .blockComment])],
    [(.arrayBracketExpression, 134)]⟩,
  -- 189
  ⟨.anything,
    [(.shared (.shift 32), [.rparen]),
     (.shared (.shift 98), [.newline]),
     (.shared .shiftExtra, [.lineComment, .blockComment])],
    [(.linebreak, 98)]⟩,
  -- 190
  ⟨.anything,
    [(.shared (.shift 220), [.rparen]),
     (.shared (.shift 98), [.newline]),
     (.shared .shiftExtra, [.lineComment, .blockComment])],
    [(.linebreak, 98)]⟩,
  -- 191
  ⟨.anything,
    [(.shared (.reduce .blockItems 2 5), [.rbrace, .newline]),
     (.shared (.shift 59), [.assign]),
     (.shared .shiftExtra, [.lineComment, .blockComment])],
    []⟩,
  -- 192
  ⟨.anything,
    [(.shared (.reduce .globalObject 4 16), [.eof, .newline]),
     (.shared .shiftExtra, [.lineComment, .blockComment])],
    []⟩,
  -- 193
  ⟨.anything,
    [(.shared (.shift 161), [.identifier]),
     (.shared .shiftExtra, [.lineComment, .blockComment])],
    [(.templateArg, 179)]⟩,
  -- 194
  ⟨.anything,
    [(.shared (.reduce .globalObject 5 18), [.eof, .newline]),
     (.shared .shiftExtra, [.lineComment, .blockComment])],
    []⟩,
  -- 195
  ⟨.anything,
    [(.shared (.shift 2), [.lbrace]),
     (.shared .shiftExtra, [.lineComment, .blockComment])],
    [(.block, 194)]⟩,
  -- 196
  ⟨.anything,
    [(.shared (.shift 12), [.identifier]),
     (.shared .shiftExtra, [.lineComment, .blockComment])],
    [(.namespaceList, 15)]⟩,
  -- 197
  ⟨.anything,
    [(.shared (.reduce .interfaceStatement 3 30), [.rbrace, .newline]),
     (.shared .shiftExtra, [.lineComment, .blockComment])],
    []⟩,
  -- 198
  ⟨.anything,
    [(.shared (.reduce .domainStatement 2 20), [.rbrace, .newline]),
     (.shared .shiftExtra, [.lineComment, .blockComment])],
    []⟩,
  -- 199
  ⟨.anything,
    [(.shared (.shift 2), [.lbrace]),
     (.shared .shiftExtra, [.lineComment, .blockComment])],
    [(.block, 192)]⟩,
  -- 200
  ⟨.anything,
    [(.shared (.reduce .ifStatement 5 43), [.rbrace, .newline]),
     (.shared .shiftExtra, [.lineComment, .blockComment])],
    []⟩,
  -- 201
  ⟨.anything,
    [(.shared (.reduce .interfacePortsOutput 2 44), [.rbrace, .newline]),
     (.shared .shiftExtra, [.lineComment, .blockComment])],
    []⟩,
  -- 202
  ⟨.anything,
    [(.shared (.reduce .interfacePorts 3 45), [.rbrace, .newline]),
     (.shared .shiftExtra, [.lineComment, .blockComment])],
    []⟩,
  -- 203
  ⟨.anything,
    [(.shared (.reduce .interfacePorts 2 39), [.rbrace, .newline]),
     (.shared .shiftExtra, [.lineComment, .blockComment])],
    []⟩,
  -- 204
  ⟨.anything,
    [(.shared (.reduce .interfacePorts 3 46), [.rbrace, .newline]),
     (.shared .shiftExtra, [.lineComment, .blockComment])],
    []⟩,
  -- 205
  ⟨.anything,
    [(.shared (.reduce .globalObject 4 12), [.eof, .newline]),
     (.shared .shiftExtra, [.lineComment, .blockComment])],
    []⟩,
  -- 206
  ⟨.anything,
    [(.shared (.reduce .globalObject 3 6), [.eof, .newline]),
     (.shared .shiftExtra, [.lineComment, .blockComment])],
    []⟩]

end SusSyntax.Grammar
