import SusSyntax.Grammar.Action

/-!
The parse table: the rows of the states 207 to 229.
-/

namespace SusSyntax.Grammar

/-- The rows of the states 207 to 229. -/
def rows207 : List Row := [
  -- 207
  ⟨.anything,
    [(.shared (.reduce .sourceFileItems 2 5), [.eof, .newline]),
     (.shared .shiftExtra, [.lineComment, .blockComment])],
    []⟩,
  -- 208
  ⟨.anything,
    [(.shared (.reduce .interfacePortsOutput 3 48), [.rbrace, .newline]),
     (.shared .shiftExtra, [.lineComment, .blockComment])],
    []⟩,
  -- 209
  ⟨.anything,
    [(.shared (.reduce .blockItems 2 5), [.rbrace, .newline]),
     (.shared .shiftExtra, [.lineComment, .blockComment])],
    []⟩,
  -- 210
  ⟨.anything,
    [(.shared (.reduce .interfacePorts 4 49), [.rbrace, .newline]),
     (.shared .shiftExtra, [.lineComment, .blockComment])],
    []⟩,
  -- 211
  ⟨.anything,
    [(.shared (.reduce .forStatement 7 50), [.rbrace, .newline]),
     (.shared .shiftExtra, [.lineComment, .blockComment])],
    []⟩,
  -- 212
  ⟨.anything,
    [(.shared (.reduce .templateDeclarationArguments 4 5), [.lbrace]),
     (.shared .shiftExtra, [.lineComment, .blockComment])],
    []⟩,
  -- 213
  ⟨.anything,
    [(.shared (.shift 68), [.inKw]),
     (.shared .shiftExtra, [.lineComment, .blockComment])],
    []⟩,
  -- 214
  ⟨.anything,
    [(.shared (.reduce .templateDeclarationArguments 3 0), [.lbrace]),
     (.shared .shiftExtra, [.lineComment, .blockComment])],
    []⟩,
  -- 215
  ⟨.anything,
    [(.shared (.shift 141), [.identifier]),
     (.shared .shiftExtra, [.lineComment, .blockComment])],
    []⟩,
  -- 216
  ⟨.anything,
    [(.shared (.reduce .templateDeclarationArguments 5 38), [.lbrace]),
     (.shared .shiftExtra, [.lineComment, .blockComment])],
    []⟩,
  -- 217
  ⟨.anything,
    [(.shared (.reduce .templateDeclarationArguments 5 11), [.lbrace]),
     (.shared .shiftExtra, [.lineComment, .blockComment])],
    []⟩,
  -- 218
  ⟨.anything,
    [(.shared (.reduce .templateDeclarationArguments 6 38), [.lbrace]),
     (.shared .shiftExtra, [.lineComment, .blockComment])],
    []⟩,
  -- 219
  ⟨.anything,
    [(.shared (.reduce .templateDeclarationArguments 2 0), [.lbrace]),
     (.shared .shiftExtra, [.lineComment, .blockComment])],
    []⟩,
  -- 220
  ⟨.anything,
    [(.shared (.reduce .templateDeclarationArguments 5 28), [.lbrace]),
     (.shared .shiftExtra, [.lineComment, .blockComment])],
    []⟩,
  -- 221
  ⟨.anything,
    [(.shared (.shift 42), [.identifier]),
     (.shared .shiftExtra, [.lineComment, .blockComment])],
    []⟩,
  -- 222
  ⟨.anything,
    [(.shared (.reduce .templateDeclarationArguments 4 28), [.lbrace]),
     (.shared .shiftExtra, [.lineComment, .blockComment])],
    []⟩,
  -- 223
  ⟨.anything,
    [(.shared (.shift 158), [.identifier]),
     (.shared .shiftExtra, [.lineComment, .blockComment])],
    []⟩,
  -- 224
  ⟨.anything,
    [(.shared (.shift 157), [.identifier]),
     (.shared .shiftExtra, [.lineComment, .blockComment])],
    []⟩,
  -- 225
  ⟨.anything,
    [(.shared .accept, [.eof]),
     (.shared .shiftExtra, [.lineComment, .blockComment])],
    []⟩,
  -- 226
  ⟨.anything,
    [(.shared (.shift 198), [.identifier]),
     (.shared .shiftExtra, [.lineComment, .blockComment])],
    []⟩,
  -- 227
  ⟨.anything,
    [(.shared (.reduce .templateDeclarationArguments 4 11), [.lbrace]),
     (.shared .shiftExtra, [.lineComment, .blockComment])],
    []⟩,
  -- 228
  ⟨.anything,
    [(.shared (.reduce .templateDeclarationArguments 3 5), [.lbrace]),
     (.shared .shiftExtra, [.lineComment, .blockComment])],
    []⟩,
  -- 229
  ⟨.anything,
    [(.shared (.shift 16), [.identifier]),
     (.shared .shiftExtra, [.lineComment, .blockComment])],
    []⟩]

end SusSyntax.Grammar
