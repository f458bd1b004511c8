import SusSyntax.Grammar.Action

/-!
The parse table: the rows of the states 138 to 160.
-/

namespace SusSyntax.Grammar

/-- The rows of the states 138 to 160. -/
def rows138 : List Row := [
  -- 138
  ⟨.anything,
    [(.shared (.reduce .block 4 11), [.eof, .rbrace, .elseKw, .newline]),
     (.shared .shiftExtra, [.lineComment, .blockComment])],
    []⟩,
  -- 139
  ⟨.anything,
    [(.shared (.reduce .blockItems 2 10), [.rbrace]),
     (.sharedPair (.reduce .blockItems 2 10) (.shiftRepeat 10), [.newline]),
     (.shared .shiftExtra, [.lineComment, .blockComment])],
    [(.linebreak, 10), (.blockItems, 139)]⟩,
  -- 140
  ⟨.anything,
    [(.shared (.reduce .block 4 11), [.eof, .rbrace, .elseKw, .newline]),
     (.shared .shiftExtra, [.lineComment, .blockComment])],
    []⟩,
  -- 141
  ⟨.anything,
    [(.shared (.reduce .interfaceStatement 2 20), [.rbrace, .newline]),
     (.shared (.shift 83), [.colon]),
     (.shared .shiftExtra, [.lineComment, .blockComment])],
    [(.interfacePorts, 197)]⟩,
  -- 142
  ⟨.anything,
    [(.shared (.reduce .assignLeftSideItems 2 5), [.rbrace, .assign, .comma, .newline]),
     (.shared .shiftExtra, [.lineComment, .blockComment])],
    []⟩,
  -- 143
  ⟨.anything,
    [(.shared (.reduce .sourceFile 1 1), [.eof]),
     (.shared (.shift 92), [.newline]),
     (.shared .shiftExtra, [.lineComment, .blockComment])],
    [(.linebreak, 92), (.sourceFileItems, 146)]⟩,
  -- 144
  ⟨.anything,
    [(.shared (.shift 145), [.rbrace]),
     (.shared (.shift 4), [.newline]),
     (.shared .shiftExtra, [.lineComment, .blockComment])],
    [(.linebreak, 4), (.blockItems, 147)]⟩,
  -- 145
  ⟨.anything,
    [(.shared (.reduce .block 3 5), [.eof, .rbrace, .elseKw, .newline]),
     (.shared .shiftExtra, [.lineComment, .blockComment])],
    []⟩,
  -- 146
  ⟨.anything,
    [(.shared (.reduce .sourceFile 2 4), [.eof]),
     (.shared (.shift 95), [.newline]),
     (.shared .shiftExtra, [.lineComment, .blockComment])],
    [(.linebreak, 95), (.sourceFileItems, 153)]⟩,
  -- 147
  ⟨.anything,
    [(.shared (.shift 138), [.rbrace]),
     (.shared (.shift 5), [.newline]),
     (.shared .shiftExtra, [.lineComment, .blockComment])],
    [(.linebreak, 5), (.blockItems, 139)]⟩,
  -- 148
  ⟨.anything,
    [(.shared (.shift 140), [.rbrace]),
     (.shared (.shift 9), [.newline]),
     (.shared .shiftExtra, [.lineComment, .blockComment])],
    [(.linebreak, 9), (.blockItems, 139)]⟩,
  -- 149
  ⟨.anything,
    [(.shared (.reduce .sourceFile 2 5), [.eof]),
     (.shared (.shift 96), [.newline]),
     (.shared .shiftExtra, [.lineComment, .blockComment])],
    [(.linebreak, 96), (.sourceFileItems, 156)]⟩,
  -- 150
  ⟨.anything,
    [(.shared (.reduce .assignTo 1 14), [.rbrace, .assign, .comma, .newline]),
     (.shared .shiftExtra, [.lineComment, .blockComment])],
    []⟩,
  -- 151
  ⟨.anything,
    [(.shared (.reduce .assignTo 2 22), [.rbrace, .assign, .comma, .newline]),
     (.shared .shiftExtra, [.lineComment, .blockComment])],
    []⟩,
  -- 152
  ⟨.anything,
    [(.shared (.reduce .block 4 28), [.eof, .rbrace, .elseKw, .newline]),
     (.shared .shiftExtra, [.lineComment, .blockComment])],
    []⟩,
  -- 153
  ⟨.anything,
    [(.shared (.reduce .sourceFileItems 2 10), [.eof]),
     (.sharedPair (.reduce .sourceFileItems 2 10) (.shiftRepeat 97), [.newline]),
     (.shared .shiftExtra, [.lineComment, .blockComment])],
    [(.linebreak, 97), (.sourceFileItems, 153)]⟩,
  -- 154
  ⟨.anything,
    [(.shared (.shift 167), [.rbrace]),
     (.shared (.shift 6), [.newline]),
     (.shared .shiftExtra, [.lineComment, .blockComment])],
    [(.linebreak, 6), (.blockItems, 139)]⟩,
  -- 155
  ⟨.anything,
    [(.shared (.shift 168), [.rbrace]),
     (.shared (.shift 8), [.newline]),
     (.shared .shiftExtra, [.lineComment, .blockComment])],
    [(.linebreak, 8), (.blockItems, 139)]⟩,
  -- 156
  ⟨.anything,
    [(.shared (.reduce .sourceFile 3 11), [.eof]),
     (.shared (.shift 93), [.newline]),
     (.shared .shiftExtra, [.lineComment, .blockComment])],
    [(.linebreak, 93), (.sourceFileItems, 153)]⟩,
  -- 157
  ⟨.anything,
    [(.shared (.shift 84), [.hashParen]),
     (.shared (.shift 2), [.lbrace]),
     (.shared .shiftExtra, [.lineComment, .blockComment])],
    [(.templateDeclarationArguments, 195), (.block, 205)]⟩,
  -- 158
  ⟨.anything,
    [(.shared (.shift 84), [.hashParen]),
     (.shared (.shift 2), [.lbrace]),
     (.shared .shiftExtra, [.lineComment, .blockComment])],
    [(.templateDeclarationArguments, 199), (.block, 206)]⟩,
  -- 159
  ⟨.anything,
    [(.shared (.reduce .block 3 0), [.eof, .rbrace, .elseKw, .newline]),
     (.shared .shiftExtra, [.lineComment, .blockComment])],
    []⟩,
  -- 160
  ⟨.anything,
    [(.shared (.shift 152), [.rbrace]),
     (.shared (.shift 7), [.newline]),
     (.shared .shiftExtra, [.lineComment, .blockComment])],
    [(.linebreak, 7), (.blockItems, 154)]⟩]

end SusSyntax.Grammar
