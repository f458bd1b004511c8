import SusSyntax.Grammar.Action

/-!
The parse table: the rows of the states 115 to 137.
-/

namespace SusSyntax.Grammar

/-- The rows of the states 115 to 137. -/
def rows115 : List Row := [
  -- 115
  ⟨.anything,
    [(.shared (.shift 35), [.rparen]),
     (.shared (.shift 78), [.comma]),
     (.shared (.shift 178), [.newline]),
     (.shared .shiftExtra, [.lineComment, .blockComment])],
    [(.commaBreak, 193), (.linebreak, 178), (.templateArgsItems, 109)]⟩,
  -- 116
  ⟨.anything,
    [(.shared (.shift 36), [.rparen]),
     (.shared (.shift 78), [.comma]),
     (.shared (.shift 183), [.newline]),
     (.shared .shiftExtra, [.lineComment, .blockComment])],
    [(.commaBreak, 193), (.linebreak, 183), (.templateArgsItems, 132)]⟩,
  -- 117
  ⟨.anything,
    [(.shared (.reduce .assignLeftSide 1 1), [.rbrace, .assign, .newline]),
     (.shared (.shift 78), [.comma]),
     (.shared .shiftExtra, [.lineComment, .blockComment])],
    [(.commaBreak, 11), (.assignLeftSideItems, 120)]⟩,
  -- 118
  ⟨.anything,
    [(.shared (.shift 222), [.rparen]),
     (.shared (.shift 78), [.comma]),
     (.shared (.shift 190), [.newline]),
     (.shared .shiftExtra, [.lineComment, .blockComment])],
    [(.commaBreak, 89), (.linebreak, 190), (.templateDeclarationItems, 119)]⟩,
  -- 119
  ⟨.anything,
    [(.shared (.shift 216), [.rparen]),
     (.shared (.shift 78), [.comma]),
     (.shared (.shift 176), [.newline]),
     (.shared .shiftExtra, [.lineComment, .blockComment])],
    [(.commaBreak, 89), (.linebreak, 176), (.templateDeclarationItems, 130)]⟩,
  -- 120
  ⟨.anything,
    [(.shared (.reduce .assignLeftSide 2 4), [.rbrace, .assign, .newline]),
     (.shared (.shift 78), [.comma]),
     (.shared .shiftExtra, [.lineComment, .blockComment])],
    [(.commaBreak, 11), (.assignLeftSideItems, 112)]⟩,
  -- 121
  ⟨.anything,
    [(.shared (.reduce .declarationList 2 4), [.rbrace, .arrow, .newline]),
     (.shared (.shift 78), [.comma]),
     (.shared .shiftExtra, [.lineComment, .blockComment])],
    [(.commaBreak, 90), (.declarationListItems, 126)]⟩,
  -- 122
  ⟨.anything,
    [(.shared (.shift 31), [.rparen]),
     (.shared (.shift 78), [.comma]),
     (.shared (.shift 189), [.newline]),
     (.shared .shiftExtra, [.lineComment, .blockComment])],
    [(.commaBreak, 193), (.linebreak, 189), (.templateArgsItems, 116)]⟩,
  -- 123
  ⟨.operand,
    [(.shared (.shift 12), [.identifier]),
     (.shared (.shift 196), [.colonColon]),
     (.shared .shiftExtra, [.lineComment, .blockComment])],
    [(.type, 182), (.arrayType, 182), (.namespaceList, 17), (.templateGlobal, 182)]⟩,
  -- 124
  ⟨.operand,
    [(.shared (.shift 12), [.identifier]),
     (.shared (.shift 196), [.colonColon]),
     (.shared .shiftExtra, [.lineComment, .blockComment])],
    [(.type, 188), (.arrayType, 188), (.namespaceList, 17), (.templateGlobal, 188)]⟩,
  -- 125
  ⟨.anything,
    [(.shared (.shift 228), [.rparen]),
     (.shared (.shift 78), [.comma]),
     (.shared (.shift 187), [.newline]),
     (.shared .shiftExtra, [.lineComment, .blockComment])],
    [(.commaBreak, 89), (.linebreak, 187), (.templateDeclarationItems, 111)]⟩,
  -- 126
  ⟨.anything,
    [(.shared (.reduce .declarationListItems 2 10), [.rbrace, .arrow, .newline]),
     (.sharedPair (.reduce .declarationListItems 2 10) (.shiftRepeat 78), [.comma]),
     (.shared .shiftExtra, [.lineComment, .blockComment])],
    [(.commaBreak, 90), (.declarationListItems, 126)]⟩,
  -- 127
  ⟨.anything,
    [(.shared (.shift 145), [.rbrace]),
     (.shared (.shift 59), [.assign]),
     (.shared (.shift 4), [.newline]),
     (.shared .shiftExtra, [.lineComment, .blockComment])],
    [(.linebreak, 4), (.blockItems, 148)]⟩,
  -- 128
  ⟨.anything,
    [(.shared (.shift 161), [.identifier]),
     (.shared (.shift 34), [.rparen]),
     (.shared (.shift 25), [.newline]),
     (.shared .shiftExtra, [.lineComment, .blockComment])],
    [(.templateArg, 122), (.linebreak, 25)]⟩,
  -- 129
  ⟨.anything,
    [(.shared (.shift 152), [.rbrace]),
     (.shared (.shift 59), [.assign]),
     (.shared (.shift 7), [.newline]),
     (.shared .shiftExtra, [.lineComment, .blockComment])],
    [(.linebreak, 7), (.blockItems, 155)]⟩,
  -- 130
  ⟨.anything,
    [(.shared (.reduce .templateDeclarationItems 2 10), [.rparen, .newline]),
     (.sharedPair (.reduce .templateDeclarationItems 2 10) (.shiftRepeat 78), [.comma]),
     (.shared .shiftExtra, [.lineComment, .blockComment])],
    [(.commaBreak, 89), (.templateDeclarationItems, 130)]⟩,
  -- 131
  ⟨.anything,
    [(.shared (.reduce .templateArg 4 41), [.rparen, .comma, .newline]),
     (.shared (.shift 71), [.lbracket]),
     (.shared .shiftExtra, [.lineComment, .blockComment])],
    [(.arrayBracketExpression, 134)]⟩,
  -- 132
  ⟨.anything,
    [(.shared (.reduce .templateArgsItems 2 10), [.rparen, .newline]),
     (.sharedPair (.reduce .templateArgsItems 2 10) (.shiftRepeat 78), [.comma]),
     (.shared .shiftExtra, [.lineComment, .blockComment])],
    [(.commaBreak, 193), (.templateArgsItems, 132)]⟩,
  -- 133
  ⟨.anything,
    [(.shared (.shift 161), [.identifier]),
     (.shared (.shift 27), [.rparen]),
     (.shared (.shift 128), [.newline]),
     (.shared .shiftExtra, [.lineComment, .blockComment])],
    [(.templateArg, 115), (.linebreak, 128)]⟩,
  -- 134
  ⟨.anything,
    [(.shared (.reduce .arrayType 2 8), [.identifier, .rparen, .lbracket, .comma, .newline]),
     (.shared .shiftExtra, [.lineComment, .blockComment])],
    []⟩,
  -- 135
  ⟨.anything,
    [(.shared (.shift 2), [.lbrace]),
     (.shared (.shift 66), [.whenKw, .ifKw]),
     (.shared .shiftExtra, [.lineComment, .blockComment])],
    [(.block, 200), (.ifStatement, 200)]⟩,
  -- 136
  ⟨.anything,
    [(.shared (.reduce .block 5 28), [.eof, .rbrace, .elseKw, .newline]),
     (.shared .shiftExtra, [.lineComment, .blockComment])],
    []⟩,
  -- 137
  ⟨.anything,
    [(.shared (.reduce .declarationListItems 2 5), [.rbrace, .arrow, .comma, .newline]),
     (.shared .shiftExtra, [.lineComment, .blockComment])],
    []⟩]

end SusSyntax.Grammar
