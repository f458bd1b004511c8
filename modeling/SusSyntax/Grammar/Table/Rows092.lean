import SusSyntax.Grammar.Action

/-!
The parse table: the rows of the states 92 to 114.
-/

namespace SusSyntax.Grammar

/-- The rows of the states 92 to 114. -/
def rows092 : List Row := [
  -- 92
  ⟨.anything,
    [(.shared (.reduce .sourceFile 2 1), [.eof]),
     (.shared (.shift 169), [.builtinKw, .externKw]),
     (.shared (.shift 223), [.moduleKw, .structKw]),
     (.shared (.shift 124), [.constKw]),
     (.shared (.shift 98), [.newline]),
     (.shared .shiftExtra, [.lineComment, .blockComment])],
    [(.globalObject, 207), (.constAndType, 223), (.linebreak, 98)]⟩,
  -- 93
  ⟨.anything,
    [(.shared (.reduce .sourceFile 4 11), [.eof]),
     (.shared (.shift 169), [.builtinKw, .externKw]),
     (.shared (.shift 223), [.moduleKw, .structKw]),
     (.shared (.shift 124), [.constKw]),
     (.shared (.shift 98), [.newline]),
     (.shared .shiftExtra, [.lineComment, .blockComment])],
    [(.globalObject, 207), (.constAndType, 223), (.linebreak, 98)]⟩,
  -- 94
  ⟨.anything,
    [(.shared (.reduce .sourceFile 1 0), [.eof]),
     (.shared (.shift 169), [.builtinKw, .externKw]),
     (.shared (.shift 223), [.moduleKw, .structKw]),
     (.shared (.shift 124), [.constKw]),
     (.shared (.shift 98), [.newline]),
     (.shared .shiftExtra, [.lineComment, .blockComment])],
    [(.globalObject, 149), (.constAndType, 223), (.linebreak, 98)]⟩,
  -- 95
  ⟨.anything,
    [(.shared (.reduce .sourceFile 3 4), [.eof]),
     (.shared (.shift 169), [.builtinKw, .externKw]),
     (.shared (.shift 223), [.moduleKw, .structKw]),
     (.shared (.shift 124), [.constKw]),
     (.shared (.shift 98), [.newline]),
     (.shared .shiftExtra, [.lineComment, .blockComment])],
    [(.globalObject, 207), (.constAndType, 223), (.linebreak, 98)]⟩,
  -- 96
  ⟨.anything,
    [(.shared (.reduce .sourceFile 3 5), [.eof]),
     (.shared (.shift 169), [.builtinKw, .externKw]),
     (.shared (.shift 223), [.moduleKw, .structKw]),
     (.shared (.shift 124), [.constKw]),
     (.shared (.shift 98), [.newline]),
     (.shared .shiftExtra, [.lineComment, .blockComment])],
    [(.globalObject, 207), (.constAndType, 223), (.linebreak, 98)]⟩,
  -- 97
  ⟨.anything,
    [(.shared (.shift 169), [.builtinKw, .externKw]),
     (.shared (.shift 223), [.moduleKw, .structKw]),
     (.shared (.shift 124), [.constKw]),
     (.shared (.shift 98), [.newline]),
     (.shared .shiftExtra, [.lineComment, .blockComment])],
    [(.globalObject, 207), (.constAndType, 223), (.linebreak, 98)]⟩,
  -- 98
  ⟨.anything,
    [(.shared (.reduce .linebreak 2 0), [.eof, .builtinKw, .externKw, .moduleKw, .structKw,
       .constKw, .rparen]),
     (.sharedPair (.reduce .linebreak 2 0) (.shiftRepeat 98), [.newline]),
     (.shared .shiftExtra, [.lineComment, .blockComment])],
    [(.linebreak, 98)]⟩,
  -- 99
  ⟨.anything,
    [(.shared (.reduce .declaration 3 26), [.rparen, .rbrace, .assign, .inKw, .arrow, .comma,
       .newline]),
     (.shared (.shift 67), [.quote]),
     (.shared .shiftExtra, [.lineComment, .blockComment])],
    [(.latencySpecifier, 107)]⟩,
  -- 100
  ⟨.anything,
    [(.shared (.reduce .declaration 4 35), [.rparen, .rbrace, .assign, .inKw, .arrow, .comma,
       .newline]),
     (.shared (.shift 67), [.quote]),
     (.shared .shiftExtra, [.lineComment, .blockComment])],
    [(.latencySpecifier, 108)]⟩,
  -- 101
  ⟨.anything,
    [(.shared (.reduce .declaration 2 19), [.rparen, .rbrace, .assign, .inKw, .arrow, .comma,
       .newline]),
     (.shared (.shift 67), [.quote]),
     (.shared .shiftExtra, [.lineComment, .blockComment])],
    [(.latencySpecifier, 106)]⟩,
  -- 102
  ⟨.anything,
    [(.shared (.reduce .declaration 3 25), [.rparen, .rbrace, .assign, .inKw, .arrow, .comma,
       .newline]),
     (.shared (.shift 67), [.quote]),
     (.shared .shiftExtra, [.lineComment, .blockComment])],
    [(.latencySpecifier, 105)]⟩,
  -- 103
  ⟨.operand,
    [(.shared (.reduce .namespaceList 1 1), [.identifier, .hashParen, .lbracket]),
     (.shared (.reduce .templateDeclarationType 1 13), [.rparen, .comma, .newline]),
     (.shared (.shift 229), [.colonColon]),
     (.shared .shiftExtra, [.lineComment, .blockComment])],
    [(.namespaceListItems, 13)]⟩,
  -- 104
  ⟨.operand,
    [(.exact (.shift 12), [.identifier]),
     (.exact (.shift 114), [.stateKw, .genKw]),
     (.shared (.shift 196), [.colonColon]),
     (.shared .shiftExtra, [.lineComment, .blockComment])],
    [(.type, 180), (.arrayType, 180), (.namespaceList, 17), (.templateGlobal, 180)]⟩,
  -- 105
  ⟨.anything,
    [(.shared (.reduce .declaration 4 36), [.rparen, .rbrace, .assign, .inKw, .arrow, .comma,
       .newline]),
     (.shared .shiftExtra, [.lineComment, .blockComment])],
    []⟩,
  -- 106
  ⟨.anything,
    [(.shared (.reduce .declaration 3 27), [.rparen, .rbrace, .assign, .inKw, .arrow, .comma,
       .newline]),
     (.shared .shiftExtra, [.lineComment, .blockComment])],
    []⟩,
  -- 107
  ⟨.anything,
    [(.shared (.reduce .declaration 4 37), [.rparen, .rbrace, .assign, .inKw, .arrow, .comma,
       .newline]),
     (.shared .shiftExtra, [.lineComment, .blockComment])],
    []⟩,
  -- 108
  ⟨.anything,
    [(.shared (.reduce .declaration 5 42), [.rparen, .rbrace, .assign, .inKw, .arrow, .comma,
       .newline]),
     (.shared .shiftExtra, [.lineComment, .blockComment])],
    []⟩,
  -- 109
  ⟨.anything,
    [(.shared (.shift 30), [.rparen]),
     (.shared (.shift 78), [.comma]),
     (.shared (.shift 186), [.newline]),
     (.shared .shiftExtra, [.lineComment, .blockComment])],
    [(.commaBreak, 193), (.linebreak, 186), (.templateArgsItems, 132)]⟩,
  -- 110
  ⟨.operand,
    [(.shared (.shift 12), [.identifier]),
     (.shared (.shift 196), [.colonColon]),
     (.shared .shiftExtra, [.lineComment, .blockComment])],
    [(.type, 131), (.arrayType, 131), (.namespaceList, 17), (.templateGlobal, 131)]⟩,
  -- 111
  ⟨.anything,
    [(.shared (.shift 227), [.rparen]),
     (.shared (.shift 78), [.comma]),
     (.shared (.shift 185), [.newline]),
     (.shared .shiftExtra, [.lineComment, .blockComment])],
    [(.commaBreak, 89), (.linebreak, 185), (.templateDeclarationItems, 130)]⟩,
  -- 112
  ⟨.anything,
    [(.shared (.reduce .assignLeftSideItems 2 10), [.rbrace, .assign, .newline]),
     (.sharedPair (.reduce .assignLeftSideItems 2 10) (.shiftRepeat 78), [.comma]),
     (.shared .shiftExtra, [.lineComment, .blockComment])],
    [(.commaBreak, 11), (.assignLeftSideItems, 112)]⟩,
  -- 113
  ⟨.anything,
    [(.shared (.reduce .declarationList 1 1), [.rbrace, .arrow, .newline]),
     (.shared (.shift 78), [.comma]),
     (.shared .shiftExtra, [.lineComment, .blockComment])],
    [(.commaBreak, 90), (.declarationListItems, 121)]⟩,
  -- 114
  ⟨.operand,
    [(.shared (.shift 12), [.identifier]),
     (.shared (.shift 196), [.colonColon]),
     (.shared .shiftExtra, [.lineComment, .blockComment])],
    [(.type, 181), (.arrayType, 181), (.namespaceList, 17), (.templateGlobal, 181)]⟩]

end SusSyntax.Grammar
