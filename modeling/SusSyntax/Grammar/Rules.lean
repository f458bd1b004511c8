import SusSyntax.Vocabulary.Field
import SusSyntax.Vocabulary.Symbol

/-!
The grammar of the language.

Every rule has a body, a phrase over tokens and rules in which some parts have a field. Two
relations say what a phrase stands for: the token sequences that it derives (`Phrase.Derives`),
and the visible children, each with its field, that a node over it can have (`Phrase.Shows`).
Precedence does not change what can be derived, only which tree is built, and is left out here.
-/

namespace SusSyntax.Grammar

/-- The right-hand side of a rule. -/
inductive Phrase where
  | nothing
  | token (t : Token)
  | rule (r : Rule)
  | field (f : Field) (p : Phrase)
  | seq (p q : Phrase)
  | either (p q : Phrase)
  | many (p : Phrase)
deriving DecidableEq, Repr

namespace Phrase

/-- A phrase that may be left out. -/
def optional (p : Phrase) : Phrase :=
  .either p .nothing

/-- Phrases one after another. -/
def inTurn : List Phrase → Phrase
  | [] => .nothing
  | [p] => p
  | p :: rest => .seq p (inTurn rest)

/-- One of several phrases. -/
def oneOf : List Phrase → Phrase
  | [] => .nothing
  | [p] => p
  | p :: rest => .either p (oneOf rest)

/-- One of several tokens. -/
def tokens (ts : List Token) : Phrase :=
  oneOf (ts.map .token)

/-- A phrase as an item of a list. -/
def item (p : Phrase) : Phrase :=
  .field .item p

/-- Items with separators between them; the rule `others` derives all but the first. -/
def items (p : Phrase) (others : Rule) : Phrase :=
  .seq (item p) (optional (.rule others))

/-- A line break that may be left out. -/
def breakable : Phrase :=
  optional (.rule .linebreak)

/-- Items, if there are any, with line breaks around them. -/
def itemsOnLines (p : Phrase) (others : Rule) : Phrase :=
  .seq breakable (optional (.seq (items p others) breakable))

/-- The items of a list after the first, each behind a separator. -/
def otherItems (separator p : Phrase) : Phrase :=
  .many (.seq separator (item p))

end Phrase

end SusSyntax.Grammar

namespace SusSyntax.Rule

open Grammar Grammar.Phrase

/-- What can stand in a block, one on a line. -/
def statement : Phrase :=
  oneOf ([.block, .declAssignStatement, .assignLeftSide, .ifStatement, .forStatement,
    .domainStatement, .interfaceStatement].map Phrase.rule)

/-- What can stand among the parameters of a template. -/
def templateParameter : Phrase :=
  oneOf [.rule .templateDeclarationType, .rule .declaration]

/-- An operation with two operands, one of these operators between them. -/
def infixOf (operators : List Token) : Phrase :=
  inTurn [.field .left (.rule .expression), .field .operator (tokens operators),
    .field .right (.rule .expression)]

/-- The body of a rule. -/
def body : Rule → Phrase
  | .sourceFile => itemsOnLines (.rule .globalObject) .sourceFileItems
  | .globalObject => inTurn [
      optional (.field .externMarker (tokens [.builtinKw, .externKw])),
      .field .objectType (oneOf [.token .moduleKw, .token .structKw, .rule .constAndType]),
      .field .name (.token .identifier),
      optional (.field .templateDeclarationArguments (.rule .templateDeclarationArguments)),
      .field .block (.rule .block)]
  | .constAndType => inTurn [.token .constKw, .field .constType (.rule .type)]
  | .templateDeclarationArguments => inTurn [.token .hashParen,
      itemsOnLines templateParameter .templateDeclarationItems, .token .rparen]
  | .templateDeclarationType => .field .name (.token .identifier)
  | .block => inTurn [.token .lbrace, itemsOnLines statement .blockItems, .token .rbrace]
  | .declAssignStatement => inTurn [.field .assignLeft (.rule .assignLeftSide), .token .assign,
      .field .assignValue (.rule .expression)]
  | .assignLeftSide => items (.rule .assignTo) .assignLeftSideItems
  | .assignTo => inTurn [optional (.field .writeModifiers (.rule .writeModifiers)),
      .field .exprOrDecl (oneOf [.rule .declaration, .rule .expression])]
  | .writeModifiers => oneOf [.rule .writeModifiersItems, item (.token .initialKw)]
  | .ifStatement => inTurn [.field .statementType (tokens [.whenKw, .ifKw]),
      .field .condition (.rule .expression), .field .thenBlock (.rule .block),
      optional (inTurn [.token .elseKw,
        .field .elseBlock (oneOf [.rule .block, .rule .ifStatement])])]
  | .forStatement => inTurn [.token .forKw, .field .forDecl (.rule .declaration), .token .inKw,
      .field .rangeFrom (.rule .expression), .token .dotDot, .field .rangeTo (.rule .expression),
      .field .block (.rule .block)]
  | .domainStatement => inTurn [.token .domainKw, .field .name (.token .identifier)]
  | .interfaceStatement => inTurn [.token .interfaceKw, .field .name (.token .identifier),
      optional (.field .interfacePorts (.rule .interfacePorts))]
  | .interfacePorts => inTurn [.token .colon, breakable,
      oneOf [
        inTurn [.field .inputs (.rule .declarationList), optional (.rule .interfacePortsOutput)],
        .rule .interfacePortsOutput]]
  | .interfacePortsOutput => inTurn [.token .arrow, breakable,
      .field .outputs (.rule .declarationList)]
  | .declarationList => items (.rule .declaration) .declarationListItems
  | .declaration => inTurn [optional (.field .ioPortModifiers (tokens [.inputKw, .outputKw])),
      optional (.field .declarationModifiers (tokens [.stateKw, .genKw])),
      .field .type (.rule .type), .field .name (.token .identifier),
      optional (.field .latencySpecifier (.rule .latencySpecifier))]
  | .latencySpecifier => inTurn [.token .quote, .field .content (.rule .expression)]
  | .type => oneOf [.rule .templateGlobal, .rule .arrayType]
  | .arrayType => inTurn [.field .arr (.rule .type), .field .arrIdx (.rule .arrayBracketExpression)]
  | .expression => oneOf [.rule .templateGlobal, .rule .arrayOp, .token .number,
      .rule .parenthesisExpression, .rule .unaryOp, .rule .binaryOp, .rule .funcCall,
      .rule .fieldAccess]
  | .unaryOp => inTurn [
      .field .operator (tokens [.plus, .minus, .star, .bang, .pipe, .amp, .caret]),
      .field .right (.rule .expression)]
  | .binaryOp => oneOf [infixOf [.eqEq, .bangEq, .lt, .le, .gt, .ge], infixOf [.caret],
      infixOf [.pipe], infixOf [.amp], infixOf [.plus, .minus], infixOf [.star, .slash, .percent]]
  | .arrayOp => inTurn [.field .arr (.rule .expression),
      .field .arrIdx (.rule .arrayBracketExpression)]
  | .funcCall => inTurn [.field .name (.rule .expression),
      .field .arguments (.rule .parenthesisExpressionList)]
  | .fieldAccess => inTurn [.field .left (.rule .expression), .token .dot,
      .field .name (.token .identifier)]
  | .parenthesisExpressionList => inTurn [.token .lparen,
      optional (items (.rule .expression) .parenthesisExpressionItems), .token .rparen]
  | .parenthesisExpression => inTurn [.token .lparen, .field .content (.rule .expression),
      .token .rparen]
  | .arrayBracketExpression => inTurn [.token .lbracket, .field .content (.rule .expression),
      .token .rbracket]
  | .namespaceList => items (.token .identifier) .namespaceListItems
  | .templateGlobal => inTurn [optional (.field .isGlobalPath (.token .colonColon)),
      .field .namespaceList (.rule .namespaceList),
      optional (.field .templateArgs (.rule .templateArgs))]
  | .templateArgs => inTurn [.token .hashParen,
      itemsOnLines (.rule .templateArg) .templateArgsItems, .token .rparen]
  | .templateArg => inTurn [.field .name (.token .identifier),
      optional (inTurn [.token .colon, oneOf [
        inTurn [.token .typeKw, .field .typeArg (.rule .type)],
        .field .valArg (.rule .expression)]])]
  | .commaBreak => inTurn [.token .comma, breakable]
  | .linebreak => .many (.token .newline)
  | .sourceFileItems => otherItems (.rule .linebreak) (.rule .globalObject)
  | .templateDeclarationItems => otherItems (.rule .commaBreak) templateParameter
  | .blockItems => otherItems (.rule .linebreak) statement
  | .assignLeftSideItems => otherItems (.rule .commaBreak) (.rule .assignTo)
  | .writeModifiersItems => .many (item (.token .regKw))
  | .declarationListItems => otherItems (.rule .commaBreak) (.rule .declaration)
  | .parenthesisExpressionItems => otherItems (.rule .commaBreak) (.rule .expression)
  | .namespaceListItems => otherItems (.token .colonColon) (.token .identifier)
  | .templateArgsItems => otherItems (.rule .commaBreak) (.rule .templateArg)

end SusSyntax.Rule

namespace SusSyntax.Grammar

namespace Phrase

/-- The token sequences of a phrase. -/
inductive Derives : Phrase → List Token → Prop where
  | nothing : Derives .nothing []
  | token {t : Token} : Derives (.token t) [t]
  | rule {r : Rule} {w : List Token} : Derives r.body w → Derives (.rule r) w
  | field {f : Field} {p : Phrase} {w : List Token} : Derives p w → Derives (.field f p) w
  | seq {p q : Phrase} {v w : List Token} :
      Derives p v → Derives q w → Derives (.seq p q) (v ++ w)
  | left {p q : Phrase} {w : List Token} : Derives p w → Derives (.either p q) w
  | right {p q : Phrase} {w : List Token} : Derives q w → Derives (.either p q) w
  | once {p : Phrase} {w : List Token} : Derives p w → Derives (.many p) w
  | more {p : Phrase} {v w : List Token} :
      Derives p v → Derives (.many p) w → Derives (.many p) (v ++ w)

/-- A visible child of a node: its kind and its field. -/
abbrev Child := Symbol × Option Field

/-- The visible children that a phrase can give to a node, where `f` is the field of the phrase.
Hidden rules give way to their bodies. -/
inductive Shows : Option Field → Phrase → List Child → Prop where
  | nothing {f : Option Field} : Shows f .nothing []
  | token {f : Option Field} {t : Token} : Shows f (.token t) [(.token t, f)]
  | visible {f : Option Field} {r : Rule} :
      r.isVisible = true → Shows f (.rule r) [(.rule r, f)]
  | hidden {f : Option Field} {r : Rule} {w : List Child} :
      r.isHidden = true → Shows f r.body w → Shows f (.rule r) w
  | field {f : Option Field} {g : Field} {p : Phrase} {w : List Child} :
      Shows (some g) p w → Shows f (.field g p) w
  | seq {f : Option Field} {p q : Phrase} {v w : List Child} :
      Shows f p v → Shows f q w → Shows f (.seq p q) (v ++ w)
  | left {f : Option Field} {p q : Phrase} {w : List Child} :
      Shows f p w → Shows f (.either p q) w
  | right {f : Option Field} {p q : Phrase} {w : List Child} :
      Shows f q w → Shows f (.either p q) w
  | once {f : Option Field} {p : Phrase} {w : List Child} : Shows f p w → Shows f (.many p) w
  | more {f : Option Field} {p : Phrase} {v w : List Child} :
      Shows f p v → Shows f (.many p) w → Shows f (.many p) (v ++ w)

/-- A phrase that may be left out derives nothing, or what it derives anyway. -/
theorem derives_optional_iff {p : Phrase} {w : List Token} :
    Derives (optional p) w ↔ Derives p w ∨ w = [] := by
  constructor
  · intro derives
    cases derives with
    | left derives => exact .inl derives
    | right derives =>
      cases derives
      exact .inr rfl
  · rintro (derives | rfl)
    · exact .left derives
    · exact .right .nothing

end Phrase

end SusSyntax.Grammar
