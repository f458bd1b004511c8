import SusSyntax.Vocabulary.Field
import SusSyntax.Vocabulary.Symbol

/-!
The highlighting query: which nodes of a tree get which highlight name.

The query is a list of sections; a section has a title and blocks of patterns that belong
together. Its text is written from this data (`Query.text`), and so are the places where its
patterns begin.
-/

namespace SusSyntax

/-- A pattern: one of several spellings, one spelling, every node of a kind, or every node of a
kind that stands in a field of a node of the kind `parent`. -/
inductive Pattern.Shape where
  | anyOf (spellings : List Token)
  | spelling (t : Token)
  | kind (k : Symbol)
  | inField (parent : Rule) (field : Field) (k : Symbol)
deriving DecidableEq, Repr

/-- A pattern with the name that it gives to the nodes it matches. -/
structure Pattern where
  shape : Pattern.Shape
  name : String
deriving DecidableEq, Repr

namespace Pattern

/-- A token between quotation marks. -/
def quoted (t : Token) : String :=
  "\"" ++ t.name ++ "\""

/-- The text of a shape, with the name behind the node that gets it. -/
def Shape.text (name : String) : Shape → String
  | .anyOf spellings =>
    "[\n" ++ String.join (spellings.map fun t => "  " ++ quoted t ++ "\n") ++ "] @" ++ name
  | .spelling t => quoted t ++ " @" ++ name
  | .kind k => "(" ++ k.name ++ ") @" ++ name
  | .inField parent field k =>
    "(" ++ parent.name ++ "\n  " ++ field.label ++ ": (" ++ k.name ++ ") @" ++ name ++ ")"

/-- The text of a pattern. -/
def text (p : Pattern) : String :=
  p.shape.text p.name

/-- Whether a pattern matches a node of the kind `k`, in this field of a node of the kind
`parent?`. -/
def Shape.admits (parent? : Option Symbol) (field? : Option Field) (k : Symbol) : Shape → Bool
  | .anyOf spellings => spellings.any fun t => k == .token t
  | .spelling t => k == .token t
  | .kind k' => k == k'
  | .inField parent field k' =>
    k == k' && field? == some field && parent? == some (.rule parent)

end Pattern

/-- A section of the query. -/
structure Section where
  title : String
  blocks : List (List Pattern)

namespace Section

/-- The texts of a section that stand apart by an empty line: its title, then its blocks. -/
def paragraphs (s : Section) : List (String × List Pattern) :=
  ("; " ++ s.title, []) :: s.blocks.map fun b => ("\n".intercalate (b.map Pattern.text), b)

end Section

namespace Query

open Token in
/-- The sections of the highlighting query. -/
def sections : List Section := [
  ⟨"Keywords", [
    [⟨.anyOf [moduleKw, structKw, constKw, interfaceKw, domainKw], "keyword"⟩],
    [⟨.anyOf [externKw, builtinKw, inputKw, outputKw, stateKw, genKw, regKw, initialKw],
      "keyword.modifier"⟩],
    [⟨.anyOf [ifKw, whenKw, elseKw], "keyword.conditional"⟩],
    [⟨.anyOf [forKw, inKw], "keyword.repeat"⟩],
    [⟨.spelling typeKw, "keyword.type"⟩]]⟩,
  ⟨"Declarations", [
    [⟨.inField .globalObject .name (.token identifier), "type.definition"⟩],
    [⟨.inField .templateDeclarationType .name (.token identifier), "type.parameter"⟩],
    [⟨.inField .declaration .type (.rule .templateGlobal), "type"⟩],
    [⟨.inField .declaration .name (.token identifier), "variable"⟩],
    [⟨.inField .templateArg .name (.token identifier), "variable.parameter"⟩],
    [⟨.inField .interfaceStatement .name (.token identifier), "function"⟩],
    [⟨.inField .domainStatement .name (.token identifier), "label"⟩]]⟩,
  ⟨"Expressions", [
    [⟨.inField .funcCall .name (.rule .templateGlobal), "function.call"⟩],
    [⟨.inField .fieldAccess .name (.token identifier), "property"⟩],
    [⟨.kind (.token number), "number"⟩]]⟩,
  ⟨"Operators and punctuation", [
    [⟨.anyOf [plus, minus, star, slash, percent, bang, pipe, amp, caret, eqEq, bangEq, lt, le, gt,
      ge, assign, dotDot, arrow, quote], "operator"⟩],
    [⟨.anyOf [lparen, rparen, lbracket, rbracket, lbrace, rbrace, hashParen],
      "punctuation.bracket"⟩],
    [⟨.anyOf [comma, colon, colonColon, dot], "punctuation.delimiter"⟩]]⟩,
  ⟨"Comments", [
    [⟨.kind (.token lineComment), "comment"⟩, ⟨.kind (.token blockComment), "comment"⟩]]⟩]

/-- All paragraphs of the query, each with its patterns. -/
def paragraphs : List (String × List Pattern) :=
  sections.flatMap Section.paragraphs

/-- The text of the query. -/
def text : String :=
  "\n\n".intercalate (paragraphs.map Prod.fst) ++ "\n"

/-- The patterns of the query, in order. -/
def patterns : List Pattern :=
  sections.flatMap fun s => s.blocks.flatten

/-- The names of the query, in the order of their first appearance. -/
def names : List String :=
  (patterns.map Pattern.name).eraseDups

/-- The places where patterns that stand on lines of their own begin, the first of them at
`start`. -/
def blockStarts (start : Nat) : List Pattern → List Nat
  | [] => []
  | p :: rest => start :: blockStarts (start + p.text.utf8ByteSize + 1) rest

/-- The places where the patterns of paragraphs begin, the first of which stands at `start`. -/
def startsFrom (start : Nat) : List (String × List Pattern) → List Nat
  | [] => []
  | (paragraph, block) :: rest =>
    blockStarts start block ++ startsFrom (start + paragraph.utf8ByteSize + 2) rest

/-- The places in the text of the query where its patterns begin. -/
def patternStarts : List Nat :=
  startsFrom 0 paragraphs

end Query

end SusSyntax
