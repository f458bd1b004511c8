import SusSyntax.Tree.Cursor

/-!
The syntax errors of a tree.

A node over text that the grammar does not admit is an unexpected one, a token that the parser
supposes is a missing one. Errors inside of an error are not reported. Only the parts of the tree
that contain an error are searched.
-/

namespace SusSyntax

/-- What is wrong at a node. -/
inductive SyntaxError.Kind where
  | unexpected
  | missing
deriving DecidableEq, Repr

/-- A syntax error: what is wrong, the kind of the node, the kind of the node that it stands in, its
field there, and its bytes. -/
structure SyntaxError where
  kind : SyntaxError.Kind
  nodeKind : String
  parentKind? : Option String
  field? : Option String
  start : Nat
  stop : Nat
deriving DecidableEq, Repr

namespace SyntaxError

/-- How the sentence begins. -/
def opening : Option String → String
  | some parent => "While parsing '" ++ parent ++ "', parser"
  | none => "Parser"

/-- What was found. -/
def Kind.finding : Kind → String
  | .unexpected => " found a syntax error"
  | .missing => " found a missing field"

/-- Where it was found. -/
def location (nodeKind : String) : Option String → String
  | some field => " in the field '" ++ field ++ "' of type '" ++ nodeKind ++ "'"
  | none => " in a node of type '" ++ nodeKind ++ "'"

/-- The error as a sentence. -/
def message (e : SyntaxError) : String :=
  opening e.parentKind? ++ e.kind.finding ++ location e.nodeKind e.field?

/-- The error at a node. -/
def ofNode (parent? : Option Symbol) (n : Node) : SyntaxError where
  kind := if n.isMissing then .missing else .unexpected
  nodeKind := n.kind.name
  parentKind? := parent?.map Symbol.name
  field? := n.field.map Field.label
  start := n.start.bytes
  stop := n.stop.bytes

/-- The error at the node that a cursor stands at. -/
def ofCursor (c : Node.Cursor) : SyntaxError :=
  .ofNode (c.parent?.map (·.node.kind)) c.node

end SyntaxError

namespace Node

/-- Whether a node is reported. -/
def isReported (n : Node) : Bool :=
  n.isError || n.isMissing

namespace Cursor

/-- Where the search for errors goes on: below a node that has an error and is none, and behind any
other. -/
def onward? (c : Cursor) : Option Cursor :=
  if c.node.isReported || !c.node.hasError then c.leave?
  else c.firstChild?.or c.leave?

theorem remaining_of_onward? {c next : Cursor} (h : c.onward? = some next) :
    next.remaining < c.remaining := by
  unfold onward? at h
  split at h
  · exact remaining_lt_of_leave? h
  · rcases Option.or_eq_some_iff.mp h with below | ⟨_, beyond⟩
    · exact remaining_of_firstChild? below
    · exact remaining_lt_of_leave? beyond

/-- The errors that are found from a cursor on. -/
def errors (c : Cursor) : List SyntaxError :=
  let rest := match _found : c.onward? with
    | some next => next.errors
    | none => []
  if c.node.isReported then .ofCursor c :: rest else rest
termination_by c.remaining
decreasing_by exact remaining_of_onward? _found

end Cursor

end Node

namespace Tree

/-- Whether a tree has no error. -/
def isClean (t : Tree) : Bool :=
  !t.root.hasError

/-- The syntax errors of a tree, in the order of the text. -/
def syntaxErrors (t : Tree) : List SyntaxError :=
  if t.isClean then [] else (Node.Cursor.ofRoot t.root).errors

end Tree

end SusSyntax
