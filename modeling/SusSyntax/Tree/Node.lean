import SusSyntax.Tree.Basic

/-!
The visible side of a tree: nodes with their kind, their field and their place in the text.

Hidden trees give way to their children. A node has a field if its layout slot says so, or if it is
all there is to see of a hidden tree that has the field; extras have none.
-/

namespace SusSyntax

/-- A visible node. `hasError` says that something in it had a cost, and `stuckAt?` is the glyph at
which unreadable text could not be read on. -/
structure Node where
  kind : Symbol
  field : Option Field
  isExtra : Bool
  isMissing : Bool
  hasError : Bool
  stuckAt? : Option Glyph
  start : Extent
  stop : Extent
  children : List Node
deriving Repr

namespace Tree

/-- The field of a child: an extra has none, the slot of the layout goes first, and then the field
of the hidden tree above it. -/
def fieldOf (layout index : Nat) (above : Option Field) (t : Tree) : Option Field :=
  if t.isExtra then none else (Grammar.Layout.field? layout index).or above

/-- The number of the next child: extras are not counted. -/
def nextIndex (index : Nat) (t : Tree) : Nat :=
  if t.isExtra then index else index + 1

mutual

/-- The node of a tree that begins, with its padding, at `pos`. -/
def toNode (field : Option Field) (pos : Extent) : Tree → Node
  | .leaf content padding size extra =>
    { kind := content.symbol
      field := field
      isExtra := extra
      isMissing := content.isMissing
      hasError := 0 < content.cost
      stuckAt? := match content with
        | .unread at? => at?
        | _ => none
      start := pos + padding
      stop := pos + padding + size
      children := [] }
  | .node label extra measure children =>
    { kind := label.symbol
      field := field
      isExtra := extra
      isMissing := false
      hasError := 0 < measure.cost
      stuckAt? := none
      start := pos + measure.padding
      stop := pos + measure.padding + measure.size
      children := nodesOf label.layout 0 none pos children }

/-- The visible nodes right below a hidden tree with this field. -/
def nodesBelow (field : Option Field) (pos : Extent) : Tree → List Node
  | .leaf .. => []
  | .node label _ _ children => nodesOf label.layout 0 field pos children

/-- The visible nodes of children that follow one another, the first of which has the number `index`
in the layout. `above` is the field of the hidden tree that they stand in. -/
def nodesOf (layout index : Nat) (above : Option Field) (pos : Extent) : List Tree → List Node
  | [] => []
  | t :: rest =>
    let field := fieldOf layout index above t
    (if t.isVisible then [t.toNode field pos] else t.nodesBelow field pos) ++
      nodesOf layout (nextIndex index t) above (pos + t.extent) rest

end

@[simp] theorem kind_toNode (field : Option Field) (p : Extent) (t : Tree) :
    (t.toNode field p).kind = t.symbol := by
  cases t <;> rfl

@[simp] theorem start_toNode (t : Tree) (field : Option Field) (p : Extent) :
    (t.toNode field p).start = p + t.padding := by
  cases t <;> rfl

@[simp] theorem stop_toNode (t : Tree) (field : Option Field) (p : Extent) :
    (t.toNode field p).stop = p + t.extent := by
  cases t <;> exact Extent.add_assoc ..

@[simp] theorem field_toNode (t : Tree) (field : Option Field) (p : Extent) :
    (t.toNode field p).field = field := by
  cases t <;> rfl

theorem children_toNode (t : Tree) (field : Option Field) (p : Extent) :
    (t.toNode field p).children = t.nodesBelow none p := by
  cases t <;> rfl

/-- What is seen of several trees is the first tree, or what is seen below it if it is hidden, or is
seen of the others. -/
theorem mem_nodesOf_cons {layout index : Nat} {above : Option Field} {pos : Extent} {t : Tree}
    {rest : List Tree} {n : Node} : n ∈ nodesOf layout index above pos (t :: rest) ↔
      t.isVisible = true ∧ n = t.toNode (fieldOf layout index above t) pos ∨
      t.isVisible = false ∧ n ∈ t.nodesBelow (fieldOf layout index above t) pos ∨
      n ∈ nodesOf layout (nextIndex index t) above (pos + t.extent) rest := by
  rw [nodesOf, List.mem_append, ← or_assoc]
  cases t.isVisible <;> simp

/-- The visible side of the tree of a whole text. -/
def root (t : Tree) : Node :=
  t.toNode none .zero

end Tree

namespace Node

/-- Whether a node is called by a name of its own. -/
def isNamed (n : Node) : Bool :=
  n.kind.isNamed

/-- Whether a node stands for text that the grammar does not admit. -/
def isError (n : Node) : Bool :=
  n.kind == .error

/-- A node in its surroundings: how deep it stands, and the kind of the node that it stands in. -/
structure Placed where
  depth : Nat
  parent? : Option Symbol
  node : Node
deriving Repr

mutual

/-- All nodes from a node down, in the order of the text. -/
def walk (depth : Nat) (parent? : Option Symbol) : Node → List Placed
  | n@(⟨kind, _, _, _, _, _, _, _, children⟩) =>
    ⟨depth, parent?, n⟩ :: walkAll (depth + 1) (some kind) children

/-- All nodes from several nodes down. -/
def walkAll (depth : Nat) (parent? : Option Symbol) : List Node → List Placed
  | [] => []
  | n :: rest => n.walk depth parent? ++ walkAll depth parent? rest

end

/-- All nodes of a tree, from its root. -/
def all (root : Node) : List Placed :=
  root.walk 0 none

end Node

end SusSyntax
