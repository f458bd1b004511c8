import SusSyntax.Tree.Node

/-!
Finding the children of a field from above.

The layout of a node says which of its children have a field, and in which of its hidden children
there are more of them. Following it down reaches the same nodes as asking every visible child for
its field.
-/

namespace SusSyntax.Tree

mutual

/-- The visible nodes in the field `f` of a tree that begins, with its padding, at `pos`, by its
layout. -/
def inField (f : Field) (pos : Extent) : Tree → List Node
  | .leaf .. => []
  | .node label _ _ children => inFieldOf f label.layout 0 pos children

/-- The visible nodes in the field `f` among children that follow one another, the first of which
has the number `index` in the layout. -/
def inFieldOf (f : Field) (layout index : Nat) (pos : Extent) : List Tree → List Node
  | [] => []
  | t :: rest =>
    let slot? := if t.isExtra then none else
      (Grammar.Layout.slots layout).find? fun s => s.field == f && s.child == index
    let here :=
      match slot? with
      | none => []
      | some slot =>
        if slot.inherited then t.inField f pos
        else if t.isVisible then [t.toNode (some f) pos]
        else t.nodesBelow (some f) pos
    here ++ inFieldOf f layout (nextIndex index t) (pos + t.extent) rest

end

mutual

/-- The visible trees from a tree down, each with its place, in the order of the text. -/
def shown (pos : Extent) : Tree → List (Tree × Extent)
  | t@(.leaf ..) => if t.isVisible then [(t, pos)] else []
  | t@(.node _ _ _ children) =>
    (if t.isVisible then [(t, pos)] else []) ++ shownOf pos children

/-- The visible trees from several trees down. -/
def shownOf (pos : Extent) : List Tree → List (Tree × Extent)
  | [] => []
  | t :: rest => t.shown pos ++ shownOf (pos + t.extent) rest

end

end SusSyntax.Tree
