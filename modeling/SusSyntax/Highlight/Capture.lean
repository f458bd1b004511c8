import SusSyntax.Highlight.Query
import SusSyntax.Tree.Node

/-!
Highlighting a tree: the nodes that the patterns of the query match, in the order of the text.
-/

namespace SusSyntax

/-- A node that got a highlight name: the name, the bytes of the node, and the number of the
pattern. -/
structure Capture where
  name : String
  start : Nat
  stop : Nat
  pattern : Nat
deriving DecidableEq, Repr

namespace Capture

/-- Whether the pattern `p` matches a node in its surroundings. -/
def isMatch (n : Node.Placed) (p : Pattern) : Bool :=
  p.shape.admits n.parent? n.node.field n.node.kind

/-- The captures of one node, by the patterns in turn. -/
def ofPlaced (n : Node.Placed) : List Capture :=
  Query.patterns.zipIdx.filterMap fun (p, i) =>
    if isMatch n p then some ⟨p.name, n.node.start.bytes, n.node.stop.bytes, i⟩ else none

end Capture

/-- The captures of the highlighting query over a tree. -/
def Tree.highlights (t : Tree) : List Capture :=
  t.root.all.flatMap Capture.ofPlaced

end SusSyntax
