import SusSyntax.Tree.Basic

/-!
Choosing between two readings of the same text.

The cheaper reading wins. Of two that cost the same the later wins if they have errors, and
otherwise the one that comes first in the order of trees: by the number of the symbol, then by the
number of children, then child by child.
-/

namespace SusSyntax.Tree

mutual

/-- Compares two trees, from the root down and from left to right. -/
def order : Tree → Tree → Ordering
  | t@(.leaf ..), u =>
    (compare t.symbol.id u.symbol.id).then (compare t.children.length u.children.length)
  | t@(.node _ _ _ children), u =>
    ((compare t.symbol.id u.symbol.id).then (compare children.length u.children.length)).then
      (orderAll children u.children)

/-- Compares trees in turn; the shorter list comes first. -/
def orderAll : List Tree → List Tree → Ordering
  | [], [] => .eq
  | [], _ :: _ => .lt
  | _ :: _, [] => .gt
  | t :: ts, u :: us => (order t u).then (orderAll ts us)

end

/-- Whether a later reading `u` replaces the reading `t`. -/
def isReplacedBy (t u : Tree) : Bool :=
  if u.cost < t.cost then true
  else if t.cost < u.cost then false
  else if 0 < t.cost then true
  else t.order u == .gt

end SusSyntax.Tree
