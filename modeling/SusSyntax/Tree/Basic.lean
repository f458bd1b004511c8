import SusSyntax.Grammar.Layout
import SusSyntax.Text.Glyph
import SusSyntax.Tree.Cost
import SusSyntax.Vocabulary.Symbol

/-!
Syntax trees as the parser builds them.

A leaf is a token that was read, a token that the parser supposes, or text that no token could be
read from. An inner node stands for a rule, or for text that the grammar does not admit. Blanks
before a token belong to its leaf as padding, so that the leaves of a tree tile the text. Every
inner node keeps the measure of its children (`Tree.ofChildren`), and nothing has to be measured
twice.
-/

namespace SusSyntax

/-- What a leaf is: a token that was read, a token that is missing in the text, or text that no
token could be read from, with the glyph at which reading failed (none at the end of the text). -/
inductive Leaf where
  | read (t : Token)
  | missing (t : Token)
  | unread (at? : Option Glyph)
deriving DecidableEq, Repr

namespace Leaf

/-- What labels a leaf. -/
def symbol : Leaf → Symbol
  | .read t => .token t
  | .missing t => .token t
  | .unread _ => .error

/-- Whether a leaf is not in the text. -/
def isMissing : Leaf → Bool
  | .missing _ => true
  | _ => false

/-- What a leaf costs. -/
def cost : Leaf → Nat
  | .missing _ => Cost.missingTree + Cost.recovery
  | _ => 0

end Leaf

/-- What labels an inner node. -/
inductive Label where
  | rule (r : Rule) (layout : Nat)
  | error
  | skipped
deriving DecidableEq, Repr

namespace Label

/-- The symbol of a label. -/
def symbol : Label → Symbol
  | .rule r _ => .rule r
  | .error => .error
  | .skipped => .skipped

/-- The layout of the children below a label. -/
def layout : Label → Nat
  | .rule _ layout => layout
  | _ => 0

end Label

/-- What is known about an inner node from its children: the padding of the first one, the extent
from there to the end of the last one, the cost, and how many visible nodes there are right below
and altogether. -/
structure Measure where
  padding : Extent
  size : Extent
  cost : Nat
  visibleChildren : Nat
  visibleDescendants : Nat
deriving DecidableEq, Repr, Inhabited

/-- A syntax tree. An extra stands outside the grammar: a comment, or text left out in order to go
on. -/
inductive Tree where
  | leaf (content : Leaf) (padding size : Extent) (extra : Bool)
  | node (label : Label) (extra : Bool) (measure : Measure) (children : List Tree)
deriving Repr

namespace Tree

/-- What labels a tree. -/
def symbol : Tree → Symbol
  | .leaf content .. => content.symbol
  | .node label .. => label.symbol

/-- Whether a tree stands outside the grammar. -/
def isExtra : Tree → Bool
  | .leaf _ _ _ extra => extra
  | .node _ extra _ _ => extra

/-- The same tree, as an extra or not. -/
def withExtra (extra : Bool) : Tree → Tree
  | .leaf content padding size _ => .leaf content padding size extra
  | .node label _ measure children => .node label extra measure children

/-- Whether a tree is a token that is not in the text. -/
def isMissing : Tree → Bool
  | .leaf content .. => content.isMissing
  | .node .. => false

/-- The blanks before a tree. -/
def padding : Tree → Extent
  | .leaf _ padding .. => padding
  | .node _ _ measure _ => measure.padding

/-- The extent of a tree behind its padding. -/
def size : Tree → Extent
  | .leaf _ _ size _ => size
  | .node _ _ measure _ => measure.size

/-- The extent of a tree with its padding. -/
def extent (t : Tree) : Extent :=
  t.padding + t.size

/-- What a tree costs. -/
def cost : Tree → Nat
  | .leaf content .. => content.cost
  | .node _ _ measure _ => measure.cost

/-- The trees below a tree. -/
def children : Tree → List Tree
  | .leaf .. => []
  | .node _ _ _ children => children

/-- The layout of the children of a tree. -/
def layout : Tree → Nat
  | .leaf .. => 0
  | .node label .. => label.layout

/-- Whether a tree is shown as a node of its own. -/
def isVisible (t : Tree) : Bool :=
  t.symbol.isVisible

/-- How many visible nodes stand right below a tree. -/
def visibleChildren : Tree → Nat
  | .leaf .. => 0
  | .node _ _ measure _ => measure.visibleChildren

/-- How many visible nodes stand anywhere below a tree. -/
def visibleDescendants : Tree → Nat
  | .leaf .. => 0
  | .node _ _ measure _ => measure.visibleDescendants

/-- How much progress a tree stands for: its visible nodes, and itself if it gathers skipped text.
-/
def progress (t : Tree) : Nat :=
  t.visibleDescendants + (if t.isVisible then 1 else 0) + (if t.symbol = .skipped then 1 else 0)

/-- Whether a tree stands for text that the grammar does not admit. -/
def isError (t : Tree) : Bool :=
  t.symbol == .error

/-! ### Measuring -/

/-- What leaving out a child costs. Extras cost nothing, and unreadable text no more than its
bytes. -/
def skipCost (t : Tree) : Nat :=
  if t.isExtra || (t.isError && t.children.isEmpty) then 0
  else if t.isVisible then Cost.skippedTree
  else Cost.skippedTree * t.visibleChildren

/-- The sum of a number over trees. -/
def sumOver (f : Tree → Nat) : List Tree → Nat
  | [] => 0
  | t :: rest => f t + sumOver f rest

/-- The extent of trees that follow one another, without the padding of the first. -/
def spanOf : List Tree → Extent
  | [] => .zero
  | t :: rest => rest.foldl (fun e u => e + u.extent) t.size

/-- The cost of text of an extent that is left out. -/
def textCost (e : Extent) : Nat :=
  Cost.skippedByte * e.bytes + Cost.skippedLine * e.rows

/-- The cost of a node: that of its children, apart from text they gather as skipped, and for a node
over an error also what is left out there. -/
def costOf (label : Label) (children : List Tree) : Nat :=
  let below := sumOver (fun t => if t.symbol = .skipped then 0 else t.cost) children
  if label.symbol.isErroneous then
    below + sumOver skipCost children + Cost.recovery + textCost (spanOf children)
  else below

/-- The measure of a node with these children. -/
def measureOf (label : Label) (children : List Tree) : Measure where
  padding := (children.head?.map padding).getD .zero
  size := spanOf children
  cost := costOf label children
  visibleChildren := sumOver (fun t => if t.isVisible then 1 else t.visibleChildren) children
  visibleDescendants :=
    sumOver (fun t => t.visibleDescendants + if t.isVisible then 1 else 0) children

/-- The node over these children. -/
def ofChildren (label : Label) (children : List Tree) : Tree :=
  .node label false (measureOf label children) children

@[simp] theorem children_ofChildren (label : Label) (children : List Tree) :
    (ofChildren label children).children = children := rfl

@[simp] theorem symbol_ofChildren (label : Label) (children : List Tree) :
    (ofChildren label children).symbol = label.symbol := rfl

/-! ### Extras at the end -/

/-- Trees without the extras at their end, and these extras. -/
def splitTrailingExtras (trees : List Tree) : List Tree × List Tree :=
  ((trees.reverse.dropWhile isExtra).reverse, (trees.reverse.takeWhile isExtra).reverse)

/-- Splitting off the extras loses nothing. -/
theorem append_splitTrailingExtras (trees : List Tree) :
    (splitTrailingExtras trees).1 ++ (splitTrailingExtras trees).2 = trees := by
  rw [splitTrailingExtras, ← List.reverse_append, List.takeWhile_append_dropWhile,
    List.reverse_reverse]

end Tree

end SusSyntax
