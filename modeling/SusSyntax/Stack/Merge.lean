import SusSyntax.Stack.Basic

/-!
Merging versions that stand in the same state at the same place with the same cost.

The links of one topmost cell are added to the other. A link that repeats another one is left out;
where two links carry like trees to cells that could be merged, these are merged in turn.
-/

namespace SusSyntax

open Grammar

namespace Tree

/-- Whether two trees are so alike that it is enough to keep one: the same symbol, and either both
have errors or they take up the same bytes with as many children. -/
def isLike (t u : Tree) : Bool :=
  t.symbol == u.symbol &&
    ((0 < t.cost && 0 < u.cost) ||
      (t.padding.bytes == u.padding.bytes && t.size.bytes == u.size.bytes &&
        t.children.length == u.children.length && t.isExtra == u.isExtra))

end Tree

namespace Link

/-- Whether two links carry like trees, or none. -/
def isLike (a b : Link) : Bool :=
  match a.tree?, b.tree? with
  | none, none => true
  | some t, some u => t.isLike u
  | _, _ => false

/-- The progress that a link adds to that of the cell below. -/
def progress (l : Link) : Nat :=
  (l.tree?.map Tree.progress).getD 0

end Link

namespace Cell

/-- Whether two cells stand in the same state at the same place with the same cost. -/
def agreesWith (c d : Cell) : Bool :=
  c.state == d.state && c.pos.bytes == d.pos.bytes && c.cost == d.cost

end Cell

namespace Stack

/-- What becomes of a link that is added to a cell. -/
inductive Joining where
  | repeats
  | mergesInto (cell : Nat)
  | isNew

/-- What becomes of the link `l` when it is added to the cell number `n`. -/
def joining (s : Stack) (n : Nat) (l : Link) : Joining :=
  if l.below = n then .repeats
  else
    let known := (s.cell n).links.findSome? fun old =>
      if !old.isLike l then none
      else if old.below = l.below then some .repeats
      else if (s.cell old.below).agreesWith (s.cell l.below) then some (.mergesInto old.below)
      else none
    known.getD .isNew

/-- Appends a link to the cell number `n`, unless it has as many as it may have. -/
def appendLink (s : Stack) (n : Nat) (l : Link) : Stack :=
  let c := s.cell n
  if maxLinks ≤ c.links.length then s
  else
    let progress := max c.progress ((s.cell l.below).progress + l.progress)
    ⟨s.cells.setIfInBounds n { c with progress := progress, links := c.links ++ [l] }, s.heads⟩

/-- Adds a link to the cell number `n`; the fuel bounds how deep merging goes. -/
def addLink : Nat → Stack → Nat → Link → Stack
  | 0, s, _, _ => s
  | fuel + 1, s, n, l =>
    match s.joining n l with
    | .repeats => s
    | .mergesInto m => (s.cell l.below).links.foldl (fun s l => addLink fuel s m l) s
    | .isNew => s.appendLink n l

/-- Whether two versions can be merged. -/
def canMerge (s : Stack) (v w : Nat) : Bool :=
  s.isActive v && s.isActive w && (s.top v).agreesWith (s.top w)

/-- Merges the version `w` into the version `v`. In the error state the progress is marked. -/
def join (s : Stack) (v w : Nat) : Stack :=
  let n := (s.head v).cell
  let links := (s.top w).links
  let s := links.foldl (fun s l => addLink (s.cells.size + 1) s n l) s
  let s :=
    if s.state v = errorState then
      let progress := (s.top v).progress
      s.modifyHead v fun h => { h with mark := progress }
    else s
  s.remove w

/-- Merges the version `w` into the version `v`, if that is possible. -/
def merge? (s : Stack) (v w : Nat) : Option Stack :=
  if s.canMerge v w then some (s.join v w) else none

/-- Merges the version `w` into the first of the versions `candidates` that it can be merged with.
-/
def mergeInto? (s : Stack) (candidates : List Nat) (w : Nat) : Option Stack :=
  (candidates.find? fun v => s.canMerge v w).map fun v => s.join v w

end Stack

end SusSyntax
