import SusSyntax.Tree.Node

/-!
Walking over the nodes of a tree.

A cursor stands at a node and remembers the way to it. It goes to the first node below, to the next
one beside, or back up; `leave?` passes over what is below a node. Each step leaves fewer nodes to
be visited (`remaining`).
-/

namespace SusSyntax.Node

mutual

/-- The number of nodes from a node down. -/
def count : Node → Nat
  | ⟨_, _, _, _, _, _, _, _, children⟩ => countAll children + 1

/-- The number of nodes from several nodes down. -/
def countAll : List Node → Nat
  | [] => 0
  | n :: rest => n.count + countAll rest

end

theorem count_eq (n : Node) : n.count = countAll n.children + 1 := by
  cases n
  rfl

/-- A place in a tree: a node, the nodes behind it in the same parent, and its ancestors from the
parent on, each with the nodes behind it. -/
structure Cursor where
  node : Node
  behind : List Node
  above : List (Node × List Node)

namespace Cursor

/-- At the root of a tree. -/
def ofRoot (root : Node) : Cursor :=
  ⟨root, [], []⟩

/-- At the first node below. -/
def firstChild? (c : Cursor) : Option Cursor :=
  match c.node.children with
  | [] => none
  | n :: rest => some ⟨n, rest, (c.node, c.behind) :: c.above⟩

/-- At the next node in the same parent. -/
def nextSibling? (c : Cursor) : Option Cursor :=
  match c.behind with
  | [] => none
  | n :: rest => some ⟨n, rest, c.above⟩

/-- At the parent. -/
def parent? (c : Cursor) : Option Cursor :=
  match c.above with
  | [] => none
  | (n, behind) :: above => some ⟨n, behind, above⟩

theorem lt_of_parent? {c up : Cursor} (h : c.parent? = some up) :
    up.above.length < c.above.length := by
  obtain ⟨node, behind, above⟩ := c
  cases above with
  | nil => cases h
  | cons frame above =>
    obtain rfl := Option.some.inj h
    exact Nat.lt_succ_self _

/-- At the next node in the order of the text that is not below this one. -/
def leave? (c : Cursor) : Option Cursor :=
  match c.nextSibling? with
  | some next => some next
  | none =>
    match _found : c.parent? with
    | some up => up.leave?
    | none => none
termination_by c.above.length
decreasing_by exact lt_of_parent? _found

/-- How many nodes are still to be visited, this one included. -/
def remaining (c : Cursor) : Nat :=
  c.node.count + countAll c.behind + c.above.foldr (fun frame n => countAll frame.2 + n) 0

theorem remaining_of_firstChild? {c below : Cursor} (h : c.firstChild? = some below) :
    below.remaining < c.remaining := by
  obtain ⟨node, behind, above⟩ := c
  unfold firstChild? at h
  split at h
  · cases h
  · rename_i n rest children
    obtain rfl := Option.some.inj h
    have whole : node.count = n.count + countAll rest + 1 := by
      rw [count_eq, show node.children = n :: rest from children, countAll]
    simp only [remaining, whole, List.foldr_cons]
    omega

/-- Only the nodes from this one down are left. -/
theorem remaining_of_leave? {c next : Cursor} (h : c.leave? = some next) :
    next.remaining + c.node.count = c.remaining := by
  fun_induction leave? c with
  | case1 c next' beside =>
    obtain rfl := Option.some.inj h
    obtain ⟨node, behind, above⟩ := c
    cases behind with
    | nil => cases beside
    | cons n rest =>
      obtain rfl := Option.some.inj beside
      simp only [remaining, countAll]
      omega
  | case2 c last up found ih =>
    have same := ih h
    obtain ⟨node, behind, above⟩ := c
    cases behind with
    | cons n rest => cases last
    | nil =>
      cases above with
      | nil => cases found
      | cons frame above =>
        obtain rfl := Option.some.inj found
        simp only [remaining, countAll, List.foldr_cons] at same ⊢
        omega
  | case3 => cases h

theorem remaining_lt_of_leave? {c next : Cursor} (h : c.leave? = some next) :
    next.remaining < c.remaining := by
  have same := remaining_of_leave? h
  rw [count_eq] at same
  omega

end Cursor

end SusSyntax.Node
