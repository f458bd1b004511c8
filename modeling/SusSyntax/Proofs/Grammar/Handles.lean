import Mathlib.Algebra.Group.Nat.Defs
import SusSyntax.Proofs.Grammar.Spans
import SusSyntax.Proofs.Grammar.Transitions

/-!
What has been read when a rule is reduced.

The symbols on the way to a state that reduces a rule always fit the body of the rule, and the
layout gives each of them the field that it has there (`spans_of_reduce`). The ways into a state are
as many as there are ways through the automaton, but a reduction looks back over a few symbols
only. These are collected from the state backwards, and every sequence of them is matched.
-/

namespace SusSyntax.Grammar

/-! ### Edges -/

/-- An edge of the automaton: a symbol leads from one state to another. -/
structure Edge where
  source : State
  symbol : Symbol
  target : State

/-- The edges of all symbols but comments. -/
def edges : List Edge :=
  rows.zipIdx.flatMap fun x =>
    (x.1.entries.flatMap fun e => e.1.actions.flatMap fun
      | .shift n | .shiftRepeat n => e.2.map fun t => ⟨x.2, .token t, n⟩
      | _ => []) ++
    x.1.gotos.map fun g => ⟨x.2, .rule g.1, g.2⟩

/-- Where a symbol leads to a state, there is an edge. -/
theorem mem_edges {s : State} {x : Symbol} (ne : s.next x ≠ errorState)
    (inside : ∀ t, x = .token t → t.isComment = false) : ⟨s, x, s.next x⟩ ∈ edges := by
  rcases State.next_cases s x with h | ⟨t, a, rfl, mem, kind⟩ | ⟨r, rfl, found⟩
  · exact absurd h ne
  · obtain ⟨ts, entry, known⟩ := Row.mem_entries mem
    refine List.mem_flatMap.mpr ⟨_, State.mem_rows (State.lt_of_mem_actions mem), ?_⟩
    refine List.mem_append.mpr (.inl ?_)
    refine List.mem_flatMap.mpr ⟨_, entry, List.mem_flatMap.mpr ⟨a, mem, ?_⟩⟩
    rcases kind with rfl | rfl | ⟨rfl, _⟩
    · exact List.mem_map.mpr ⟨t, known, rfl⟩
    · exact List.mem_map.mpr ⟨t, known, rfl⟩
    · have comment := State.isComment_of_shiftExtra mem
      rw [inside t rfl] at comment
      cases comment
  · refine List.mem_flatMap.mpr ⟨_, State.mem_rows (State.lt_of_goto? found), ?_⟩
    have goto := Row.mem_gotos found
    generalize s.next (.rule r) = n at goto
    exact List.mem_append.mpr (.inr (List.mem_map.mpr ⟨_, goto, rfl⟩))

/-- Edges, sorted by their targets. -/
inductive EdgeTree where
  | leaf (edges : List Edge)
  | fork (bound : State) (below above : EdgeTree)

namespace EdgeTree

/-- Sorts edges whose targets begin with `first`. -/
def sort : Nat → State → List Edge → EdgeTree
  | 0, _, es => .leaf es
  | depth + 1, first, es =>
    .fork (first + 2 ^ depth)
      (sort depth first (es.filter fun e => Nat.blt e.target (first + 2 ^ depth)))
      (sort depth (first + 2 ^ depth) (es.filter fun e => Nat.ble (first + 2 ^ depth) e.target))

/-- The edges at a target. -/
def find (s : State) : EdgeTree → List Edge
  | leaf es => es
  | fork bound below above => bif Nat.ble bound s then above.find s else below.find s

theorem mem_find_sort {depth : Nat} {first : State} {e : Edge} {es : List Edge} (h : e ∈ es) :
    e ∈ (sort depth first es).find e.target := by
  induction depth generalizing first es with
  | zero => exact h
  | succ depth ih =>
    rw [sort, find]
    cases above : Nat.ble (first + 2 ^ depth) e.target with
    | true => exact ih (List.mem_filter.mpr ⟨h, above⟩)
    | false =>
      refine ih (List.mem_filter.mpr ⟨h, ?_⟩)
      rw [Nat.blt_eq, ← Nat.not_le, ← Nat.ble_eq, above]
      exact Bool.false_ne_true

end EdgeTree

/-- All edges, sorted. -/
def sortedEdges : EdgeTree :=
  .sort 8 0 edges

/-! ### Looking back -/

namespace State

/-- The state behind several symbols. -/
def through (s : State) (xs : List Symbol) : State :=
  xs.foldl State.next s

@[simp] theorem through_append (s : State) (xs ys : List Symbol) :
    s.through (xs ++ ys) = (s.through xs).through ys :=
  List.foldl_append

@[simp] theorem through_errorState (xs : List Symbol) :
    through errorState xs = errorState := by
  induction xs with
  | nil => rfl
  | cons x xs ih =>
    unfold through at ih ⊢
    rw [List.foldl_cons, next_errorState, ih]

/-- The edges into several states. -/
def edgesInto (states : List State) : List Edge :=
  states.flatMap fun s => sortedEdges.find s

/-- The symbols that lie before any of several states, at each of the last `count` places. -/
def lastSymbols : Nat → List State → List (List Symbol)
  | 0, _ => []
  | count + 1, states =>
    lastSymbols count ((edgesInto states).map Edge.source).eraseDups ++
      [((edgesInto states).map Edge.symbol).eraseDups]

end State

/-- All sequences with an element of each list. -/
def sequences {α : Type} : List (List α) → List (List α)
  | [] => [[]]
  | xs :: rest => xs.flatMap fun x => (sequences rest).map (x :: ·)

theorem sequences_concat {α : Type} {xss : List (List α)} {ys xs : List α} {x : α}
    (h : xs ∈ sequences xss) (mem : x ∈ ys) : xs ++ [x] ∈ sequences (xss ++ [ys]) := by
  induction xss generalizing xs with
  | nil =>
    obtain rfl := List.mem_singleton.mp h
    exact List.mem_flatMap.mpr ⟨x, mem, List.mem_singleton.mpr rfl⟩
  | cons zs xss ih =>
    obtain ⟨z, first, rest⟩ := List.mem_flatMap.mp h
    obtain ⟨ws, known, rfl⟩ := List.mem_map.mp rest
    exact List.mem_flatMap.mpr ⟨z, first, List.mem_map.mpr ⟨_, ih known, rfl⟩⟩

namespace State

/-- The last symbol on the way to a state is that of an edge to it. -/
theorem mem_edgesInto {s : State} {front : List Symbol} {x : Symbol} {states : List State}
    (inside : ∀ t, .token t ∈ front ++ [x] → t.isComment = false)
    (ne : s.through (front ++ [x]) ≠ errorState) (mem : s.through (front ++ [x]) ∈ states) :
    s.through front ≠ errorState ∧
      ⟨s.through front, x, (s.through front).next x⟩ ∈ edgesInto states := by
  rw [through_append] at ne mem
  constructor
  · intro same
    rw [same, through_errorState] at ne
    exact ne rfl
  · exact List.mem_flatMap.mpr ⟨_, mem, EdgeTree.mem_find_sort (mem_edges ne fun t same =>
      inside t (List.mem_append_right _ (List.mem_singleton.mpr same.symm)))⟩

/-- The symbols on the way to a state are found by looking back from it. -/
theorem mem_lastSymbols {s : State} {xs : List Symbol} {states : List State}
    (inside : ∀ t, .token t ∈ xs → t.isComment = false) (ne : s.through xs ≠ errorState)
    (mem : s.through xs ∈ states) : xs ∈ sequences (lastSymbols xs.length states) := by
  generalize length : xs.length = count
  induction count generalizing xs states with
  | zero =>
    obtain rfl := List.length_eq_zero_iff.mp length
    exact List.mem_singleton.mpr rfl
  | succ count ih =>
    obtain rfl | ⟨front, x, rfl⟩ := List.eq_nil_or_concat xs
    · cases length
    · rw [List.concat_eq_append] at *
      obtain ⟨before, edge⟩ := mem_edgesInto inside ne mem
      refine sequences_concat (ih (fun t mem => inside t (List.mem_append_left _ mem)) before ?_
        (by simpa using length)) ?_
      · exact List.mem_eraseDups.mpr (List.mem_map.mpr ⟨_, edge, rfl⟩)
      · exact List.mem_eraseDups.mpr (List.mem_map.mpr ⟨_, edge, rfl⟩)

end State

/-! ### Reductions -/

/-- Symbols with the fields that a layout gives to them. -/
def Layout.parts (layout : Nat) (xs : List Symbol) : List Part :=
  xs.zipIdx.map fun x => (x.1, Layout.field? layout x.2)

theorem reductions_fit :
    (rows.zipIdx.all fun x => x.1.entries.all fun e => e.1.actions.all fun
      | .reduce r size layout => (sequences (State.lastSymbols size [x.2])).all fun xs =>
          r.fits (Layout.parts layout xs)
      | _ => true) = true := by
  decide +kernel

/-- The symbols that a rule is reduced from are a phrase for its body, with the fields of the
layout. -/
theorem spans_of_reduce {s n : State} {xs : List Symbol} {t : Token} {r : Rule} {layout : Nat}
    (inside : ∀ t, .token t ∈ xs → t.isComment = false) (way : s.through xs = n)
    (h : .reduce r xs.length layout ∈ (n.row.entry t).actions) :
    Phrase.Spans none r.body (Layout.parts layout xs) := by
  have ne : s.through xs ≠ errorState := by
    rw [way]
    exact State.ne_errorState_of_reduce h
  obtain ⟨_, -, fit⟩ := State.reduction_holds (fun s _ r size layout =>
    (sequences (State.lastSymbols size [s])).all fun xs => r.fits (Layout.parts layout xs))
    reductions_fit h
  have mem : xs ∈ sequences (State.lastSymbols xs.length [n]) :=
    State.mem_lastSymbols inside ne (List.mem_singleton.mpr way)
  exact Rule.spans_of_fits (List.all_eq_true.mp fit xs mem)

example : State.lastSymbols 1 [State.acceptState] = [[.rule .sourceFile]] := by decide +kernel

end SusSyntax.Grammar
