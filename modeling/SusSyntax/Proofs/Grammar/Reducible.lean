import SusSyntax.Proofs.Grammar.Handles

/-!
Reductions never get stuck.

Where the table has a reduction, the stack is deep enough for it, and the state that is uncovered
has a goto for the rule (`State.exists_goto_of_reduce`). Reductions also come to an end: every state
has a weight, and a reduction makes a stack lighter if each state on it counts eight times
(`State.weight`). Both are read off the states that can lie some places before a state.
-/

namespace SusSyntax.Grammar.State

/-- The states that can lie `count` places before any of several states. -/
def before : Nat → List State → List State
  | 0, states => states
  | count + 1, states => before count ((edgesInto states).map Edge.source).eraseDups

/-- What lies before a state is found by looking back from it. -/
theorem mem_before {s : State} {xs : List Symbol} {states : List State}
    (inside : ∀ t, .token t ∈ xs → t.isComment = false) (ne : s.through xs ≠ errorState)
    (mem : s.through xs ∈ states) : s ∈ before xs.length states := by
  generalize length : xs.length = count
  induction count generalizing xs states with
  | zero =>
    obtain rfl := List.length_eq_zero_iff.mp length
    exact mem
  | succ count ih =>
    obtain rfl | ⟨front, x, rfl⟩ := List.eq_nil_or_concat xs
    · cases length
    · rw [List.concat_eq_append] at *
      obtain ⟨ne', edge⟩ := mem_edgesInto inside ne mem
      refine ih (fun t mem => inside t (List.mem_append_left _ mem)) ne' ?_ (by simpa using length)
      exact List.mem_eraseDups.mpr (List.mem_map.mpr ⟨_, edge, rfl⟩)

/-- The weight of a state: more than that of any state that the only symbol on top of it can be
reduced to. A parse begins in a state that is heavier than a state of any other kind. -/
def weight (s : State) : Nat :=
  match s with
  | 1 => 9
  | 12 | 103 => 5
  | 17 => 4
  | 51 => 3
  | 50 | 81 | 150 => 2
  | 78 | 80 | 85 | 94 | 113 | 117 | 143 | 161 => 1
  | _ => 0

theorem weight_le (s : State) : s.weight ≤ 9 := by
  unfold weight
  split <;> decide

/-- Whether a reduction of a rule with `size` children can be carried out in a state, whatever lies
below it, and leads to something lighter. -/
def admits (s : State) (rule : Rule) (size : Nat) : Bool :=
  (List.range size).all (fun count => !(before count [s]).contains startState) &&
    (before size [s]).all fun q => match q.row.goto? rule with
      | some n => Nat.blt (8 + n.weight) (8 * size + s.weight)
      | none => false

/-- The reductions of a row, each of them once. -/
def reductionsIn (r : Row) : List (Rule × Nat) :=
  (r.entries.flatMap fun e => e.1.actions.filterMap fun
    | .reduce rule size _ => some (rule, size)
    | _ => none).eraseDups

variable {s n : State} {xs : List Symbol} {t : Token} {rule : Rule} {size layout : Nat}

/-- A property of all reductions of the table, as far as it does not depend on what follows. -/
theorem reductionsIn_holds (check : State → Rule → Nat → Bool)
    (checked : (rows.zipIdx.all fun x => (reductionsIn x.1).all fun r => check x.2 r.1 r.2) = true)
    (h : .reduce rule size layout ∈ (s.row.entry t).actions) : check s rule size = true := by
  obtain ⟨ts, entry, _⟩ := Row.mem_entries h
  have row := List.all_eq_true.mp checked _ (mem_rows (lt_of_mem_actions h))
  refine List.all_eq_true.mp row (rule, size) ?_
  exact List.mem_eraseDups.mpr (List.mem_flatMap.mpr
    ⟨_, entry, List.mem_filterMap.mpr ⟨_, h, rfl⟩⟩)

theorem admits_all :
    (rows.zipIdx.all fun x => (reductionsIn x.1).all fun r => admits x.2 r.1 r.2) = true := by
  decide +kernel

theorem admits_of_reduce (h : .reduce rule size layout ∈ (s.row.entry t).actions) :
    s.admits rule size = true :=
  reductionsIn_holds admits admits_all h

/-- Under the children of a reduction there is a state that has a goto for the rule. -/
theorem exists_goto_of_reduce (inside : ∀ t, .token t ∈ xs → t.isComment = false)
    (way : s.through xs = n) (h : .reduce rule xs.length layout ∈ (n.row.entry t).actions) :
    ∃ m, s.row.goto? rule = some m ∧ 8 + m.weight < 8 * xs.length + n.weight := by
  have ne : s.through xs ≠ errorState := way ▸ ne_errorState_of_reduce h
  have checked := (Bool.and_eq_true_iff.mp (admits_of_reduce h)).2
  have below := mem_before inside ne (List.mem_singleton.mpr way)
  have holds := List.all_eq_true.mp checked s below
  cases goto : s.row.goto? rule with
  | none => rw [goto] at holds; cases holds
  | some m =>
    rw [goto] at holds
    exact ⟨m, rfl, Nat.blt_eq.mp holds⟩

/-- No reduction reaches below the state that a parse begins in. -/
theorem size_le_of_reduce (inside : ∀ t, .token t ∈ xs → t.isComment = false)
    (way : startState.through xs = n) (h : .reduce rule size layout ∈ (n.row.entry t).actions) :
    size ≤ xs.length := by
  rcases Nat.lt_or_ge xs.length size with less | enough
  · have ne : startState.through xs ≠ errorState := way ▸ ne_errorState_of_reduce h
    have checked := (Bool.and_eq_true_iff.mp (admits_of_reduce h)).1
    have holds := List.all_eq_true.mp checked _ (List.mem_range.mpr less)
    have below := mem_before inside ne (List.mem_singleton.mpr way)
    rw [List.contains_iff_mem.mpr below] at holds
    cases holds
  · exact enough

example : admits 51 .expression 1 = true := by decide +kernel

end SusSyntax.Grammar.State
