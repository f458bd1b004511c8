import SusSyntax.Proofs.Grammar.Entries
import SusSyntax.Proofs.Parse.Succeeds

/-!
The machine of the table never gets stuck.

The states of a run are the states behind the trees of a stack (`Machine.IsStack`). So under the
children of every reduction that the table has for a configuration there is a state that goes on
with the rule, and the machine stops only where the table accepts or has no entry
(`progress_of_table`).
-/

namespace SusSyntax.Grammar

namespace State

variable {s n : State} {t : Token} {rule : Rule}

/-- Whether an action leads to a state of the table. -/
def isInside : Action → Bool
  | .shift n | .shiftRepeat n => Nat.blt n stateCount
  | _ => true

/-- All shifts lead to states of the table. -/
theorem lt_stateCount_of_shift
    (h : .shift n ∈ (s.row.entry t).actions ∨ .shiftRepeat n ∈ (s.row.entry t).actions) :
    n < stateCount := by
  have checked (a : Action) (h : a ∈ (s.row.entry t).actions) : isInside a = true :=
    action_holds (fun _ _ _ a => isInside a) (by decide +kernel) h
  rcases h with h | h
  · exact Nat.blt_eq.mp (checked (.shift n) h)
  · exact Nat.blt_eq.mp (checked (.shiftRepeat n) h)

/-- All gotos lead to states of the table, and never to the error state. -/
theorem lt_stateCount_of_goto? (h : s.row.goto? rule = some n) :
    n ≠ errorState ∧ n < stateCount := by
  have holds := goto_holds (fun _ _ n => Nat.blt n stateCount) (by decide +kernel) h
  exact ⟨(next_of_goto? h).2, Nat.blt_eq.mp holds⟩

theorem lt_stateCount_of_next {x : Symbol} (ne : s.next x ≠ errorState) :
    s.next x < stateCount := by
  rcases next_cases s x with h | ⟨t, a, rfl, mem, rfl | rfl | ⟨rfl, same⟩⟩ | ⟨r, rfl, found⟩
  · exact absurd h ne
  · exact lt_stateCount_of_shift (.inl mem)
  · exact lt_stateCount_of_shift (.inr mem)
  · rw [same]
    exact lt_of_mem_actions mem
  · exact (lt_stateCount_of_goto? found).2

end State

namespace Machine

/-! ### Stacks -/

/-- The states behind the trees of a stack, with the state that a parse begins in below them. -/
def IsStack (states : List State) : Prop :=
  ∃ frames, Plain.Carries startState frames states

variable {c d : Config} {s : State} {below : List State} {w : List Token} {a : Action}
  {xs : List Action}

namespace IsStack

theorem initial : IsStack [startState] :=
  ⟨[], .start⟩

theorem exists_cons {states : List State} (h : IsStack states) : ∃ s below, states = s :: below := by
  obtain ⟨frames, carries⟩ := h
  cases carries <;> exact ⟨_, _, rfl⟩

theorem run (h : IsStack c.states) (run : Run c xs d) : IsStack d.states := by
  obtain ⟨frames, carries⟩ := h
  obtain ⟨built, _, carries⟩ := run.carries carries
  exact ⟨built, carries⟩

theorem ne_errorState (h : IsStack (s :: below)) : s ≠ errorState := by
  obtain ⟨frames, carries⟩ := h
  exact carries.ne_errorState (by decide)

/-- What lies below some states of a stack is a stack. -/
theorem drop {size : Nat} {states : List State} {q : State} (h : IsStack states)
    (dropped : states.drop size = q :: below) : IsStack (q :: below) := by
  obtain ⟨frames, carries⟩ := h
  obtain ⟨_, left, _, carries⟩ := carries.pop dropped
  exact ⟨left, carries⟩

theorem lt_stateCount (h : IsStack (s :: below)) : s < stateCount := by
  obtain ⟨frames, carries⟩ := h
  generalize same : s :: below = states at carries
  induction carries generalizing s below with
  | start =>
    obtain ⟨rfl, _⟩ := List.cons.inj same
    decide +kernel
  | inside _ _ _ ne =>
    obtain ⟨rfl, _⟩ := List.cons.inj same
    exact State.lt_stateCount_of_next ne
  | extra _ _ ih => exact ih same

/-- A rule that a state goes on with can be put on it. -/
theorem push {rule : Rule} {n : State} (h : IsStack (s :: below)) (found : s.row.goto? rule = some n) :
    IsStack (n :: s :: below) := by
  obtain ⟨frames, carries⟩ := h
  exact ⟨_, carries.putNode found 0 []⟩

/-- What lies under some states of a stack is found by looking back from the topmost one. -/
theorem mem_before {above rest : List State} {q : State} (h : IsStack (s :: below))
    (split : s :: below = above ++ q :: rest) : q ∈ State.before above.length [s] := by
  obtain ⟨frames, carries⟩ := h
  have dropped : (s :: below).drop above.length = q :: rest := by
    rw [split, List.drop_left]
  obtain ⟨xs, length, free, way⟩ := carries.exists_through dropped
  have top : q.through xs = s := (Option.some.inj way).symm
  rw [← length]
  exact State.mem_before free (by rw [top]; exact carries.ne_errorState (by decide))
    (List.mem_singleton.mpr top)

/-- The state under the children of a reduction goes on with the rule. -/
theorem exists_goto {rule : Rule} {size layout : Nat} {t : Token} (h : IsStack (s :: below))
    (known : .reduce rule size layout ∈ (s.row.entry t).actions) :
    ∃ above q rest n, s :: below = above ++ q :: rest ∧ above.length = size ∧
      q.row.goto? rule = some n := by
  obtain ⟨frames, carries⟩ := h
  have deep := carries.size_le known
  obtain ⟨_, _, q, rest, n, _, dropped, _, found, _⟩ := carries.reduce known deep
  refine ⟨(s :: below).take size, q, rest, n, ?_, ?_, found⟩
  · rw [← dropped, List.take_append_drop]
  · rw [List.length_take, List.length_cons]
    omega

end IsStack

/-! ### Progress -/

/-- A configuration in which nothing gets stuck. -/
structure Config.IsUnstuck (c : Config) : Prop where
  /-- Each of its states is one of the table, and none is the error state. -/
  known : ∀ s ∈ c.states, s ≠ errorState ∧ s < stateCount
  /-- There are enough states over the bottom one for every reduction, and the state that lies bare
  then goes on with the rule. -/
  reduces : ∀ {rule : Rule} {size layout : Nat}, .reduce rule size layout ∈ c.actions →
    ∃ above s below n, c.states = above ++ s :: below ∧ above.length = size ∧
      s.row.goto? rule = some n ∧ n ≠ errorState ∧ n < stateCount
  /-- The machine stops only where the table accepts or has no entry. -/
  stops : (∀ a d, ¬Step c a d) → c.actions = [.accept] ∨ c.actions = []

theorem IsStack.known {states : List State} (h : IsStack states) :
    ∀ s ∈ states, s ≠ errorState ∧ s < stateCount := by
  intro s mem
  obtain ⟨above, below, rfl⟩ := List.append_of_mem mem
  have dropped : (above ++ s :: below).drop above.length = s :: below := List.drop_left
  have stack : IsStack (s :: below) := h.drop dropped
  exact ⟨stack.ne_errorState, stack.lt_stateCount⟩

/-- A configuration with a reduction takes a step. -/
theorem IsStack.exists_step {rule : Rule} {size layout : Nat} (h : IsStack c.states)
    (known : .reduce rule size layout ∈ c.actions) :
    ∃ d, Step c (.reduce rule size layout) d := by
  obtain ⟨states, ahead⟩ := c
  obtain ⟨s, below, rfl⟩ := h.exists_cons
  obtain ⟨above, q, rest, n, split, length, found⟩ := h.exists_goto known
  have dropped : (s :: below).drop size = q :: rest := by
    rw [split, ← length, List.drop_left]
  exact ⟨_, .reduce known dropped found⟩

theorem IsStack.isUnstuck (h : IsStack c.states) : c.IsUnstuck := by
  refine ⟨h.known, fun known => ?_, fun none => ?_⟩
  · obtain ⟨states, ahead⟩ := c
    obtain ⟨s, below, rfl⟩ := h.exists_cons
    obtain ⟨above, q, rest, n, split, length, found⟩ := h.exists_goto known
    exact ⟨above, q, rest, n, split, length, found, State.lt_stateCount_of_goto? found⟩
  · have noReduction {rule : Rule} {size layout : Nat} :
        .reduce rule size layout ∉ c.actions := by
      intro known
      obtain ⟨d, step⟩ := h.exists_step known
      exact none _ d step
    obtain ⟨states, ahead⟩ := c
    obtain ⟨s, below, rfl⟩ := h.exists_cons
    have form : Action.Form (Config.actions ⟨s :: below, ahead⟩) :=
      State.form_entry h.ne_errorState (.token _)
    generalize same : Config.actions ⟨s :: below, ahead⟩ = actions at form noReduction ⊢
    cases form with
    | none => exact .inr rfl
    | accept => exact .inl rfl
    | reduce | repeats | choice => exact absurd List.mem_cons_self noReduction
    | shift n =>
      have known : .shift n ∈ Config.actions ⟨s :: below, ahead⟩ := same ▸ List.mem_cons_self
      cases ahead with
      | nil => exact absurd rfl (State.ne_eof_of_shift known)
      | cons t rest => exact absurd (.shift known) (none _ _)
    | shiftExtra =>
      have known : .shiftExtra ∈ Config.actions ⟨s :: below, ahead⟩ := same ▸ List.mem_cons_self
      cases ahead with
      | nil => cases State.isComment_of_shiftExtra known
      | cons t rest => exact absurd (.shiftExtra known) (none _ _)

/-- Every shift and every goto leads to one of the 230 states, a goto never to the error state; and on
whatever tokens, no run comes to a configuration in which it gets stuck. -/
theorem progress_of_table :
    stateCount = 230 ∧
      (∀ (s n : State) (t : Token), .shift n ∈ (s.row.entry t).actions ∨
        .shiftRepeat n ∈ (s.row.entry t).actions → n < stateCount) ∧
      (∀ (s n : State) (rule : Rule), s.row.goto? rule = some n → n ≠ errorState ∧ n < stateCount) ∧
      ∀ (w : List Token) (xs : List Action) (c : Config), Run (.initial w) xs c → c.IsUnstuck := by
  refine ⟨by decide +kernel, fun s n t => State.lt_stateCount_of_shift,
    fun s n rule => State.lt_stateCount_of_goto?, fun w xs c run => ?_⟩
  have stack : IsStack c.states := IsStack.initial.run run
  exact stack.isUnstuck

/-- Behind two line breaks both are reduced, and the state that a parse begins in lies under them. -/
theorem progress_of_table_linebreaks :
    Run (.initial [.newline, .newline, .moduleKw]) [.shift 94, .shift 98]
        ⟨[98, 94, startState], [.moduleKw]⟩ ∧
      .reduce .linebreak 2 0 ∈ Config.actions ⟨[98, 94, startState], [.moduleKw]⟩ ∧
      Config.IsUnstuck ⟨[98, 94, startState], [.moduleKw]⟩ := by
  have run : Run (.initial [.newline, .newline, .moduleKw]) [.shift 94, .shift 98]
      ⟨[98, 94, startState], [.moduleKw]⟩ :=
    run_iff_carryOut.mpr (by decide +kernel)
  exact ⟨run, by decide +kernel, progress_of_table.2.2.2 _ _ _ run⟩

end Machine

end SusSyntax.Grammar
