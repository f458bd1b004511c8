import SusSyntax.Proofs.Grammar.Completions

/-!
Reductions come to an end.

A reduction makes a stack lighter, whatever is ahead (`Step.load_lt`). So the load of a stack bounds
the reductions that can be made before the next shift (`Run.length_le_load`). A shift makes the stack
heavier by less than what one token ahead counts, so every step uses up some of the allowance of a
configuration (`Step.allowance_lt`), and a run on tokens is no longer than the allowance that it
begins with. It ends where the table accepts or has no entry (`reductions_terminate`).
-/

namespace SusSyntax.Grammar.Machine

open Plain (load)

variable {c d : Config} {a : Action} {xs : List Action} {s : State} {below : List State}

/-! ### Reductions -/

/-- A reduction makes a stack lighter. -/
theorem Step.load_lt (step : Step c a d) (stack : IsStack c.states) (reduces : IsReduction a) :
    load d.states < load c.states := by
  obtain ⟨frames, carries⟩ := stack
  cases step with
  | shift | shiftExtra =>
    obtain ⟨rule, size, layout, never⟩ := reduces
    cases never
  | @reduce c rule size layout q target rest known dropped found =>
    obtain ⟨states, ahead⟩ := c
    obtain ⟨s, below, rfl⟩ := carries.exists_eq_cons
    obtain ⟨_, _, q', rest', n, _, dropped', _, found', _, lighter⟩ :=
      carries.reduce known (carries.size_le known)
    obtain ⟨rfl, rfl⟩ := List.cons.inj (dropped.symm.trans dropped')
    obtain rfl := Option.some.inj (found.symm.trans found')
    exact lighter

/-- The load of a stack bounds the reductions that can be made on it. -/
theorem Run.length_le_load (run : Run c xs d) (stack : IsStack c.states)
    (reduces : ∀ x ∈ xs, IsReduction x) : xs.length + load d.states ≤ load c.states := by
  induction run with
  | done => simp
  | step step run ih =>
    obtain ⟨first, others⟩ := List.forall_mem_cons.mp reduces
    have lighter := step.load_lt stack first
    have rest := ih (stack.run (.single step)) others
    rw [List.length_cons]
    omega

theorem load_le (s : State) (below : List State) :
    load (s :: below) ≤ 8 * (s :: below).length + 9 :=
  Nat.add_le_add_left s.weight_le _

/-! ### Whole runs -/

/-- What the steps of a run use up. A shift puts a state on the stack, which counts eight, and the
state on top is heavier than the last by nine at most. -/
def Config.allowance (c : Config) : Nat :=
  load c.states + 18 * c.ahead.length

/-- Every step uses some of the allowance up. -/
theorem Step.allowance_lt (step : Step c a d) (stack : IsStack c.states) :
    d.allowance < c.allowance := by
  cases step with
  | @shift s target below t rest known =>
    have heavier := target.weight_le
    simp only [Config.allowance, load, List.length_cons, List.headD_cons]
    omega
  | shiftExtra =>
    simp only [Config.allowance, List.length_cons]
    omega
  | reduce known dropped found =>
    have lighter := (Step.reduce known dropped found).load_lt stack ⟨_, _, _, rfl⟩
    exact Nat.add_lt_add_right lighter _

theorem Run.length_le_allowance (run : Run c xs d) (stack : IsStack c.states) :
    xs.length + d.allowance ≤ c.allowance := by
  induction run with
  | done => simp
  | step step run ih =>
    have less := step.allowance_lt stack
    have rest := ih (stack.run (.single step))
    rw [List.length_cons]
    omega

/-- No step goes on from a configuration. -/
def Config.Halts (c : Config) : Prop :=
  ∀ a d, ¬Step c a d

/-- A run can be continued until no step goes on. -/
theorem IsStack.exists_halt (stack : IsStack c.states) : ∃ xs d, Run c xs d ∧ d.Halts := by
  generalize bound : c.allowance = n
  induction n using Nat.strongRecOn generalizing c with
  | ind n ih =>
    by_cases halts : c.Halts
    · exact ⟨[], c, .done, halts⟩
    · obtain ⟨a, d, step⟩ : ∃ a d, Step c a d := by
        simpa [Config.Halts] using halts
      have less := step.allowance_lt stack
      obtain ⟨xs, e, run, halts⟩ := ih d.allowance (bound ▸ less) (stack.run (.single step)) rfl
      exact ⟨a :: xs, e, .step step run, halts⟩

/-- On a stack that the machine has come to, only so many reductions can be made one after another,
whatever is ahead and whichever are taken. So a run takes only so many steps for the tokens that it
is on, can be continued until none goes on, and then the table accepts or has no entry. -/
theorem reductions_terminate {w : List Token} (run : Run (.initial w) xs c) :
    (∀ ahead ys d, Run ⟨c.states, ahead⟩ ys d → (∀ y ∈ ys, IsReduction y) →
      ys.length ≤ 8 * c.states.length + 9) ∧
    xs.length ≤ 18 * w.length + 17 ∧
    (∃ ys d, Run c ys d ∧ d.Halts) ∧
    (c.Halts → c.actions = [.accept] ∨ c.actions = []) := by
  have stack : IsStack c.states := IsStack.initial.run run
  refine ⟨fun ahead ys d chain reduces => ?_, ?_, stack.exists_halt, stack.isUnstuck.stops⟩
  · have bounded := chain.length_le_load stack reduces
    obtain ⟨s, below, split⟩ := stack.exists_cons
    have le := load_le s below
    dsimp only at bounded
    rw [split] at bounded ⊢
    omega
  · have begins : (Config.initial w).allowance = 17 + 18 * w.length := rfl
    have bounded := run.length_le_allowance .initial
    omega

/-- A name at the beginning of a statement is reduced three times before a bracket, the last time as
a type and not as an expression. On that stack of five states no more than 49 reductions can follow,
whatever is ahead, and the run can be continued until it ends. -/
theorem reductions_terminate_choice :
    Run (.initial [.moduleKw, .identifier, .lbrace, .identifier, .lbracket])
      [.shift 223, .shift 158, .shift 2, .shift 12, .reduce .namespaceList 1 1,
        .reduce .templateGlobal 1 3, .reduce .type 1 0]
      ⟨[177, 2, 158, 223, 1], [.lbracket]⟩ ∧
    (∀ ahead ys d, Run ⟨[177, 2, 158, 223, 1], ahead⟩ ys d → (∀ y ∈ ys, IsReduction y) →
      ys.length ≤ 49) ∧
    ∃ ys d, Run ⟨[177, 2, 158, 223, 1], [.lbracket]⟩ ys d ∧ d.Halts := by
  have run : Run (.initial [.moduleKw, .identifier, .lbrace, .identifier, .lbracket])
      [.shift 223, .shift 158, .shift 2, .shift 12, .reduce .namespaceList 1 1,
        .reduce .templateGlobal 1 3, .reduce .type 1 0]
      ⟨[177, 2, 158, 223, 1], [.lbracket]⟩ :=
    run_iff_carryOut.mpr (by decide +kernel)
  obtain ⟨chains, _, ends, _⟩ := reductions_terminate run
  exact ⟨run, chains, ends⟩

end SusSyntax.Grammar.Machine
