import SusSyntax.Grammar.Machine
import SusSyntax.Proofs.Grammar.Brackets

/-!
The machine of the table has at most one run that accepts.

Two runs can only part where the table leaves a choice: at a name with a bracket behind it. From
there on the one waits for the name of a declaration and the other goes on with an expression, and
their stacks differ below the bracket only. As long as one of them is in the brackets, so is the
other, and they take the same steps (`InBrackets.step`, `InBrackets.both_closed`). Behind the
brackets they are where they were, with an index read (`not_both`): another bracket leads both into
the brackets again, a name is the end of the second run, and anything else is the end of the first.
-/

namespace SusSyntax.Grammar.Machine

/-- Whether a configuration leads to acceptance. -/
def Succeeds (c : Config) : Prop :=
  ∃ xs d, Run c xs d ∧ d.accepts = true

section Steps

variable {c d e : Config} {a b : Action} {s : State} {below : List State} {w : List Token}

/-! ### Single steps -/

theorem Step.mem_actions (h : Step c a d) : a ∈ c.actions := by
  cases h with
  | shift known => exact known
  | shiftExtra known => exact known
  | reduce known _ _ => exact known

theorem Step.isTaken (h : Step c a d) : a.isTaken = true := by
  cases h <;> rfl

/-- An action leads to one configuration. -/
theorem Step.target_eq (h : Step c a d) (k : Step c a e) : d = e := by
  cases h with
  | shift => cases k with | shift => rfl
  | shiftExtra => cases k with | shiftExtra => rfl
  | reduce _ dropped found =>
    cases k with
    | reduce _ dropped' found' =>
      obtain ⟨rfl, rfl⟩ := List.cons.inj (dropped.symm.trans dropped')
      obtain rfl := Option.some.inj (found.symm.trans found')
      rfl

/-- Two different actions can only be taken at the choice. -/
theorem choice_of_steps (h : Step c a d) (k : Step c b e) (ne : a ≠ b) :
    c.states.head? = some State.choice ∧ c.lookahead = .lbracket ∧
      (a = .reduce .type 1 0 ∧ b = .reduce .expression 1 0 ∨
        a = .reduce .expression 1 0 ∧ b = .reduce .type 1 0) := by
  have first := h.mem_actions
  have second := k.mem_actions
  unfold Config.actions at first second
  split at first
  · cases first
  · rename_i s below states
    rw [states] at second ⊢
    obtain ⟨rfl, rest⟩ := State.choice_of_ne first second h.isTaken k.isTaken ne
    exact ⟨rfl, rest⟩

/-- A configuration that accepts goes no further. -/
theorem Step.not_accepts (h : Step c a d) : c.accepts = false := by
  rw [← Bool.not_eq_true]
  intro accepts
  have accept : .accept ∈ c.actions := List.contains_iff_mem.mp (Bool.and_eq_true_iff.mp accepts).2
  have known := h.mem_actions
  have ne : a ≠ .accept := by
    rintro rfl
    cases h
  unfold Config.actions at accept known
  split at accept
  · cases accept
  · rename_i states
    rw [states] at known
    obtain ⟨_, _, ⟨_, same⟩ | ⟨_, same⟩⟩ :=
      State.choice_of_ne known accept h.isTaken rfl ne <;> cases same

theorem top_of_accepts (h : Config.accepts ⟨s :: below, w⟩ = true) : s = State.acceptState :=
  (State.accept_spec (List.contains_iff_mem.mp (Bool.and_eq_true_iff.mp h).2)).2

/-- What succeeds accepts, or takes a step to something that succeeds. -/
theorem Succeeds.cases (h : Succeeds c) :
    c.accepts = true ∨ ∃ a d, Step c a d ∧ Succeeds d := by
  obtain ⟨xs, d, run, accepts⟩ := h
  cases run with
  | done => exact .inl accepts
  | step step run => exact .inr ⟨_, _, step, _, _, run, accepts⟩

theorem Succeeds.exists_step (h : Succeeds ⟨s :: below, w⟩) (ne : s ≠ State.acceptState) :
    ∃ a d, Step ⟨s :: below, w⟩ a d ∧ Succeeds d :=
  h.cases.resolve_left fun accepts => ne (top_of_accepts accepts)

/-- A comment is passed over. -/
theorem Step.eq_of_isComment {t : Token} (h : Step ⟨s :: below, t :: w⟩ a d)
    (comment : t.isComment = true) : d = ⟨s :: below, w⟩ := by
  obtain rfl := State.eq_shiftExtra_of_isComment h.mem_actions comment
  cases h
  rfl

end Steps

/-! ### In brackets -/

/-- The states that a stack has come to since a bracket was opened, the topmost first. -/
inductive InBrackets : List State → Prop where
  | opened : InBrackets [State.bracket]
  | push {s : State} {u : List State} {x : Symbol} :
      InBrackets (s :: u) → s.next x ≠ errorState →
      (∀ t, x = .token t → t.isComment = false) → InBrackets (s.next x :: s :: u)

namespace InBrackets

variable {s : State} {u v base : List State} {w : List Token} {a : Action} {d : Config}

theorem isBracketed (h : InBrackets (s :: u)) : s.isBracketed = true := by
  generalize same : s :: u = states at h
  induction h generalizing s u with
  | opened =>
    obtain ⟨rfl, _⟩ := List.cons.inj same
    exact State.isBracketed_bracket
  | push _ ne inside ih =>
    obtain ⟨rfl, _⟩ := List.cons.inj same
    exact State.isBracketed_next (ih rfl) ne inside

/-- The symbols read since the bracket lead from it to the topmost state. -/
theorem exists_symbols (h : InBrackets (s :: u)) :
    ∃ xs, xs.length = u.length ∧ (∀ t, .token t ∈ xs → t.isComment = false) ∧
      State.through State.bracket xs = s := by
  generalize same : s :: u = states at h
  induction h generalizing s u with
  | opened =>
    obtain ⟨rfl, rfl⟩ := List.cons.inj same
    exact ⟨[], rfl, fun _ mem => absurd mem List.not_mem_nil, rfl⟩
  | @push _ _ x _ _ inside ih =>
    obtain ⟨rfl, rfl⟩ := List.cons.inj same
    obtain ⟨xs, length, free, rfl⟩ := ih rfl
    refine ⟨xs ++ [x], by simp [length], fun t mem => ?_, State.through_append ..⟩
    rcases List.mem_append.mp mem with mem | mem
    · exact free t mem
    · exact inside t (List.mem_singleton.mp mem).symm

theorem drop {size : Nat} (h : InBrackets u) (less : size < u.length) :
    ∃ s v, u.drop size = s :: v ∧ InBrackets (s :: v) := by
  induction size generalizing u with
  | zero =>
    cases h with
    | opened => exact ⟨_, _, rfl, .opened⟩
    | push h ne inside => exact ⟨_, _, rfl, .push h ne inside⟩
  | succ size ih =>
    cases h with
    | opened => exact absurd less (by simp)
    | push h => exact ih h (by simpa using less)

/-- A step in brackets does not depend on what lies below them, unless it closes them. -/
theorem step (h : InBrackets u) (step : Step ⟨u ++ base, w⟩ a d) :
    (∃ v, InBrackets v ∧ d.states = v ++ base ∧ d.ahead.length ≤ w.length ∧
        ∀ other, Step ⟨u ++ other, w⟩ a ⟨v ++ other, d.ahead⟩) ∨
      u.length = 3 ∧ d.ahead = w ∧ ∃ layout, a = .reduce .arrayBracketExpression 3 layout := by
  obtain ⟨s, u, rfl⟩ : ∃ s v, u = s :: v := by
    cases h <;> exact ⟨_, _, rfl⟩
  cases step with
  | @shift _ target _ t rest known =>
    obtain ⟨rfl, ne⟩ := State.next_of_shift known
    refine .inl ⟨_, .push h ne fun t' same => ?_, rfl, by simp, fun other => .shift known⟩
    obtain rfl := Symbol.token.inj same
    exact State.isComment_eq_false known (by simp)
  | @shiftExtra _ _ t rest known =>
    exact .inl ⟨_, h, rfl, by simp, fun other => .shiftExtra known⟩
  | @reduce _ rule size layout q target rest known dropped found =>
    obtain ⟨rfl, ne⟩ := State.next_of_goto? found
    by_cases less : size < (s :: u).length
    · obtain ⟨p, v, inside, beneath⟩ := h.drop less
      have drop (other : List State) : (s :: u ++ other).drop size = p :: (v ++ other) := by
        rw [List.drop_append_of_le_length (Nat.le_of_lt less), inside]
        rfl
      obtain ⟨rfl, rfl⟩ := List.cons.inj (dropped.symm.trans (drop base))
      refine .inl ⟨_, .push beneath ne (fun t same => by cases same), rfl, Nat.le_refl _,
        fun other => .reduce known (drop other) found⟩
    · obtain ⟨xs, length, free, way⟩ := h.exists_symbols
      have deep : xs.length < size := by
        rw [List.length_cons] at less
        omega
      obtain ⟨rfl, rfl, two⟩ := State.eq_of_reduce_over_bracket free way known deep
      exact .inr ⟨by simp [← length, two], rfl, layout, rfl⟩

/-- Nothing is accepted in brackets. -/
theorem not_accepts (h : InBrackets u) : Config.accepts ⟨u ++ base, w⟩ = false := by
  obtain ⟨s, u, rfl⟩ : ∃ s v, u = s :: v := by
    cases h <;> exact ⟨_, _, rfl⟩
  rw [← Bool.not_eq_true]
  intro accepts
  have inside := h.isBracketed
  have outside : State.isBracketed State.acceptState = false := by
    rw [State.acceptState_eq]
    decide
  rw [top_of_accepts accepts, outside] at inside
  cases inside

/-- Two steps in the same brackets are the same. -/
theorem action_eq {base' : List State} {b : Action} {e : Config} (h : InBrackets u)
    (step : Step ⟨u ++ base, w⟩ a d) (step' : Step ⟨u ++ base', w⟩ b e) : a = b := by
  obtain ⟨s, u, rfl⟩ : ∃ s v, u = s :: v := by
    cases h <;> exact ⟨_, _, rfl⟩
  by_cases same : a = b
  · exact same
  · have choice := (State.choice_of_ne step.mem_actions step'.mem_actions step.isTaken step'.isTaken
      same).1
    exact absurd choice (State.ne_choice_of_isBracketed h.isBracketed)

/-- Closing brackets leaves what lies below them as it is. -/
theorem closed_eq {below : List State} {n : State} {layout : Nat} (three : u.length = 3)
    (step : Step ⟨u ++ s :: below, w⟩ (.reduce .arrayBracketExpression 3 layout) d)
    (goto : s.row.goto? .arrayBracketExpression = some n) : d = ⟨n :: s :: below, w⟩ := by
  generalize all : u ++ s :: below = states at step
  cases step with
  | reduce _ dropped found =>
    rw [← all, List.drop_append, List.drop_of_length_le (Nat.le_of_eq three), three] at dropped
    obtain ⟨rfl, rfl⟩ := List.cons.inj dropped
    obtain rfl := Option.some.inj (found.symm.trans goto)
    rfl

/-- Of two configurations in the same brackets that succeed, both come to the end of the brackets
with the same tokens left. -/
theorem both_closed {s s' n n' : State} {below below' : List State} {c : Config} {xs : List Action}
    (h : InBrackets u) (run : Run ⟨u ++ s :: below, w⟩ xs c) (accepts : c.accepts = true)
    (other : Succeeds ⟨u ++ s' :: below', w⟩)
    (goto : s.row.goto? .arrayBracketExpression = some n)
    (goto' : s'.row.goto? .arrayBracketExpression = some n') :
    ∃ v, v.length ≤ w.length ∧ Succeeds ⟨n :: s :: below, v⟩ ∧ Succeeds ⟨n' :: s' :: below', v⟩ := by
  generalize same : (⟨u ++ s :: below, w⟩ : Config) = first at run
  induction run generalizing u w with
  | done =>
    rw [← same, h.not_accepts] at accepts
    cases accepts
  | @step _ d _ a xs step run ih =>
    subst same
    obtain ⟨b, e, step', succeeds⟩ := other.cases.resolve_left (by simp [h.not_accepts])
    obtain rfl := h.action_eq step step'
    rcases h.step step with ⟨v, inside, states, fewer, any⟩ | ⟨three, ahead, layout, rfl⟩
    · obtain rfl := step'.target_eq (any _)
      obtain ⟨rest, less, closed⟩ := ih (u := v) (w := d.ahead) inside accepts succeeds
        (by rw [← states])
      exact ⟨rest, Nat.le_trans less fewer, closed⟩
    · rw [closed_eq three step goto] at run
      rw [closed_eq three step' goto'] at succeeds
      exact ⟨w, Nat.le_refl _, ⟨xs, _, run, accepts⟩, succeeds⟩

end InBrackets

/-! ### Behind the choice -/

section Choice

variable {s m : State} {below : List State} {w : List Token}

theorem not_both_of_indexed (type : s.row.goto? .arrayType = some State.typeRead)
    (term : s.row.goto? .arrayOp = some m)
    (shorter : ∀ v, v.length < w.length →
      Succeeds ⟨State.typeIndexed :: State.typeRead :: s :: below, v⟩ →
        ¬ Succeeds ⟨State.termIndexed :: m :: s :: below, v⟩)
    (read : Succeeds ⟨State.typeRead :: s :: below, w⟩ → ¬ Succeeds ⟨m :: s :: below, w⟩)
    (first : Succeeds ⟨State.typeIndexed :: State.typeRead :: s :: below, w⟩) :
    ¬ Succeeds ⟨State.termIndexed :: m :: s :: below, w⟩ := by
  intro second
  obtain ⟨a, d, step, after⟩ := first.exists_step (State.ne_acceptState (by decide))
  obtain ⟨b, e, step', after'⟩ := second.exists_step (State.ne_acceptState (by decide))
  by_cases comment :
      (Config.lookahead ⟨State.typeIndexed :: State.typeRead :: s :: below, w⟩).isComment = true
  · cases w with
    | nil => cases comment
    | cons t rest =>
      rw [step.eq_of_isComment comment] at after
      rw [step'.eq_of_isComment comment] at after'
      exact shorter rest (by simp) after after'
  · obtain rfl := (State.action_typeIndexed step.mem_actions).resolve_right comment
    obtain rfl := (State.action_termIndexed step'.mem_actions).2.resolve_right comment
    cases step with
    | reduce _ dropped found =>
      cases step' with
      | reduce _ dropped' found' =>
        obtain ⟨rfl, rfl⟩ := List.cons.inj dropped
        obtain ⟨rfl, rfl⟩ := List.cons.inj dropped'
        obtain rfl := Option.some.inj (found.symm.trans type)
        obtain rfl := Option.some.inj (found'.symm.trans term)
        exact read after after'

theorem not_both_of_read (isTerm : m.IsTermRead)
    (shorter : ∀ v, v.length < w.length →
      (Succeeds ⟨State.typeRead :: s :: below, v⟩ → ¬ Succeeds ⟨m :: s :: below, v⟩) ∧
      (Succeeds ⟨State.typeIndexed :: State.typeRead :: s :: below, v⟩ →
        ¬ Succeeds ⟨State.termIndexed :: m :: s :: below, v⟩))
    (first : Succeeds ⟨State.typeRead :: s :: below, w⟩) : ¬ Succeeds ⟨m :: s :: below, w⟩ := by
  intro second
  have ne : m ≠ State.acceptState := State.ne_acceptState isTerm.mem
  obtain ⟨a, d, step, after⟩ := first.exists_step (State.ne_acceptState (by decide))
  obtain ⟨b, e, step', after'⟩ := second.exists_step ne
  have other := State.action_termRead isTerm step'.mem_actions
  rcases State.action_typeRead step.mem_actions with name | ⟨bracket, rfl⟩ | comment
  · exact other.1 name
  · obtain rfl := other.2 bracket
    cases step with
    | @shift _ _ _ t rest =>
      cases step' with
      | shift =>
        obtain ⟨xs, c, run, accepts⟩ := after
        obtain ⟨v, fewer, closed, closed'⟩ := InBrackets.opened.both_closed run accepts after'
          State.goto_typeRead (State.goto_termRead isTerm)
        exact (shorter v (Nat.lt_succ_of_le fewer)).2 closed closed'
  · cases w with
    | nil => cases comment
    | cons t rest =>
      rw [step.eq_of_isComment comment] at after
      rw [step'.eq_of_isComment comment] at after'
      exact (shorter rest (by simp)).1 after after'

/-- A name with brackets behind it cannot be both a type and an expression. -/
theorem not_both {n : State} (type : s.row.goto? .type = some n)
    (term : s.row.goto? .expression = some m) (first : Succeeds ⟨n :: s :: below, w⟩) :
    ¬ Succeeds ⟨m :: s :: below, w⟩ := by
  obtain ⟨rfl, isTerm, arrayType, arrayOp⟩ := State.gotos_of_choice type term
  have both (k : Nat) : ∀ w : List Token, w.length < k →
      (Succeeds ⟨State.typeRead :: s :: below, w⟩ → ¬ Succeeds ⟨m :: s :: below, w⟩) ∧
      (Succeeds ⟨State.typeIndexed :: State.typeRead :: s :: below, w⟩ →
        ¬ Succeeds ⟨State.termIndexed :: m :: s :: below, w⟩) := by
    induction k with
    | zero => exact fun w less => absurd less (Nat.not_lt_zero _)
    | succ k ih =>
      intro w less
      have shorter := fun v (fewer : v.length < w.length) => ih v (by omega)
      have read := not_both_of_read isTerm shorter
      exact ⟨read, not_both_of_indexed arrayType arrayOp (fun v fewer => (shorter v fewer).2) read⟩
  exact (both (w.length + 1) w (Nat.lt_succ_self _)).1 first

end Choice

/-! ### Runs -/

/-- Two runs from one configuration that accept take the same actions. -/
theorem actions_eq_of_accepts {c d e : Config} {xs ys : List Action} (first : Run c xs d)
    (second : Run c ys e) (accepts : d.accepts = true) (accepts' : e.accepts = true) : xs = ys := by
  induction first generalizing ys with
  | done =>
    cases second with
    | done => rfl
    | step step _ =>
      rw [step.not_accepts] at accepts
      cases accepts
  | @step c d' d a xs step run ih =>
    cases second with
    | done =>
      rw [step.not_accepts] at accepts'
      cases accepts'
    | @step _ e' _ b ys step' run' =>
      by_cases same : a = b
      · subst same
        obtain rfl := step.target_eq step'
        rw [ih run' accepts]
      · have succeeds : Succeeds d' := ⟨xs, d, run, accepts⟩
        have succeeds' : Succeeds e' := ⟨ys, e, run', accepts'⟩
        obtain ⟨_, _, ⟨rfl, rfl⟩ | ⟨rfl, rfl⟩⟩ := choice_of_steps step step' same
        · cases step with
          | reduce _ dropped type =>
            cases step' with
            | reduce _ dropped' term =>
              obtain ⟨rfl, rfl⟩ := List.cons.inj (dropped.symm.trans dropped')
              exact absurd succeeds' (not_both type term succeeds)
        · cases step with
          | reduce _ dropped term =>
            cases step' with
            | reduce _ dropped' type =>
              obtain ⟨rfl, rfl⟩ := List.cons.inj (dropped.symm.trans dropped')
              exact absurd succeeds (not_both type term succeeds')

/-! ### Carrying out actions -/

/-- The configuration that actions lead to, if they can be taken. -/
def carryOut (c : Config) : List Action → Option Config
  | [] => some c
  | a :: xs => if a ∈ c.actions then (c.apply a).bind fun next => carryOut next xs else none

theorem step_iff {c d : Config} {a : Action} : Step c a d ↔ a ∈ c.actions ∧ c.apply a = some d := by
  rw [← mem_moves_iff, Config.moves, List.mem_filterMap]
  constructor
  · rintro ⟨b, mem, taken⟩
    obtain ⟨next, applies, same⟩ := Option.map_eq_some_iff.mp taken
    obtain ⟨rfl, rfl⟩ := Prod.mk.inj same
    exact ⟨mem, applies⟩
  · rintro ⟨mem, applies⟩
    exact ⟨a, mem, by rw [applies]; rfl⟩

theorem run_iff_carryOut {c d : Config} {xs : List Action} :
    Run c xs d ↔ carryOut c xs = some d := by
  constructor
  · intro run
    induction run with
    | done => rfl
    | step step _ ih =>
      obtain ⟨mem, applies⟩ := step_iff.mp step
      rw [carryOut, if_pos mem, applies]
      exact ih
  · intro carried
    induction xs generalizing c with
    | nil =>
      obtain rfl := Option.some.inj carried
      exact .done
    | cons a xs ih =>
      rw [carryOut] at carried
      split at carried
      · rename_i mem
        obtain ⟨next, applies, carried⟩ := Option.bind_eq_some_iff.mp carried
        exact .step (step_iff.mpr ⟨mem, applies⟩) (ih carried)
      · cases carried

theorem acceptsBy_iff {w : List Token} {xs : List Action} :
    AcceptsBy w xs ↔ (carryOut (.initial w) xs).any Config.accepts = true := by
  simp [AcceptsBy, run_iff_carryOut, Option.any_eq_true]

instance (w : List Token) (xs : List Action) : Decidable (AcceptsBy w xs) :=
  decidable_of_iff _ acceptsBy_iff.symm

end SusSyntax.Grammar.Machine
