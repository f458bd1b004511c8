import SusSyntax.Grammar.Machine
import SusSyntax.Proofs.Grammar.Handles

/-!
What the machine of the table accepts is derived from the start symbol.

At every moment the states on the stack have read the tokens before the ones that are left: each
state stands behind a symbol that derives its part of them (`HasRead`). A shift reads one token, and
a reduction puts a rule in the place of symbols that fit its body. Comments are left out here; the
machine passes over them.
-/

namespace SusSyntax.Grammar.Machine

open Phrase

/-- The states of a stack have read these tokens, symbol by symbol. -/
inductive HasRead : List State → List Token → Prop where
  | start : HasRead [startState] []
  | push {s : State} {below : List State} {x : Symbol} {v u : List Token} :
      HasRead (s :: below) v → s.next x ≠ errorState → derivesPart (x, none) u →
      HasRead (s.next x :: s :: below) (v ++ u)

/-- What parts derive does not depend on their fields. -/
theorem yields_of_symbols {xs ys : List Part} {w : List Token} (same : xs.map Prod.fst = ys.map Prod.fst)
    (h : Yields derivesPart xs w) : Yields derivesPart ys w := by
  induction h generalizing ys with
  | nil =>
    obtain rfl := List.map_eq_nil_iff.mp same.symm
    exact .nil
  | @cons x xs v w first _ ih =>
    cases ys with
    | nil => cases same
    | cons y ys =>
      obtain ⟨symbol, rest⟩ := List.cons.inj same
      refine .cons ?_ (ih rest)
      unfold derivesPart at first ⊢
      rwa [← symbol]

theorem map_fst_parts (layout : Nat) (xs : List Symbol) :
    (Layout.parts layout xs).map Prod.fst = xs := by
  rw [Layout.parts, List.map_map]
  exact List.zipIdx_map_fst 0 xs

/-- Taking states off takes off symbols, with the tokens that these derive. -/
theorem HasRead.drop {states below : List State} {s : State} {v : List Token} {size : Nat}
    (h : HasRead states v) (dropped : states.drop size = s :: below) :
    ∃ xs v' u, xs.length = size ∧ v = v' ++ u ∧ HasRead (s :: below) v' ∧
      states.head? = some (s.through xs) ∧ Yields derivesPart (xs.map fun x => (x, none)) u := by
  induction size generalizing states v with
  | zero =>
    obtain rfl : states = s :: below := dropped
    exact ⟨[], v, [], rfl, (List.append_nil v).symm, h, rfl, .nil⟩
  | succ size ih =>
    cases h with
    | start => simp at dropped
    | @push q rest x v u read _ derives =>
      obtain ⟨xs, v', u', length, rfl, below, top, yields⟩ := ih read dropped
      refine ⟨xs ++ [x], v', u' ++ u, by simp [length], List.append_assoc .., below, ?_, ?_⟩
      · obtain rfl := Option.some.inj top
        rw [State.through_append]
        rfl
      · rw [List.map_append]
        exact yields.append (yields_singleton_iff.mpr derives)

/-- The tokens among symbols are tokens that these derive. -/
theorem mem_of_yields {xs : List Part} {w : List Token} (h : Yields derivesPart xs w) {t : Token}
    (mem : .token t ∈ xs.map Prod.fst) : t ∈ w := by
  induction h with
  | nil => cases mem
  | @cons x xs v w first _ ih =>
    rcases List.mem_cons.mp mem with same | mem
    · unfold derivesPart at first
      rw [← same] at first
      rw [first]
      exact List.mem_append_left _ (List.mem_singleton.mpr rfl)
    · exact List.mem_append_right _ (ih mem)

section Run

variable {c d : Config} {a : Action} {v : List Token}

/-- A step goes on reading the same tokens. -/
theorem HasRead.step (h : HasRead c.states v) (step : Step c a d)
    (plain : ∀ t ∈ v ++ c.ahead, t.isComment = false) :
    ∃ u, HasRead d.states u ∧ u ++ d.ahead = v ++ c.ahead := by
  cases step with
  | @shift s target below t rest known =>
    obtain ⟨next, ne⟩ := State.next_of_shift known
    refine ⟨v ++ [t], ?_, by simp⟩
    subst next
    exact .push h ne rfl
  | @shiftExtra s below t rest known =>
    have comment := State.isComment_of_shiftExtra known
    rw [plain t (by simp)] at comment
    cases comment
  | @reduce c rule size layout s target below known dropped found =>
    obtain ⟨next, ne⟩ := State.next_of_goto? found
    obtain ⟨xs, v', u, rfl, rfl, read, top, yields⟩ := h.drop dropped
    have inside : ∀ t, .token t ∈ xs → t.isComment = false := by
      intro t mem
      have mem : t ∈ u := mem_of_yields yields (by simpa using mem)
      exact plain t (by simp [mem])
    have known : .reduce rule xs.length layout ∈
        ((s.through xs).row.entry c.lookahead).actions := by
      unfold Config.actions at known
      split at known
      · cases known
      · rename_i q rest states
        rw [states] at top
        obtain rfl := Option.some.inj top
        exact known
    have spans := spans_of_reduce inside rfl known
    have derives : derivesPart (.rule rule, none) u := by
      refine .rule (spans.derives (yields_of_symbols ?_ yields))
      rw [map_fst_parts, List.map_map]
      exact List.map_id xs
    refine ⟨v' ++ u, ?_, rfl⟩
    subst next
    exact .push read ne derives

theorem HasRead.run {xs : List Action} (run : Run c xs d) (h : HasRead c.states v)
    (plain : ∀ t ∈ v ++ c.ahead, t.isComment = false) :
    ∃ u, HasRead d.states u ∧ u ++ d.ahead = v ++ c.ahead := by
  induction run generalizing v with
  | done => exact ⟨v, h, rfl⟩
  | step step _ ih =>
    obtain ⟨u, read, same⟩ := h.step step plain
    obtain ⟨u', read', same'⟩ := ih read (by rwa [same])
    exact ⟨u', read', same'.trans same⟩

/-- Behind the start symbol, the start symbol has been read. -/
theorem HasRead.derives_of_acceptState {below : List State} (h : HasRead (State.acceptState :: below) v)
    (plain : ∀ t ∈ v, t.isComment = false) : (Phrase.rule .sourceFile).Derives v := by
  generalize same : State.acceptState :: below = states at h
  cases h with
  | start =>
    obtain ⟨accept, _⟩ := List.cons.inj same
    exact absurd accept State.acceptState_ne_startState
  | @push s rest x v u read ne derives =>
    obtain ⟨accept, rfl⟩ := List.cons.inj same
    by_cases here : s = State.acceptState
    · rw [here] at accept
      obtain ⟨t, rfl, comment⟩ := State.isComment_of_next_acceptState accept.symm
      obtain rfl : u = [t] := derives
      rw [plain t (by simp)] at comment
      cases comment
    · obtain ⟨rfl, rfl⟩ := State.next_eq_acceptState here accept.symm
      generalize first : startState :: rest = states at read
      cases read with
      | start => exact derives
      | @push s rest y v u _ _ derives' =>
        obtain ⟨start, _⟩ := List.cons.inj first
        refine absurd start.symm (State.next_ne_startState fun t token => ?_)
        subst token
        obtain rfl : u = [t] := derives'
        exact plain t (by simp)

end Run

/-- What the machine accepts is derived from the start symbol. -/
theorem derives_of_accepts {w : List Token} (h : Accepts w)
    (plain : ∀ t ∈ w, t.isComment = false) : (Phrase.rule .sourceFile).Derives w := by
  obtain ⟨xs, c, run, accepts⟩ := h
  obtain ⟨v, read, all⟩ := HasRead.start.run (c := .initial w) run plain
  obtain ⟨nothing, accepts⟩ := Bool.and_eq_true_iff.mp accepts
  rw [List.isEmpty_iff.mp nothing, List.append_nil] at all
  obtain rfl : v = w := all
  have known : .accept ∈ c.actions := List.contains_iff_mem.mp accepts
  obtain ⟨states, ahead⟩ := c
  cases states with
  | nil => cases known
  | cons s below =>
    have same : s = State.acceptState := (State.accept_spec known).2
    rw [same] at read
    exact read.derives_of_acceptState plain

end SusSyntax.Grammar.Machine
