import SusSyntax.Proofs.Parse.Replay

/-!
Reductions in a row.

Before it takes a token the machine may make reductions. Those that lead from one stack to another before
a token are given by the stacks alone (`Folds`), and the machine makes them whatever lexeme of the token
it holds (`Folds.works`), up to where the token is shifted (`Folds.takes`).
-/

namespace SusSyntax.Plain

open Grammar Lexical

variable {frames left mid more : List Frame} {u : Token} {n : State} {x : Lexeme} {rule : Rule}
  {size layout : Nat} {trees : List Tree} {target : State}

theorem topState_pushTrees (target : State) (ts : List Tree) (top : topState frames = target) :
    topState (pushTrees target frames ts) = target := by
  induction ts generalizing frames with
  | nil => exact top
  | cons t ts ih => exact ih rfl

theorem topState_putNode : topState (putNode rule layout trees target left) = target := by
  rw [putNode_eq, pushTrees_cons]
  exact topState_pushTrees target _ rfl

/-- The reductions that lead from one stack to another before a token. -/
inductive Folds (u : Token) : List Frame → List Frame → Prop where
  | done {frames : List Frame} : Folds u frames frames
  | step {frames left more : List Frame} {rule : Rule} {size layout : Nat} {trees : List Tree}
      {target : State} : .reduce rule size layout ∈ ((topState frames).row.entry u).actions →
      pop size frames = some (trees, left) → (topState left).row.goto? rule = some target →
      Folds u (putNode rule layout trees target left) more → Folds u frames more

theorem Folds.trans (h : Folds u frames mid) (h' : Folds u mid more) : Folds u frames more := by
  induction h with
  | done => exact h'
  | step admits popped goto _ ih => exact .step admits popped goto (ih h')

/-- Where something can be done behind reductions, something can be done before them. -/
theorem Folds.goesOn (h : Folds u frames more) (some : ((topState more).row.entry u).actions ≠ []) :
    ((topState frames).row.entry u).actions ≠ [] := by
  cases h with
  | done => exact some
  | step admits => exact List.ne_nil_of_mem admits

theorem renames_of_mem {a : Action} (admits : a ∈ ((topState frames).entry x.symbol).actions) :
    Config.renames ⟨frames, some x⟩ x = false := by
  have some : (Config.entryFor ⟨frames, some x⟩ x).isEmpty = false :=
    List.isEmpty_eq_false_iff.mpr (List.ne_nil_of_mem admits)
  rw [Config.renames, some]
  rfl

theorem works_reduce (leaf : x.leaf = .read u)
    (admits : .reduce rule size layout ∈ ((topState frames).row.entry u).actions)
    (popped : pop size frames = some (trees, left))
    (goto : (topState left).row.goto? rule = some target) :
    Works ⟨frames, some x⟩ ⟨putNode rule layout trees target left, some x⟩ := by
  have admits : .reduce rule size layout ∈ ((topState frames).entry x.symbol).actions := by
    rwa [Lexeme.symbol, leaf]
  exact .act (renames_of_mem admits) admits (apply_eq_some_iff.mpr (.reduce popped goto))

theorem works_shift (leaf : x.leaf = .read u)
    (shift : .shift n ∈ ((topState frames).row.entry u).actions) :
    Works ⟨frames, some x⟩ ⟨⟨x.toTree.withExtra false, n⟩ :: frames, none⟩ := by
  have admits : .shift n ∈ ((topState frames).entry x.symbol).actions := by rwa [Lexeme.symbol, leaf]
  exact .act (renames_of_mem admits) admits rfl

theorem works_rename (leaf : x.leaf = .read u) (keyword : x.isKeyword = true) (notName : u ≠ .identifier)
    (empty : ((topState frames).row.entry u).actions = [])
    (some : ((topState frames).row.entry .identifier).actions ≠ []) :
    Works ⟨frames, Option.some x⟩ ⟨frames, Option.some x.asIdentifier⟩ := by
  have noPlace : (Config.entryFor ⟨frames, Option.some x⟩ x).isEmpty = true := by
    rw [Config.entryFor, Lexeme.symbol, leaf]
    exact List.isEmpty_iff.mpr empty
  refine .rename ?_
  simp only [Config.renames, Bool.and_eq_true, Bool.not_eq_true', bne_iff_ne]
  exact ⟨⟨⟨noPlace, keyword⟩, by simpa [leaf] using notName⟩, List.isEmpty_eq_false_iff.mpr some⟩

/-- What a step does with a token. -/
theorem Works.cases_of_leaf {c : Config} (h : Works ⟨frames, some x⟩ c) (leaf : x.leaf = .read u) :
    (x.isKeyword = true ∧ u ≠ .identifier ∧ ((topState frames).row.entry u).actions = [] ∧
        ((topState frames).row.entry .identifier).actions ≠ [] ∧
        c = ⟨frames, some x.asIdentifier⟩) ∨
      (∃ n, .shift n ∈ ((topState frames).row.entry u).actions ∧
        c = ⟨⟨x.toTree.withExtra false, n⟩ :: frames, none⟩) ∨
      (.shiftExtra ∈ ((topState frames).row.entry u).actions ∧
        c = ⟨⟨x.toTree.withExtra true, topState frames⟩ :: frames, none⟩) ∨
      ∃ rule size layout trees left target,
        .reduce rule size layout ∈ ((topState frames).row.entry u).actions ∧
        pop size frames = some (trees, left) ∧ (topState left).row.goto? rule = some target ∧
        c = ⟨putNode rule layout trees target left, some x⟩ := by
  cases h with
  | rename renames =>
    simp only [Config.renames, Bool.and_eq_true, bne_iff_ne, Bool.not_eq_true'] at renames
    refine .inl ⟨renames.1.1.2, ?_, ?_, List.isEmpty_eq_false_iff.mp renames.2, rfl⟩
    · rintro rfl
      exact renames.1.2 leaf
    · have empty := renames.1.1.1
      rw [Config.entryFor, Lexeme.symbol, leaf] at empty
      exact List.isEmpty_iff.mp empty
  | @act _ _ a _ _ admits applies =>
    obtain ⟨v, symbol, admits⟩ := State.exists_of_mem_entry admits
    obtain rfl : u = v := by
      rw [Lexeme.symbol, leaf] at symbol
      exact Symbol.token.inj symbol
    cases apply_eq_some_iff.mp applies with
    | shift target => exact .inr (.inl ⟨target, admits, rfl⟩)
    | shiftExtra => exact .inr (.inr (.inl ⟨admits, rfl⟩))
    | reduce popped goto =>
      exact .inr (.inr (.inr ⟨_, _, _, _, _, _, admits, popped, goto, rfl⟩))

/-- The machine makes reductions whatever lexeme of the token it holds. -/
theorem Folds.works (h : Folds u frames more) (leaf : x.leaf = .read u) :
    Takes ⟨frames, some x⟩ [] ⟨more, some x⟩ := by
  induction h with
  | done => exact .done
  | step admits popped goto _ ih => exact .work (works_reduce leaf admits popped goto) ih

/-- The machine takes a token behind the reductions before it. -/
theorem Folds.takes (h : Folds u frames more) (leaf : x.leaf = .read u)
    (shift : .shift n ∈ ((topState more).row.entry u).actions) :
    Takes ⟨frames, some x⟩ [] ⟨⟨x.toTree.withExtra false, n⟩ :: more, none⟩ :=
  (h.works leaf).trans (.work (works_shift leaf shift) .done)

/-- Without another lexeme nothing is done. -/
theorem Takes.eq_of_none {d : Config} (h : Takes ⟨frames, none⟩ [] d) : d = ⟨frames, none⟩ := by
  cases h with
  | done => rfl
  | work works => cases works

end SusSyntax.Plain
