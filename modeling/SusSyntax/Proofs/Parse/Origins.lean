import SusSyntax.Proofs.Parse.Takes
import SusSyntax.Proofs.Parse.Marks

/-!
Where the trees on a single stack come from.

A tree on the stack is a leaf, or a rule whose children lead from the state below the tree to one that
reduces them to the rule, with no extras at either end (`Tree.Founded`). Every action keeps this
(`Works.grounded`), so it holds of all that is below the root of an accepted tree
(`Takes.foundedOf`).
-/

namespace SusSyntax

open Grammar Lexical

namespace Tree

/-- There are no extras at either end. -/
def IsTrimmed (ts : List Tree) : Prop :=
  (∀ t ∈ ts.head?, t.isExtra = false) ∧ ∀ t ∈ ts.getLast?, t.isExtra = false

mutual

/-- A tree that can be built from the state `s` on. -/
def Founded (s : State) : Tree → Prop
  | .leaf content _ _ extra => extra = false → ∀ u, content.symbol = .token u → u.isComment = false
  | .node label extra _ children => extra = false ∧ IsTrimmed children ∧
      (∃ r layout u, label = .rule r layout ∧
        .reduce r (insiders children).length layout ∈ ((follow s children).row.entry u).actions) ∧
      FoundedOf s children

/-- Trees that can be built one behind the other from the state `s` on. -/
def FoundedOf (s : State) : List Tree → Prop
  | [] => True
  | t :: rest => t.Founded s ∧ FoundedOf (stateBehind s t) rest

end

variable {s : State} {t : Tree} {ts us : List Tree}

theorem foundedOf_cons : FoundedOf s (t :: ts) ↔ t.Founded s ∧ FoundedOf (stateBehind s t) ts :=
  Iff.rfl

theorem foundedOf_append :
    FoundedOf s (ts ++ us) ↔ FoundedOf s ts ∧ FoundedOf (follow s ts) us := by
  induction ts generalizing s with
  | nil => simp [FoundedOf]
  | cons t ts ih => rw [List.cons_append, foundedOf_cons, foundedOf_cons, ih, follow_cons, and_assoc]

/-- An extra that can be built is a leaf. -/
theorem Founded.exists_leaf (h : t.Founded s) (extra : t.isExtra = true) :
    ∃ content padding size, t = .leaf content padding size true := by
  cases t with
  | leaf content padding size isExtra =>
    obtain rfl : isExtra = true := extra
    exact ⟨content, padding, size, rfl⟩
  | node label isExtra measure children =>
    obtain ⟨rfl, -⟩ := h
    cases extra

theorem foundedOf_of_extras (extras : ∀ t ∈ ts, t.isExtra = true)
    (founded : ∀ t ∈ ts, ∃ s, t.Founded s) (s : State) : FoundedOf s ts := by
  induction ts generalizing s with
  | nil => trivial
  | cons t ts ih =>
    obtain ⟨extra, others⟩ := List.forall_mem_cons.mp extras
    obtain ⟨⟨q, first⟩, rest⟩ := List.forall_mem_cons.mp founded
    obtain ⟨_, _, _, rfl⟩ := first.exists_leaf extra
    exact ⟨nofun, ih others rest _⟩

theorem FoundedOf.exists_founded (h : FoundedOf s ts) : ∀ t ∈ ts, ∃ q, t.Founded q := by
  induction ts generalizing s with
  | nil => exact fun t mem => absurd mem List.not_mem_nil
  | cons t ts ih => exact List.forall_mem_cons.mpr ⟨⟨s, h.1⟩, ih h.2⟩

theorem Founded.children (h : t.Founded s) : FoundedOf s t.children := by
  cases t with
  | leaf => trivial
  | node => exact h.2.2.2

/-- A comment is an extra. -/
theorem FoundedOf.noComment (h : FoundedOf s ts) :
    ∀ u, .token u ∈ (insiders ts).map symbol → u.isComment = false := by
  intro u mem
  obtain ⟨t, isInside, symbol⟩ := List.mem_map.mp mem
  obtain ⟨known, inside⟩ := List.mem_filter.mp isInside
  obtain ⟨q, founded⟩ := h.exists_founded t known
  cases t with
  | leaf content padding size extra => exact founded (by simpa [isExtra] using inside) u symbol
  | node label => cases label <;> cases symbol

/-- Without the extras at their end, trees that begin with no extra are trimmed. -/
theorem isTrimmed_splitTrailingExtras (first : ∀ t ∈ ts.head?, t.isExtra = false) :
    IsTrimmed (splitTrailingExtras ts).1 := by
  have whole := append_splitTrailingExtras ts
  refine ⟨fun t mem => first t ?_, fun t mem => ?_⟩
  · rw [← whole, List.head?_append, Option.mem_def.mp mem]
    rfl
  · rw [splitTrailingExtras, List.getLast?_reverse] at mem
    have stops := List.head?_dropWhile_not isExtra ts.reverse
    rw [Option.mem_def.mp mem] at stops
    exact stops

end Tree

namespace Plain

variable {c d : Config} {frames taken left : List Frame} {x : Lexeme} {xs : List Lexeme} {t : Tree}

/-- Every tree on the stack can be built from the state below it, and leads to the state behind it. -/
def Grounded : List Frame → Prop
  | [] => True
  | f :: below => f.tree.Founded (topState below) ∧
      f.state = Tree.stateBehind (topState below) f.tree ∧ Grounded below

theorem Grounded.of_append (h : Grounded (taken ++ left)) : Grounded left := by
  induction taken with
  | nil => exact h
  | cons f taken ih => exact ih h.2.2

/-- The upper trees of a stack can be built from the state below them, and lead to the state on top. -/
theorem Grounded.spec (h : Grounded (taken ++ left)) :
    Tree.FoundedOf (topState left) (taken.map Frame.tree).reverse ∧
      Tree.follow (topState left) (taken.map Frame.tree).reverse = topState (taken ++ left) := by
  induction taken with
  | nil => exact ⟨trivial, rfl⟩
  | cons f taken ih =>
    obtain ⟨founded, state, below⟩ := h
    obtain ⟨lower, leads⟩ := ih below
    rw [List.map_cons, List.reverse_cons, Tree.foundedOf_append, Tree.follow_append, leads]
    exact ⟨⟨lower, founded, trivial⟩, state.symm⟩

theorem grounded_pushExtras {target : State} {extras : List Tree} (h : Grounded frames)
    (top : topState frames = target) (isExtra : ∀ t ∈ extras, t.isExtra = true)
    (founded : ∀ t ∈ extras, ∃ s, t.Founded s) : Grounded (pushTrees target frames extras) := by
  induction extras generalizing frames with
  | nil => exact h
  | cons t extras ih =>
    obtain ⟨first, others⟩ := List.forall_mem_cons.mp isExtra
    obtain ⟨⟨s, known⟩, rest⟩ := List.forall_mem_cons.mp founded
    obtain ⟨_, _, _, rfl⟩ := known.exists_leaf first
    refine ih ⟨nofun, ?_, h⟩ rfl others rest
    rw [Tree.stateBehind_of_extra _ first, top]

/-- What is counted on a stack are the trees that are no extras. -/
theorem length_insiders (frames : List Frame) :
    (Tree.insiders (frames.map Frame.tree).reverse).length = insideCount frames := by
  rw [Tree.insiders, ← List.countP_eq_length_filter, List.countP_reverse, List.countP_map]
  rfl

/-- What is taken off a stack begins with a tree that is no extra. -/
theorem inside_of_pop {k : Nat} {trees : List Tree} (popped : pop k frames = some (trees, left)) :
    ∀ t ∈ trees.head?, t.isExtra = false := by
  obtain ⟨taken, -, rfl, count, upper⟩ := pop_spec popped
  intro t first
  rw [List.head?_reverse, List.getLast?_map] at first
  obtain ⟨f, last, rfl⟩ := Option.map_eq_some_iff.mp first
  obtain ⟨front, rfl⟩ := List.getLast?_eq_some_iff.mp last
  have less := upper front f [] rfl
  rw [← Bool.not_eq_true]
  intro extra
  rw [insideCount, List.countP_append] at count
  simp [extra] at count
  exact absurd less (by rw [insideCount, count]; exact Nat.lt_irrefl k)

theorem grounded_putNode {rule : Rule} {size layout : Nat} {trees : List Tree} {target : State}
    {u : Token} (h : Grounded frames) (popped : pop size frames = some (trees, left))
    (admits : .reduce rule size layout ∈ ((topState frames).row.entry u).actions)
    (goto : (topState left).row.goto? rule = some target) :
    Grounded (putNode rule layout trees target left) := by
  have first := inside_of_pop popped
  obtain ⟨taken, rfl, rfl, count, -⟩ := pop_spec popped
  obtain ⟨founded, leads⟩ := h.spec
  rw [← Tree.append_splitTrailingExtras (taken.map Frame.tree).reverse, Tree.foundedOf_append]
    at founded
  rw [putNode_eq, pushTrees_cons]
  refine grounded_pushExtras ⟨⟨rfl, Tree.isTrimmed_splitTrailingExtras first, ?_, founded.1⟩, ?_,
    h.of_append⟩ rfl (fun t => Tree.isExtra_of_mem_trailing) founded.2.exists_founded
  · refine ⟨rule, layout, u, rfl, ?_⟩
    rwa [Tree.insiders_splitTrailingExtras, length_insiders, count, Tree.follow_splitTrailingExtras,
      leads]
  · rw [Tree.stateBehind_of_not_extra _ (Tree.isExtra_ofChildren ..)]
    exact (State.next_of_goto? goto).1.symm

theorem Works.grounded (h : Works c d) (grounded : Grounded c.frames) : Grounded d.frames := by
  cases h with
  | rename => exact grounded
  | @act frames x a _ _ admits applies =>
    obtain ⟨u, symbol, admits⟩ := State.exists_of_mem_entry admits
    cases apply_eq_some_iff.mp applies with
    | shift =>
      refine ⟨fun _ v same => ?_, ?_, grounded⟩
      · obtain rfl := Symbol.token.inj (Eq.trans symbol.symm same)
        exact State.isComment_eq_false admits (by simp)
      · rw [Tree.stateBehind_of_not_extra _ (Tree.isExtra_withExtra ..), Tree.symbol_withExtra,
          show x.toTree.symbol = .token u from symbol]
        exact (State.next_of_shift admits).1.symm
    | shiftExtra =>
      refine ⟨nofun, ?_, grounded⟩
      rw [Tree.stateBehind_of_extra _ (Tree.isExtra_withExtra ..)]
    | reduce popped goto => exact grounded_putNode grounded popped admits goto

theorem Takes.grounded (h : Takes c xs d) (grounded : Grounded c.frames) : Grounded d.frames := by
  induction h with
  | done => exact grounded
  | work works _ ih => exact ih (works.grounded grounded)
  | read _ _ ih => exact ih grounded

/-- The trees that a root is made of can be built from the first state on. -/
theorem Takes.exists_trees (h : Takes .initial xs d) (accepted : d.accepted? = some t) :
    ∃ x : Lexeme, Tree.FoundedOf startState ((d.frames.map Frame.tree).reverse ++ [x.toTree]) ∧
      Parse.rootOf? ((d.frames.map Frame.tree).reverse ++ [x.toTree]) = some t := by
  have grounded : Grounded d.frames := h.grounded trivial
  obtain ⟨x, known, admits, root⟩ := accepted?_eq_some_iff.mp accepted
  obtain ⟨u, symbol, admits⟩ := State.exists_of_mem_entry admits
  obtain ⟨rfl, -⟩ := State.accept_spec admits
  rw [← List.append_nil d.frames] at grounded
  refine ⟨x, Tree.foundedOf_append.mpr ⟨grounded.spec.1, fun _ v same => ?_, trivial⟩, root⟩
  obtain rfl := Symbol.token.inj (Eq.trans symbol.symm same)
  rfl

/-- What is below the root of an accepted tree can be built from the first state on. -/
theorem Takes.foundedOf (h : Takes .initial xs d) (accepted : d.accepted? = some t) :
    Tree.FoundedOf startState t.children := by
  obtain ⟨x, founded, root⟩ := h.exists_trees accepted
  rcases Tree.exists_trailing ((d.frames.map Frame.tree).reverse ++ [x.toTree]) with
    all | ⟨front, u, extras, trees, inside, all⟩
  · rw [Tree.rootOf?_of_extras all] at root
    cases root
  · rw [trees, Tree.foundedOf_append, Tree.foundedOf_append] at founded
    obtain ⟨⟨before, here, -⟩, behind⟩ := founded
    rw [trees, Tree.rootOf?_append front inside all] at root
    cases u with
    | leaf => cases root
    | node label extra measure children =>
      obtain rfl := Option.some.inj root
      rw [Tree.children_ofChildren, Tree.foundedOf_append, Tree.foundedOf_append]
      exact ⟨⟨before, here.children⟩, Tree.foundedOf_of_extras all behind.exists_founded _⟩

end Plain

end SusSyntax
