import SusSyntax.Proofs.Parse.Takes
import SusSyntax.Proofs.Tree.Skeleton

/-!
Runs that do the same.

What the machine does with a lexeme does not depend on the extents of what stands on the stack, nor
on the extras there: stacks with the same skeletons go on in the same way, with lexemes that differ
only in their extents (`Works.replay`, `Takes.replay`), and where the one accepts, so does the other,
with a tree of the same skeleton (`accepted?_replay`).
-/

namespace SusSyntax

open Grammar Lexical

namespace Tree

variable {bare : Bool} {t : Tree} {ts front extras : List Tree}

theorem splitTrailingExtras_concat_of_extra (extra : t.isExtra = true) (ts : List Tree) :
    splitTrailingExtras (ts ++ [t]) =
      ((splitTrailingExtras ts).1, (splitTrailingExtras ts).2 ++ [t]) := by
  simp [splitTrailingExtras, extra]

theorem splitTrailingExtras_concat_of_inside (inside : t.isExtra = false) (ts : List Tree) :
    splitTrailingExtras (ts ++ [t]) = (ts ++ [t], []) := by
  simp [splitTrailingExtras, inside]

theorem splitTrailingExtras_skeletons (bare : Bool) (ts : List Tree) :
    splitTrailingExtras (skeletons bare ts) =
      (skeletons bare (splitTrailingExtras ts).1, skeletons bare (splitTrailingExtras ts).2) := by
  rw [← List.reverse_reverse ts]
  induction ts.reverse with
  | nil => rfl
  | cons t us ih =>
    rw [List.reverse_cons]
    generalize us.reverse = ts at ih
    rw [skeletons_append]
    cases extra : t.isExtra with
    | false =>
      have kept : (bare && t.isExtra) = false := by rw [extra, Bool.and_false]
      rw [splitTrailingExtras_concat_of_inside extra, skeletons_cons_of_kept kept, skeletons_nil,
        splitTrailingExtras_concat_of_inside (by rw [isExtra_skeleton, extra]), skeletons_append,
        skeletons_cons_of_kept kept, skeletons_nil]
    | true =>
      rw [splitTrailingExtras_concat_of_extra extra, skeletons_append]
      cases bare with
      | true =>
        rw [skeletons_of_extras (List.forall_mem_singleton.mpr extra), List.append_nil, List.append_nil,
          ih]
      | false =>
        rw [skeletons_cons_of_kept (Bool.false_and _), skeletons_nil,
          splitTrailingExtras_concat_of_extra (by rw [isExtra_skeleton, extra]), ih]

theorem exists_trailing (ts : List Tree) :
    (∀ t ∈ ts, t.isExtra = true) ∨ ∃ front t extras, ts = front ++ [t] ++ extras ∧
      t.isExtra = false ∧ ∀ u ∈ extras, u.isExtra = true := by
  rw [← List.reverse_reverse ts]
  induction ts.reverse with
  | nil => exact .inl fun t mem => absurd mem List.not_mem_nil
  | cons t us ih =>
    rw [List.reverse_cons]
    generalize us.reverse = ts at ih
    cases extra : t.isExtra with
    | false => exact .inr ⟨ts, t, [], by simp, extra, fun u mem => absurd mem List.not_mem_nil⟩
    | true =>
      rcases ih with all | ⟨front, u, extras, rfl, inside, all⟩
      · exact .inl (List.forall_mem_append.mpr ⟨all, by simpa using extra⟩)
      · refine .inr ⟨front, u, extras ++ [t], by simp, inside, ?_⟩
        exact List.forall_mem_append.mpr ⟨all, by simpa using extra⟩

/-- The root over a list of trees, by the last one that is no extra. -/
theorem rootOf?_append (front : List Tree) (inside : t.isExtra = false)
    (all : ∀ u ∈ extras, u.isExtra = true) :
    Parse.rootOf? (front ++ [t] ++ extras) = match t with
      | .node label _ _ children => some (.ofChildren label (front ++ children ++ extras))
      | .leaf .. => none := by
  rw [Parse.rootOf?, splitTrailingExtras_append inside all]
  cases t <;> simp

theorem rootOf?_of_extras (all : ∀ t ∈ ts, t.isExtra = true) : Parse.rootOf? ts = none := by
  have front : (splitTrailingExtras ts).1 = [] := by
    have dropped : (ts.reverse ++ []).dropWhile isExtra = [].dropWhile isExtra :=
      List.dropWhile_append_of_pos fun t mem => all t (List.mem_reverse.mp mem)
    rw [List.append_nil] at dropped
    rw [splitTrailingExtras, dropped]
    rfl
  rw [Parse.rootOf?]
  dsimp only
  rw [front]
  rfl

/-- The root over skeletons is the skeleton of the root. -/
theorem rootOf?_skeletons (bare : Bool) (ts : List Tree) :
    Parse.rootOf? (skeletons bare ts) = (Parse.rootOf? ts).map (skeleton bare) := by
  have extras {us : List Tree} (all : ∀ t ∈ us, t.isExtra = true) :
      ∀ t ∈ skeletons bare us, t.isExtra = true := by
    induction us with
    | nil => exact all
    | cons u us ih =>
      obtain ⟨first, rest⟩ := List.forall_mem_cons.mp all
      rw [skeletons]
      split
      · exact ih rest
      · exact List.forall_mem_cons.mpr ⟨by rw [isExtra_skeleton, first], ih rest⟩
  rcases exists_trailing ts with all | ⟨front, t, last, rfl, inside, all⟩
  · rw [rootOf?_of_extras all, rootOf?_of_extras (extras all)]
    rfl
  · rw [skeletons_append, skeletons_append,
      skeletons_cons_of_kept (by rw [inside, Bool.and_false]), skeletons_nil,
      rootOf?_append front inside all,
      rootOf?_append _ (by rw [isExtra_skeleton, inside]) (extras all)]
    cases t with
    | leaf => rfl
    | node label extra measure children =>
      simp only [skeleton, ofChildren, withExtra, Option.map_some, skeletons_append]

end Tree

/-- A lexeme without its extents. -/
def Lexical.Lexeme.skeleton (x : Lexeme) : Lexeme :=
  { x with padding := .zero, size := .zero }

namespace Plain

variable {bare : Bool} {frames frames' left : List Frame} {c c' d : Config} {x x' : Lexeme}
  {xs xs' : List Lexeme} {a : Action}

/-! ### Stacks -/

/-- An extra leaves the state as it is. -/
def Settled : List Frame → Prop
  | [] => True
  | f :: below => (f.tree.isExtra = true → f.state = topState below) ∧ Settled below

/-- The frames over the skeletons of their trees; `bare` leaves out the extras. -/
def skeletonOf (bare : Bool) : List Frame → List Frame
  | [] => []
  | f :: below =>
    if bare && f.tree.isExtra then skeletonOf bare below
    else ⟨f.tree.skeleton bare, f.state⟩ :: skeletonOf bare below

theorem settled_of_append {taken : List Frame} (h : Settled (taken ++ left)) : Settled left := by
  induction taken with
  | nil => exact h
  | cons f taken ih => exact ih h.2

theorem settled_pushTrees {target : State} {ts : List Tree} (h : Settled frames)
    (all : ∀ t ∈ ts, t.isExtra = true → topState frames = target) :
    Settled (pushTrees target frames ts) := by
  induction ts generalizing frames with
  | nil => exact h
  | cons t ts ih =>
    obtain ⟨first, rest⟩ := List.forall_mem_cons.mp all
    exact ih ⟨fun extra => (first extra).symm, h⟩ fun _ _ _ => rfl

theorem Works.settled (h : Works c d) (settled : Settled c.frames) : Settled d.frames := by
  cases h with
  | rename => exact settled
  | @act frames x a _ _ _ applies =>
    cases apply_eq_some_iff.mp applies with
    | shift => exact ⟨fun extra => absurd extra Bool.false_ne_true, settled⟩
    | shiftExtra => exact ⟨fun _ => rfl, settled⟩
    | @reduce _ _ _ _ left _ popped =>
      obtain ⟨taken, rfl, -⟩ := pop_spec popped
      have below : Settled left := settled_of_append settled
      dsimp only
      rw [putNode_eq, pushTrees_cons]
      exact settled_pushTrees ⟨fun extra => absurd extra Bool.false_ne_true, below⟩ fun _ _ _ => rfl

theorem topState_skeletonOf (bare : Bool) (h : Settled frames) :
    topState (skeletonOf bare frames) = topState frames := by
  induction frames with
  | nil => rfl
  | cons f below ih =>
    rw [skeletonOf]
    split
    · rename_i dropped
      rw [ih h.2, topState, h.1 (Bool.and_eq_true_iff.mp dropped).2]
    · rfl

theorem pop_skeletonOf (bare : Bool) (k : Nat) (frames : List Frame) :
    pop k (skeletonOf bare frames) =
      (pop k frames).map fun (trees, left) => (Tree.skeletons bare trees, skeletonOf bare left) := by
  induction frames generalizing k with
  | nil => cases k <;> rfl
  | cons f below ih =>
    cases k with
    | zero => simp [pop]
    | succ k =>
      by_cases dropped : (bare && f.tree.isExtra) = true
      · obtain ⟨rfl, extra⟩ := Bool.and_eq_true_iff.mp dropped
        rw [skeletonOf, if_pos dropped, ih, pop, if_pos extra, Option.map_map]
        congr 1
        funext popped
        simp [Tree.skeletons_of_extras, extra]
      · rw [skeletonOf, if_neg dropped, pop, pop, Tree.isExtra_skeleton, ih, Option.map_map,
          Option.map_map]
        congr 1
        funext popped
        simp [Tree.skeletons_cons_of_kept (by simpa using dropped)]

theorem skeletonOf_pushTrees (bare : Bool) (target : State) (frames : List Frame)
    (ts : List Tree) : skeletonOf bare (pushTrees target frames ts) =
      pushTrees target (skeletonOf bare frames) (Tree.skeletons bare ts) := by
  induction ts generalizing frames with
  | nil => rfl
  | cons t ts ih =>
    rw [pushTrees_cons, ih, skeletonOf, Tree.skeletons]
    dsimp only
    split <;> rfl

theorem skeletonOf_putNode (bare : Bool) (rule : Rule) (layout : Nat) (trees : List Tree)
    (target : State) (left : List Frame) :
    skeletonOf bare (putNode rule layout trees target left) =
      putNode rule layout (Tree.skeletons bare trees) target (skeletonOf bare left) := by
  rw [putNode_eq, putNode_eq, skeletonOf_pushTrees, Tree.splitTrailingExtras_skeletons,
    Tree.skeletons_cons_of_kept (by simp)]
  rfl

theorem skeletons_trees (bare : Bool) (frames : List Frame) :
    Tree.skeletons bare (frames.map Frame.tree).reverse =
      ((skeletonOf bare frames).map Frame.tree).reverse := by
  induction frames with
  | nil => rfl
  | cons f below ih =>
    rw [List.map_cons, List.reverse_cons, Tree.skeletons_append, ih, skeletonOf, Tree.skeletons]
    split <;> simp

/-! ### Runs -/

/-- A configuration over skeletons. -/
def Config.skeleton (bare : Bool) (c : Config) : Config :=
  ⟨skeletonOf bare c.frames, c.read?.map Lexeme.skeleton⟩

theorem skeleton_toTree (x : Lexeme) (bare extra : Bool) :
    (x.toTree.withExtra extra).skeleton bare = x.skeleton.toTree.withExtra extra := rfl

theorem renames_replay (settled : Settled frames) (settled' : Settled frames')
    (same : skeletonOf bare frames = skeletonOf bare frames') (alike : x.skeleton = x'.skeleton) :
    Config.renames ⟨frames, some x⟩ x = Config.renames ⟨frames', some x'⟩ x' ∧
      (topState frames).entry x.symbol = (topState frames').entry x'.symbol := by
  have top : topState frames = topState frames' := by
    rw [← topState_skeletonOf bare settled, same, topState_skeletonOf bare settled']
  obtain ⟨leaf, padding, size, isKeyword, state⟩ := x
  obtain ⟨leaf', padding', size', isKeyword', state'⟩ := x'
  obtain ⟨rfl, -, -, rfl, rfl⟩ := Lexeme.mk.inj alike
  refine ⟨?_, ?_⟩
  · simp only [Config.renames, Config.entryFor, Lexeme.symbol, top]
  · rw [top]
    rfl

/-- An action does the same to stacks with the same skeletons. -/
theorem Acts.replay (settled : Settled frames) (settled' : Settled frames')
    (same : skeletonOf bare frames = skeletonOf bare frames') (alike : x.skeleton = x'.skeleton)
    (acts : Acts frames x a d) :
    ∃ d', Acts frames' x' a d' ∧ d.skeleton bare = d'.skeleton bare := by
  have top : topState frames = topState frames' := by
    rw [← topState_skeletonOf bare settled, same, topState_skeletonOf bare settled']
  have tree (extra : Bool) :
      (x.toTree.withExtra extra).skeleton bare = (x'.toTree.withExtra extra).skeleton bare := by
    rw [skeleton_toTree, skeleton_toTree, alike]
  cases acts with
  | shift =>
    refine ⟨_, .shift _, ?_⟩
    simp [Config.skeleton, skeletonOf, tree, same]
  | shiftExtra =>
    refine ⟨_, .shiftExtra, ?_⟩
    simp [Config.skeleton, skeletonOf, tree, same, top]
  | @reduce rule size layout trees left target popped goto =>
    have pops := pop_skeletonOf bare size frames
    rw [same, pop_skeletonOf bare size frames', popped] at pops
    obtain ⟨⟨trees', left'⟩, popped', both⟩ := Option.map_eq_some_iff.mp pops
    obtain ⟨sameTrees, sameLeft⟩ := Prod.mk.inj both
    have below : topState left' = topState left := by
      obtain ⟨_, rfl, -⟩ := pop_spec popped
      obtain ⟨_, rfl, -⟩ := pop_spec popped'
      rw [← topState_skeletonOf bare (settled_of_append settled'), sameLeft,
        topState_skeletonOf bare (settled_of_append settled)]
    refine ⟨_, .reduce popped' (by rw [below, goto]), ?_⟩
    simp only [Config.skeleton, skeletonOf_putNode, Option.map_some, alike]
    rw [sameTrees, sameLeft]

theorem Works.replay (h : Works c d) (settled : Settled c.frames) (settled' : Settled c'.frames)
    (same : c.skeleton bare = c'.skeleton bare) :
    ∃ d', Works c' d' ∧ d.skeleton bare = d'.skeleton bare := by
  obtain ⟨frames', read?⟩ := c'
  obtain ⟨sameFrames, sameRead⟩ := Config.mk.inj same
  cases h with
  | @rename frames x renames =>
    obtain ⟨x', rfl, alike⟩ := Option.map_eq_some_iff.mp sameRead.symm
    refine ⟨_, .rename ?_, ?_⟩
    · rw [← (renames_replay settled settled' sameFrames alike.symm).1, renames]
    · obtain ⟨-, padding, size, isKeyword, state⟩ := Lexeme.mk.inj alike
      simp [Config.skeleton, Lexeme.skeleton, Lexeme.asIdentifier, isKeyword, state, sameFrames]
  | @act frames x a next stays admits applies =>
    obtain ⟨x', rfl, alike⟩ := Option.map_eq_some_iff.mp sameRead.symm
    obtain ⟨renames, entry⟩ := renames_replay settled settled' sameFrames alike.symm
    obtain ⟨d', acts, sameNext⟩ :=
      (apply_eq_some_iff.mp applies).replay settled settled' sameFrames alike.symm
    exact ⟨d', .act (renames ▸ stays) (entry ▸ admits) (apply_eq_some_iff.mpr acts), sameNext⟩

theorem Takes.settled (h : Takes c xs d) (settled : Settled c.frames) : Settled d.frames := by
  induction h with
  | done => exact settled
  | work works _ ih => exact ih (works.settled settled)
  | read _ _ ih => exact ih settled

/-- Two runs from the same skeleton with lexemes that are alike go the same way. -/
theorem Takes.replay (h : Takes c xs d) (settled : Settled c.frames) (settled' : Settled c'.frames)
    (same : c.skeleton bare = c'.skeleton bare)
    (alike : xs.map Lexeme.skeleton = xs'.map Lexeme.skeleton) :
    ∃ d', Takes c' xs' d' ∧ d.skeleton bare = d'.skeleton bare ∧ Settled d.frames ∧
      Settled d'.frames := by
  induction h generalizing c' xs' with
  | done =>
    obtain rfl := List.map_eq_nil_iff.mp alike.symm
    exact ⟨c', .done, same, settled, settled'⟩
  | work works _ ih =>
    obtain ⟨d', works', same'⟩ := works.replay settled settled' same
    obtain ⟨e', takes, result⟩ := ih (works.settled settled) (works'.settled settled') same' alike
    exact ⟨e', .work works' takes, result⟩
  | @read frames x xs d state _ ih =>
    obtain ⟨frames', read?⟩ := c'
    obtain ⟨sameFrames, sameRead⟩ := Config.mk.inj same
    obtain rfl := Option.map_eq_none_iff.mp sameRead.symm
    obtain ⟨x', xs', rfl, first, rest⟩ := List.map_eq_cons_iff.mp alike.symm
    have state' : x'.state = topState frames' := by
      rw [← topState_skeletonOf bare settled', ← sameFrames, topState_skeletonOf bare settled, ← state]
      exact (Lexeme.mk.inj first).2.2.2.2
    obtain ⟨e', takes, result⟩ := @ih ⟨frames', some x'⟩ xs' settled settled'
      (by simp [Config.skeleton, sameFrames, first]) rest.symm
    exact ⟨e', .read state' takes, result⟩

/-- Where a configuration accepts, those with the same skeleton do so too. -/
theorem accepted?_replay {t : Tree} (settled : Settled c.frames) (settled' : Settled c'.frames)
    (same : c.skeleton bare = c'.skeleton bare) (accepted : c.accepted? = some t) :
    ∃ t', c'.accepted? = some t' ∧ t.skeleton bare = t'.skeleton bare := by
  obtain ⟨frames, read?⟩ := c
  obtain ⟨frames', read?'⟩ := c'
  obtain ⟨sameFrames, sameRead⟩ := Config.mk.inj same
  cases read? with
  | none => cases accepted
  | some x =>
    obtain ⟨x', rfl, alike⟩ := Option.map_eq_some_iff.mp sameRead.symm
    obtain ⟨-, entry⟩ := renames_replay settled settled' sameFrames alike.symm
    have entry' : Config.entryFor ⟨frames', some x'⟩ x' = Config.entryFor ⟨frames, some x⟩ x :=
      entry.symm
    have last : Tree.skeletons bare [x.toTree] = Tree.skeletons bare [x'.toTree] := by
      have single (x : Lexeme) : Tree.skeletons bare [x.toTree] =
          if bare && x.skeleton.toTree.isExtra then [] else [x.skeleton.toTree] := by
        rw [Tree.skeletons]
        rfl
      rw [single, single, alike]
    have trees : Tree.skeletons bare ((frames.map Frame.tree).reverse ++ [x.toTree]) =
        Tree.skeletons bare ((frames'.map Frame.tree).reverse ++ [x'.toTree]) := by
      rw [Tree.skeletons_append, Tree.skeletons_append, skeletons_trees, skeletons_trees, last]
      exact congrArg (fun fs => (fs.map Frame.tree).reverse ++ _) sameFrames
    obtain ⟨_, known, accepts, root⟩ := accepted?_eq_some_iff.mp accepted
    obtain rfl := Option.some.inj known
    have roots := Tree.rootOf?_skeletons bare ((frames.map Frame.tree).reverse ++ [x.toTree])
    rw [trees, Tree.rootOf?_skeletons, root] at roots
    obtain ⟨t', root', skeleton⟩ := Option.map_eq_some_iff.mp roots
    exact ⟨t', accepted?_eq_some_iff.mpr ⟨x', rfl, entry' ▸ accepts, root'⟩, skeleton.symm⟩

end Plain

end SusSyntax
