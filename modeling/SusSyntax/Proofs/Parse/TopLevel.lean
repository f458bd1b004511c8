import SusSyntax.Proofs.Grammar.Lines
import SusSyntax.Proofs.Parse.Folds
import SusSyntax.Proofs.Parse.Marks
import SusSyntax.Proofs.Tree.Objects

/-!
The machine between the objects of a source file.

Between objects the stack holds line breaks and objects, some of them in nodes that are not shown, and
comments (`IsTop`). What is to be reduced there before a token is reduced (`IsTop.settle`), whatever
stands further below. So a line break is taken (`IsTop.exists_break`), and at the end of the text the tree
is accepted whose objects are those on the stack (`IsTop.exists_end`).
-/

namespace SusSyntax

open Grammar Lexical

namespace Plain

variable {frames left taken : List Frame} {u : Token} {x : Lexeme} {rule : Rule}
  {size layout : Nat} {trees : List Tree} {target : State} {t : Tree}

/-! ### Stacks between objects -/

/-- Nothing stands on a stack but what stands between objects, and objects. -/
def IsTop : List Frame → Prop
  | [] => True
  | f :: below =>
    (if f.tree.isExtra then f.state = topState below else (topState below, f.state) ∈ State.layers) ∧
      IsTop below

/-- The objects that are seen of the trees on a stack. -/
def objectsOn (frames : List Frame) : List Tree :=
  Tree.objectsOf (frames.map Frame.tree).reverse

theorem objectsOn_cons (f : Frame) (frames : List Frame) :
    objectsOn (f :: frames) = objectsOn frames ++ f.tree.objects := by
  simp [objectsOn, Tree.objectsOf]

theorem IsTop.mem_tops (h : IsTop frames) : topState frames ∈ State.tops := by
  induction frames with
  | nil => decide
  | cons f below ih =>
    obtain ⟨here, below⟩ := h
    split at here
    · rw [topState, here]
      exact ih below
    · exact (State.mem_tops_of_layer here).2

theorem IsTop.shiftExtra (h : IsTop frames) (t : Tree) (extra : t.isExtra = true) :
    IsTop (⟨t, topState frames⟩ :: frames) :=
  ⟨by rw [if_pos extra], h⟩

theorem isTop_pushExtras {extras : List Tree} (h : IsTop frames) (top : topState frames = target)
    (isExtra : ∀ t ∈ extras, t.isExtra = true) : IsTop (pushTrees target frames extras) := by
  induction extras generalizing frames with
  | nil => exact h
  | cons t extras ih =>
    obtain ⟨first, others⟩ := List.forall_mem_cons.mp isExtra
    exact ih (top ▸ h.shiftExtra t first) rfl others

theorem isTop_putNode (h : IsTop left) (layer : (topState left, target) ∈ State.layers) :
    IsTop (putNode rule layout trees target left) := by
  rw [putNode_eq, pushTrees_cons]
  exact isTop_pushExtras ⟨layer, h⟩ rfl fun t => Tree.isExtra_of_mem_trailing

theorem underneath_mono {ss ss' : List State} (sub : ss ⊆ ss') (count : Nat) :
    State.underneath count ss ⊆ State.underneath count ss' := by
  induction count generalizing ss ss' with
  | zero => exact sub
  | succ count ih =>
    refine ih fun s mem => ?_
    obtain ⟨q, inside, known⟩ := List.mem_flatMap.mp mem
    exact List.mem_flatMap.mpr ⟨q, sub inside, known⟩

/-- What can be below the upper one of two layers. -/
theorem underneath_of_layer {b s : State} (layer : (b, s) ∈ State.layers) (count : Nat) :
    State.underneath count [b] ⊆ State.underneath (count + 1) [s] := by
  refine underneath_mono (fun q mem => ?_) count
  obtain rfl := List.mem_singleton.mp mem
  rw [List.flatMap_singleton]
  exact List.mem_map.mpr ⟨_, List.mem_filter.mpr ⟨layer, beq_self_eq_true s⟩, rfl⟩

/-- What is left below some trees is known from the state on top. -/
theorem IsTop.of_pop (h : IsTop frames) (popped : pop size frames = some (trees, left)) :
    IsTop left ∧ topState left ∈ State.underneath size [topState frames] := by
  induction frames generalizing size trees with
  | nil =>
    cases size with
    | zero =>
      obtain ⟨-, rfl⟩ := Prod.mk.inj (Option.some.inj popped)
      exact ⟨h, List.mem_singleton.mpr rfl⟩
    | succ size => cases popped
  | cons f below ih =>
    cases size with
    | zero =>
      obtain ⟨-, rfl⟩ := Prod.mk.inj (Option.some.inj popped)
      exact ⟨h, List.mem_singleton.mpr rfl⟩
    | succ size =>
      obtain ⟨here, below⟩ := h
      rw [pop] at popped
      obtain ⟨⟨trees', left'⟩, popped', same⟩ := Option.map_eq_some_iff.mp popped
      obtain ⟨-, rfl⟩ := Prod.mk.inj same
      split at here
      · rename_i extra
        rw [if_pos extra] at popped'
        rw [topState, here]
        exact ih below popped'
      · rename_i inside
        rw [if_neg inside] at popped'
        obtain ⟨lower, known⟩ := ih below popped'
        exact ⟨lower, underneath_of_layer here size known⟩

/-- As many trees as there must be between objects can be taken off. -/
theorem IsTop.exists_pop (h : IsTop frames)
    (deep : ∀ count < size, startState ∉ State.underneath count [topState frames]) :
    ∃ trees left, pop size frames = some (trees, left) := by
  induction frames generalizing size with
  | nil =>
    cases size with
    | zero => exact ⟨[], [], rfl⟩
    | succ size => exact absurd (List.mem_singleton.mpr rfl) (deep 0 (Nat.succ_pos size))
  | cons f below ih =>
    cases size with
    | zero => exact ⟨[], f :: below, rfl⟩
    | succ size =>
      obtain ⟨here, below⟩ := h
      split at here
      · rename_i extra
        rw [topState, here] at deep
        obtain ⟨trees, left, popped⟩ := ih below deep
        exact ⟨trees ++ [f.tree], left, by rw [pop, if_pos extra, popped]; rfl⟩
      · rename_i inside
        obtain ⟨trees, left, popped⟩ := ih below fun count less mem =>
          deep (count + 1) (Nat.succ_lt_succ less) (underneath_of_layer here count mem)
        exact ⟨trees ++ [f.tree], left, by rw [pop, if_neg inside, popped]; rfl⟩

/-! ### Reductions -/

theorem objectsOn_putNode_eq : objectsOn (putNode rule layout trees target left) = objectsOn left ++
    Tree.objectsOf (.ofChildren (.rule rule layout) (Tree.splitTrailingExtras trees).1 ::
      (Tree.splitTrailingExtras trees).2) := by
  rw [objectsOn, objectsOn, putNode_eq, trees_pushTrees, Tree.objectsOf_append]

/-- A node that is not shown keeps the objects that it is made of. -/
theorem objectsOn_putNode (popped : pop size frames = some (trees, left))
    (hidden : rule.isHidden = true) :
    objectsOn (putNode rule layout trees target left) = objectsOn frames := by
  obtain ⟨taken, rfl, rfl, -⟩ := pop_spec popped
  rw [objectsOn_putNode_eq, Tree.objectsOf, Tree.objects_ofChildren_hidden hidden,
    ← Tree.objectsOf_append, Tree.append_splitTrailingExtras, objectsOn, objectsOn, List.map_append,
    List.reverse_append, Tree.objectsOf_append]

/-- A reduction between objects leads on between objects, and keeps them. -/
theorem IsTop.reduce (h : IsTop frames)
    (admits : .reduce rule size layout ∈ ((topState frames).row.entry u).actions)
    (ne : rule ≠ .sourceFile) (popped : pop size frames = some (trees, left))
    (goto : (topState left).row.goto? rule = some target) :
    IsTop (putNode rule layout trees target left) ∧
      State.isOpen target = State.isOpen (topState frames) ∧
      objectsOn (putNode rule layout trees target left) = objectsOn frames := by
  obtain ⟨lower, below⟩ := h.of_pop popped
  obtain ⟨hidden, layer, opened⟩ := State.layer_of_reduce h.mem_tops admits ne below goto
  exact ⟨isTop_putNode lower layer, opened, objectsOn_putNode popped hidden⟩

/-- What can be ahead between objects: a line break, the end, or at the beginning of a line a keyword. -/
def IsAhead (u : Token) (s : State) : Prop :=
  u = .newline ∨ u = .eof ∨ u ∈ State.objectWords ∧ State.isOpen s = true

/-- Before what can be ahead all is reduced that there is to be reduced. -/
theorem IsTop.settle (h : IsTop frames) (ahead : IsAhead u (topState frames)) :
    ∃ more, Folds u frames more ∧ IsTop more ∧ objectsOn more = objectsOn frames ∧
      State.isOpen (topState more) = State.isOpen (topState frames) ∧
      topState more ∈ State.lineStarts ++ State.lineEnds := by
  have one {frames : List Frame} (h : IsTop frames) (ahead : IsAhead u (topState frames))
      (state : topState frames ∈ State.unsettled) :
      ∃ more, Folds u frames more ∧ IsTop more ∧ objectsOn more = objectsOn frames ∧
        State.isOpen (topState more) = State.isOpen (topState frames) ∧
        (topState more = 153 ∧ topState frames = 207 ∨
          topState more ∈ State.lineStarts ++ State.lineEnds) := by
    obtain ⟨rule, size, layout, admits, ne, deep, leads⟩ := State.settles state ahead
    obtain ⟨trees, left, popped⟩ := h.exists_pop deep
    obtain ⟨n, goto, known⟩ := leads _ (h.of_pop popped).2
    obtain ⟨top, opened, objects⟩ := h.reduce admits ne popped goto
    exact ⟨_, .step admits popped goto .done, top, objects, by rw [topState_putNode, opened],
      by rwa [topState_putNode]⟩
  by_cases settled : topState frames ∈ State.lineStarts ++ State.lineEnds
  · exact ⟨frames, .done, h, rfl, rfl, settled⟩
  have state : topState frames ∈ State.unsettled :=
    (List.mem_append.mp h.mem_tops).resolve_left settled
  obtain ⟨more, folds, top, objects, opened, known | settled⟩ := one h ahead state
  · have next : topState more ∈ State.unsettled := known.1 ▸ (by decide)
    have ahead' : IsAhead u (topState more) := by
      rw [IsAhead, opened]
      exact ahead
    obtain ⟨more', folds', top', objects', opened', known' | settled⟩ := one top ahead' next
    · exact absurd (known.1.symm.trans known'.2) (by decide)
    · exact ⟨more', folds.trans folds', top', objects'.trans objects, opened'.trans opened, settled⟩
  · exact ⟨more, folds, top, objects, opened, settled⟩

/-! ### Line breaks and the end -/

/-- A line break is taken between objects, and a line begins. -/
theorem IsTop.exists_break (h : IsTop frames) (leaf : x.leaf = .read .newline) :
    ∃ more, Takes ⟨frames, some x⟩ [] ⟨more, none⟩ ∧ IsTop more ∧ objectsOn more = objectsOn frames ∧
      State.isOpen (topState more) = true := by
  obtain ⟨more, folds, top, objects, -, settled⟩ := h.settle (u := .newline) (.inl rfl)
  obtain ⟨n, shift, layer, opened⟩ := State.shift_newline settled
  refine ⟨_, folds.takes leaf shift, ⟨layer, top⟩, ?_, opened⟩
  rw [objectsOn_cons, objects]
  exact List.append_nil _

/-- The root is made of all trees on the stack and of the end of the text. -/
theorem rootOf?_putNode (popped : pop size frames = some (trees, left)) (isEnd : x.leaf = .read .eof) :
    Parse.rootOf? (((putNode rule layout trees target left).map Frame.tree).reverse ++ [x.toTree]) =
      some (.ofChildren (.rule rule layout) ((frames.map Frame.tree).reverse ++ [x.toTree])) := by
  obtain ⟨taken, rfl, rfl, -⟩ := pop_spec popped
  have trailing : ∀ u ∈ (Tree.splitTrailingExtras (taken.map Frame.tree).reverse).2 ++ [x.toTree],
      u.isExtra = true := by
    refine List.forall_mem_append.mpr ⟨fun u => Tree.isExtra_of_mem_trailing, fun u mem => ?_⟩
    obtain rfl := List.mem_singleton.mp mem
    simp [Lexeme.toTree, Lexeme.isEnd, Tree.isExtra, isEnd]
  have root := Tree.rootOf?_append (left.map Frame.tree).reverse
    (t := .ofChildren (.rule rule layout) (Tree.splitTrailingExtras (taken.map Frame.tree).reverse).1)
    rfl trailing
  rw [putNode_eq, trees_pushTrees, List.append_assoc, List.cons_append, ← List.singleton_append,
    ← List.append_assoc, root]
  simp only [Tree.ofChildren, List.append_assoc, Option.some.injEq]
  rw [← List.append_assoc _ _ [x.toTree], Tree.append_splitTrailingExtras, List.map_append,
    List.reverse_append, List.append_assoc]

theorem goto_sourceFile_eq (goto : (topState left).row.goto? .sourceFile = some target) :
    target = 225 := by
  rw [(State.outer_of_goto goto).2.1 rfl] at goto
  exact Option.some.inj (goto.symm.trans State.root_ends.1)

/-- Behind the reduction of the root nothing is left to be done, and the root has the objects that stood
on the stack. -/
theorem objectsOf_of_accepted {d : Config} (popped : pop size frames = some (trees, left))
    (goto : (topState left).row.goto? .sourceFile = some target) (isEnd : x.leaf = .read .eof)
    (noName : x.isKeyword = false)
    (h : Takes ⟨putNode .sourceFile layout trees target left, some x⟩ [] d)
    (accepted : d.accepted? = some t) : Tree.objectsOf t.children = objectsOn frames := by
  obtain rfl := goto_sourceFile_eq goto
  obtain rfl : d = ⟨putNode .sourceFile layout trees 225 left, some x⟩ := by
    cases h with
    | done => rfl
    | work works =>
      rcases works.cases_of_leaf isEnd with ⟨keyword, -⟩ | ⟨n, admits, -⟩ | ⟨admits, -⟩ |
        ⟨rule, size, layout, trees, left, target, admits, -⟩
      · cases noName.symm.trans keyword
      all_goals
        rw [topState_putNode, State.root_ends.2] at admits
        cases List.mem_singleton.mp admits
  obtain ⟨_, same, -, root⟩ := accepted?_eq_some_iff.mp accepted
  obtain rfl := Option.some.inj same
  rw [rootOf?_putNode popped isEnd] at root
  obtain rfl := Option.some.inj root
  rw [Tree.children_ofChildren, Tree.objectsOf_append]
  exact List.append_nil _

/-- At the end of the text what stands between objects is accepted, with the objects that are there. -/
theorem IsTop.exists_end (h : IsTop frames) (isEnd : x.leaf = .read .eof) :
    ∃ d t, Takes ⟨frames, some x⟩ [] d ∧ d.accepted? = some t ∧
      Tree.objectsOf t.children = objectsOn frames := by
  obtain ⟨more, folds, top, objects, -, settled⟩ := h.settle (u := .eof) (.inr (.inl rfl))
  obtain ⟨size, layout, admits, deep, lowest⟩ := State.reduce_eof settled
  obtain ⟨trees, left, popped⟩ := top.exists_pop deep
  have goto : (topState left).row.goto? .sourceFile = some 225 := by
    rw [lowest _ (top.of_pop popped).2]
    exact State.root_ends.1
  refine ⟨_, .ofChildren (.rule .sourceFile layout) ((more.map Frame.tree).reverse ++ [x.toTree]),
    (folds.works isEnd).trans (.work (works_reduce isEnd admits popped goto) .done), ?_, ?_⟩
  · have accepts : (Config.entryFor ⟨putNode .sourceFile layout trees 225 left, some x⟩
        x).actions.contains .accept = true := by
      rw [Config.entryFor, topState_putNode, Lexeme.symbol, isEnd]
      exact List.contains_iff_mem.mpr (State.root_ends.2 ▸ List.mem_singleton.mpr rfl)
    rw [Config.accepted?]
    dsimp only
    rw [if_pos accepts, rootOf?_putNode popped isEnd]
  · rw [Tree.children_ofChildren, Tree.objectsOf_append, ← objects]
    exact List.append_nil _

end Plain

end SusSyntax
