import SusSyntax.Proofs.Parse.Agreement
import SusSyntax.Proofs.Tree.Levels

/-!
The single stack keeps its trees ordered by the levels of operators.

The trees on the stack are linked, and the last of them is held together strongly enough for the
lexeme that was read (`Plain.Config.Ordered`). Every step keeps this up (`Plain.Step.ordered`), so
a tree that is accepted is ordered, and with it the tree of every source without errors
(`ordered_parse`).
-/

namespace SusSyntax

open Grammar Lexical Plain

namespace Plain

variable {frames left taken : List Frame} {f : Frame}

/-- The trees on a stack that are no extras, in the order of the text. -/
def insideTrees (frames : List Frame) : List Tree :=
  Tree.insiders (frames.map Frame.tree).reverse

theorem insideTrees_cons_of_extra (h : f.tree.isExtra = true) (frames : List Frame) :
    insideTrees (f :: frames) = insideTrees frames := by
  simp [insideTrees, Tree.insiders, h]

theorem insideTrees_cons_of_not_extra (h : f.tree.isExtra = false) (frames : List Frame) :
    insideTrees (f :: frames) = insideTrees frames ++ [f.tree] := by
  simp [insideTrees, Tree.insiders, h]

theorem insideTrees_append (taken left : List Frame) :
    insideTrees (taken ++ left) = insideTrees left ++ insideTrees taken := by
  simp [insideTrees]

theorem length_insideTrees (frames : List Frame) :
    (insideTrees frames).length = insideCount frames := by
  simp [insideTrees, Tree.insiders, insideCount, List.countP_eq_length_filter, List.filter_map,
    Function.comp_def]

theorem insideTrees_pushTrees_of_extras {ts : List Tree} (h : ∀ t ∈ ts, t.isExtra = true)
    (target : State) (frames : List Frame) :
    insideTrees (pushTrees target frames ts) = insideTrees frames := by
  induction ts generalizing frames with
  | nil => rfl
  | cons t ts ih =>
    obtain ⟨first, rest⟩ := List.forall_mem_cons.mp h
    rw [pushTrees_cons, ih rest, insideTrees_cons_of_extra first]

/-- A reduction leaves the node of the rule on top. -/
theorem insideTrees_putNode (rule : Rule) (layout : Nat) (trees : List Tree) (target : State)
    (left : List Frame) :
    insideTrees (putNode rule layout trees target left) = insideTrees left ++
      [.ofChildren (.rule rule layout) (Tree.splitTrailingExtras trees).1] := by
  rw [putNode_eq, pushTrees_cons,
    insideTrees_pushTrees_of_extras fun _ => Tree.isExtra_of_mem_trailing]
  exact insideTrees_cons_of_not_extra rfl left

/-- The trees on a stack lead from its base to the state on top, and no comment is among them. -/
theorem Carries.through_insideTrees {base s : State} {below : List State}
    (h : Carries base frames (s :: below)) :
    base.through ((insideTrees frames).map Tree.symbol) = s ∧
      ∀ u, .token u ∈ (insideTrees frames).map Tree.symbol → u.isComment = false := by
  generalize same : s :: below = states at h
  induction h generalizing s below with
  | start =>
    obtain ⟨rfl, -⟩ := List.cons.inj same
    exact ⟨rfl, fun u mem => absurd mem List.not_mem_nil⟩
  | @inside frames q rest t _ inside free _ ih =>
    obtain ⟨rfl, -⟩ := List.cons.inj same
    obtain ⟨way, free'⟩ := ih rfl
    rw [insideTrees_cons_of_not_extra inside, List.map_append, List.map_singleton]
    refine ⟨?_, fun u mem => ?_⟩
    · rw [State.through_append, way]
      rfl
    · rcases List.mem_append.mp mem with mem | mem
      · exact free' u mem
      · exact free u (List.mem_singleton.mp mem).symm
  | extra _ extra ih =>
    rw [insideTrees_cons_of_extra extra]
    exact ih same

/-! ### Ordered stacks -/

/-- How strongly the last tree on a stack is held together. -/
def lastLevel (frames : List Frame) : Level :=
  Tree.lastLevel .whole (insideTrees frames)

/-- The trees on the stack are ordered and linked, and the last one is held together strongly enough
for what was read, and for anything if nothing was read since it was put there. -/
structure Config.Ordered (text : Text) (c : Config) : Prop extends Config.Sound text c where
  ordered : ∀ f ∈ c.frames, f.tree.Ordered
  linked : Tree.Linked startState .whole (insideTrees c.frames)
  fresh : c.read? = none → lastLevel c.frames = .whole
  allows : ∀ x, c.read? = some x → x.symbol.demand ≤ lastLevel c.frames

variable {text : Text} {c d : Config} {m : Move} {x : Lexeme}

theorem ordered_initial (text : Text) : Config.initial.Ordered text where
  toSound := sound_initial text
  ordered _ mem := absurd mem List.not_mem_nil
  linked := trivial
  fresh _ := rfl
  allows := nofun

theorem Config.Ordered.shift (h : c.Ordered text) {target : State} (known : c.read? = some x)
    (sound : Config.Sound text ⟨⟨x.toTree.withExtra false, target⟩ :: c.frames, none⟩) :
    Config.Ordered text ⟨⟨x.toTree.withExtra false, target⟩ :: c.frames, none⟩ where
  toSound := sound
  ordered := List.forall_mem_cons.mpr ⟨.leaf, h.ordered⟩
  linked := by
    rw [insideTrees_cons_of_not_extra rfl, Tree.linked_append]
    exact ⟨h.linked, Tree.linked_singleton.mpr ⟨h.allows x known, Level.le_whole _⟩⟩
  fresh _ := by
    rw [lastLevel, insideTrees_cons_of_not_extra rfl, Tree.lastLevel_concat]
    rfl
  allows := nofun

theorem Config.Ordered.shiftExtra (h : c.Ordered text) (known : c.read? = some x)
    (admits : .shiftExtra ∈ (c.entryFor x).actions) {target : State}
    (sound : Config.Sound text ⟨⟨x.toTree.withExtra true, target⟩ :: c.frames, none⟩) :
    Config.Ordered text ⟨⟨x.toTree.withExtra true, target⟩ :: c.frames, none⟩ where
  toSound := sound
  ordered := List.forall_mem_cons.mpr ⟨.leaf, h.ordered⟩
  linked := by
    rw [insideTrees_cons_of_extra rfl]
    exact h.linked
  fresh _ := by
    obtain ⟨t, symbol, admits⟩ := State.exists_of_mem_entry admits
    have demand : x.symbol.demand = .whole := by
      have comment := State.isComment_of_shiftExtra admits
      rw [symbol]
      cases t <;> first | rfl | cases comment
    have allows := h.allows x known
    rw [demand] at allows
    rw [lastLevel, insideTrees_cons_of_extra rfl]
    exact Level.eq_whole_of_le allows
  allows := nofun

/-- The node of a rule may stand in the place of its children. -/
theorem Config.Ordered.reduce (h : c.Ordered text) {rule : Rule} {size layout : Nat} {u : Token}
    (symbol : x.symbol = .token u)
    (admits : .reduce rule size layout ∈ ((topState c.frames).row.entry u).actions)
    {trees : List Tree} {target : State} (popped : pop size c.frames = some (trees, left))
    (sound : Config.Sound text ⟨putNode rule layout trees target left, some x⟩) :
    Config.Ordered text ⟨putNode rule layout trees target left, some x⟩ := by
  obtain ⟨taken, split, rfl, count, -⟩ := pop_spec popped
  obtain ⟨states, carries⟩ := h.carries
  obtain ⟨s, below, rfl⟩ := carries.exists_eq_cons
  rw [carries.topState_eq] at admits
  obtain ⟨way, free⟩ := carries.through_insideTrees
  have linked := h.linked
  have ordered := h.ordered
  rw [split] at linked ordered
  rw [split, insideTrees_append, List.map_append] at way free
  rw [insideTrees_append, Tree.linked_append] at linked
  rw [State.through_append] at way
  rw [← count, ← length_insideTrees, ← way] at admits
  obtain ⟨orders, first, demanded, before⟩ := linked.2.reduce
    (fun t mem => free t (List.mem_append_right _ mem)) admits
  have inside : Tree.insiders (Tree.splitTrailingExtras (taken.map Frame.tree).reverse).1 =
      insideTrees taken := Tree.insiders_splitTrailingExtras _
  have level : (Tree.ofChildren (.rule rule layout)
      (Tree.splitTrailingExtras (taken.map Frame.tree).reverse).1).level =
      rule.level ((insideTrees taken).map Tree.symbol) := by
    rw [← inside]
    rfl
  have parts : ∀ t ∈ (Tree.splitTrailingExtras (taken.map Frame.tree).reverse).1 ++
      (Tree.splitTrailingExtras (taken.map Frame.tree).reverse).2, t.Ordered := by
    rw [Tree.append_splitTrailingExtras]
    intro t mem
    obtain ⟨f, isTaken, rfl⟩ := List.mem_map.mp (List.mem_reverse.mp mem)
    exact ordered f (List.mem_append_left _ isTaken)
  refine ⟨sound, fun f mem => ?_, ?_, nofun, fun y same => ?_⟩
  · rcases mem_pushTrees.mp (putNode_eq .. ▸ mem) with mem | ⟨t, isNew, rfl⟩
    · exact ordered f (List.mem_append_right _ mem)
    · rcases List.mem_cons.mp isNew with rfl | isExtra
      · refine .node (fun t mem => parts t (List.mem_append_left _ mem)) fun r l same => ?_
        obtain ⟨rfl, rfl⟩ := Label.rule.inj same
        exact inside ▸ orders
      · exact parts t (List.mem_append_right _ isExtra)
  · rw [insideTrees_putNode, Tree.linked_append]
    exact ⟨linked.1, Tree.linked_singleton.mpr ⟨first, level ▸ demanded⟩⟩
  · obtain rfl := Option.some.inj same
    rw [lastLevel, insideTrees_putNode, Tree.lastLevel_concat, level, symbol]
    exact before

/-- Every step keeps the stack ordered. -/
theorem Step.ordered (step : Step text c m d) (h : c.Ordered text) : d.Ordered text := by
  have sound := step.sound h.toSound
  cases step with
  | read => exact ⟨sound, h.ordered, h.linked, nofun, fun y _ => h.fresh rfl ▸ Level.le_whole _⟩
  | rename =>
    refine ⟨sound, h.ordered, h.linked, nofun, fun y same => ?_⟩
    obtain rfl := Option.some.inj same
    exact Level.compare_le _
  | @act _ _ x a known stays admits applies =>
    obtain ⟨u, symbol, admits'⟩ := State.exists_of_mem_entry admits
    cases apply_eq_some_iff.mp applies with
    | shift => exact h.shift known sound
    | shiftExtra => exact h.shiftExtra known admits sound
    | reduce popped => exact h.reduce symbol admits' popped sound

theorem Run.ordered (run : Run text c d) (h : c.Ordered text) : d.Ordered text := by
  induction run with
  | done => exact h
  | step step _ ih => exact ih (step.ordered h)

end Plain

/-- In a source without errors, the trees below the root are ordered. -/
theorem ordered_parse {source : List UInt8} (clean : (parse source).isClean = true) :
    ∀ t ∈ (parse source).children, t.Ordered := by
  obtain ⟨c, run, accepted⟩ := (accepts_iff_of_isClean clean _).mpr rfl
  have ordered := run.ordered (ordered_initial _)
  obtain ⟨layout, ts, accepted', below⟩ :=
    ordered.exists_accepted (Config.isAccepting_of_accepted? accepted)
  obtain same := Option.some.inj (accepted.symm.trans accepted')
  rw [same]
  intro t mem
  rcases below t mem with ⟨x, rfl⟩ | ⟨f, isFrame, rfl | mem⟩
  · exact .leaf
  · exact ordered.ordered f isFrame
  · exact (ordered.ordered f isFrame).of_mem_children t mem

end SusSyntax
