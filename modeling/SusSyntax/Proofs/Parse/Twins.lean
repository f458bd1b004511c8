import SusSyntax.Proofs.Parse.Extras
import SusSyntax.Proofs.Parse.Origins
import SusSyntax.Proofs.Parse.TopLevel

/-!
Stacks with the same object begun.

Inside an object the machine does not look at what stands below its beginning (`IsInside.pop_cases`). So
the same object may be begun on stacks that stand on other objects (`Twin`): with the same lexemes the
machine goes the same way on both (`Twin.takes`), and at the end it has the objects of both
(`Twin.close`).
-/

namespace SusSyntax

open Grammar Lexical

/-- The lexeme as it is read in another state. -/
def Lexical.Lexeme.inState (x : Lexeme) (s : State) : Lexeme :=
  { x with state := s }

namespace Plain

variable {frames frames' inner outer outer' left more : List Frame} {u v : Token} {x : Lexeme}
  {rule : Rule} {size layout : Nat} {trees : List Tree} {target : State} {t : Tree}
  {before : List Tree}

/-! ### Inside an object -/

/-- A stack from the beginning of an object on. -/
def IsInside (inner : List Frame) : Prop :=
  (∃ upper first, inner = upper ++ [first] ∧ first.tree.isExtra = false ∧
    first.state ∈ State.objectStates) ∧
    ∀ f ∈ inner, f.state ≠ startState ∧ f.state ≠ State.acceptState

theorem IsInside.topState_eq (h : IsInside inner) (outer outer' : List Frame) :
    topState (inner ++ outer') = topState (inner ++ outer) := by
  obtain ⟨⟨upper, first, rfl, -⟩, -⟩ := h
  cases upper <;> rfl

/-- As many trees as there are can be taken off a stack. -/
theorem exists_pop_of_count {k : Nat} (less : k ≤ insideCount frames) :
    ∃ trees left, pop k frames = some (trees, left) := by
  induction frames generalizing k with
  | nil =>
    obtain rfl : k = 0 := Nat.le_zero.mp less
    exact ⟨[], [], rfl⟩
  | cons f below ih =>
    cases k with
    | zero => exact ⟨[], f :: below, rfl⟩
    | succ k =>
      rw [insideCount, List.countP_cons] at less
      obtain ⟨trees, left, popped⟩ : ∃ trees left,
          pop (if f.tree.isExtra then k + 1 else k) below = some (trees, left) := by
        cases extra : f.tree.isExtra with
        | true => exact ih (by simpa [extra, insideCount] using less)
        | false => exact ih (by simpa [extra, insideCount] using less)
      exact ⟨trees ++ [f.tree], left, by rw [pop, popped]; rfl⟩

/-- Inside an object a reduction leaves its beginning, or it takes all of it for the object or its kind.
What stands below does not matter. -/
theorem IsInside.pop_cases (h : IsInside inner) (grounded : Grounded (inner ++ outer))
    (admits : .reduce rule size layout ∈ ((topState (inner ++ outer)).row.entry u).actions)
    (popped : pop size (inner ++ outer) = some (trees, left)) :
    (∃ lower, left = lower ++ outer ∧ IsInside lower ∧
        ∀ outer', pop size (inner ++ outer') = some (trees, lower ++ outer')) ∨
      left = outer ∧ (rule = .globalObject ∨ rule = .constAndType) ∧
        ∀ outer', pop size (inner ++ outer') = some (trees, outer') := by
  obtain ⟨⟨upper, first, rfl, inside, start⟩, states⟩ := h
  have shape (outer : List Frame) : upper ++ [first] ++ outer = upper ++ first :: outer := by simp
  rw [shape] at grounded admits popped
  obtain ⟨founded, leads⟩ := grounded.spec
  rw [Tree.follow_eq_through] at leads
  obtain ⟨most, ends⟩ := State.ends_of_reduce founded.noComment start leads admits
  rw [List.length_map, length_insiders] at most ends
  rcases Nat.lt_or_eq_of_le most with less | rfl
  · obtain ⟨trees', lower, taken⟩ := exists_pop_of_count (Nat.le_of_lt_succ less)
    have all := pop_append taken
    obtain ⟨rfl, rfl⟩ := Prod.mk.inj (Option.some.inj (popped.symm.trans (all (first :: outer))))
    refine .inl ⟨lower ++ [first], by simp, ⟨⟨lower, first, rfl, inside, start⟩, fun f mem => ?_⟩,
      fun outer' => ?_⟩
    · obtain ⟨taken', rfl, -⟩ := pop_spec taken
      exact states f (by simp only [List.mem_append] at mem ⊢; exact mem.imp_left .inr)
    · rw [shape, all]
      simp
  · have all (outer : List Frame) : pop (insideCount upper + 1) (upper ++ first :: outer) = _ :=
      pop_through first inside outer
    obtain ⟨rfl, rfl⟩ := Prod.mk.inj (Option.some.inj (popped.symm.trans (all outer)))
    exact .inr ⟨rfl, ends rfl, fun outer' => by rw [shape, all]⟩

/-- A reduction inside an object stays there. -/
theorem IsInside.putNode (h : IsInside inner) (ne : target ≠ startState ∧ target ≠ State.acceptState) :
    IsInside (Plain.putNode rule layout trees target inner) := by
  obtain ⟨⟨upper, first, rfl, inside, start⟩, states⟩ := h
  refine ⟨⟨_, first, by rw [putNode_append], inside, start⟩, fun f mem => ?_⟩
  rw [putNode_eq] at mem
  rcases mem_pushTrees.mp mem with known | ⟨t, -, rfl⟩
  · exact states f known
  · exact ne

/-- The kind of an object is the beginning of one. -/
theorem isInside_putNode_kind :
    IsInside (Plain.putNode .constAndType layout trees 223 []) := by
  refine ⟨⟨pushTrees 223 [] (Tree.splitTrailingExtras trees).2,
    ⟨.ofChildren (.rule .constAndType layout) (Tree.splitTrailingExtras trees).1, 223⟩,
    pushTrees_append 223 [] [_] _, rfl, (by decide : (223 : State) ∈ _)⟩, fun f mem => ?_⟩
  rw [putNode_eq] at mem
  rcases mem_pushTrees.mp mem with known | ⟨t, -, rfl⟩
  · cases known
  · rw [State.acceptState_eq]
    exact ⟨(by decide : (223 : State) ≠ startState), (by decide : (223 : State) ≠ 225)⟩

/-- Stacks with the same object begun, on others between objects, or with none: on the first one there
are the objects `before` in front of those of the second one. -/
inductive Twin (before : List Tree) : List Frame → List Frame → Prop where
  | between {frames frames' : List Frame} : IsTop frames → IsTop frames' →
      State.isOpen (topState frames') = State.isOpen (topState frames) →
      objectsOn frames' = before ++ objectsOn frames → Twin before frames frames'
  | inside {inner outer outer' : List Frame} : IsInside inner → IsTop outer → IsTop outer' →
      topState outer ∈ State.lineStarts → topState outer' ∈ State.lineStarts →
      objectsOn outer' = before ++ objectsOn outer → Twin before (inner ++ outer) (inner ++ outer')

/-- A reduction on one of the stacks is made on the other one, or there is none to be made there. -/
theorem Twin.reduce (twin : Twin before frames frames') (grounded : Grounded frames)
    (admits : .reduce rule size layout ∈ ((topState frames).row.entry u).actions)
    (ne : rule ≠ .sourceFile)
    (same : ∀ s : State, .reduce rule size layout ∈ (s.row.entry u).actions →
      .reduce rule size layout ∈ (s.row.entry v).actions)
    (popped : pop size frames = some (trees, left))
    (goto : (topState left).row.goto? rule = some target) :
    ∃ more, Folds v frames' more ∧ Twin before (Plain.putNode rule layout trees target left) more := by
  cases twin with
  | between top top' opened objects =>
    obtain ⟨topNext, openedNext, objectsNext⟩ := top.reduce admits ne popped goto
    refine ⟨frames', .done, .between topNext top' ?_ ?_⟩
    · rw [topState_putNode, opened, openedNext]
    · rw [objects, objectsNext]
  | @inside inner outer outer' isInside top top' line line' objects =>
    have sameTop := isInside.topState_eq outer outer'
    have admits' : .reduce rule size layout ∈ ((topState (inner ++ outer')).row.entry v).actions := by
      rw [sameTop]
      exact same _ admits
    rcases isInside.pop_cases grounded admits popped with
      ⟨lower, rfl, isLower, pops⟩ | ⟨rfl, rfl | rfl, pops⟩
    · have goto' : (topState (lower ++ outer')).row.goto? rule = some target :=
        isLower.topState_eq outer outer' ▸ goto
      refine ⟨_, .step admits' (pops outer') goto' .done, ?_⟩
      rw [putNode_append, putNode_append]
      have inner : target ≠ startState ∧ target ≠ State.acceptState :=
        ⟨(State.outer_of_goto goto).1, (State.outer_of_goto goto).2.2 ne⟩
      exact .inside (isLower.putNode inner) top top' line line' objects
    · obtain ⟨n, known, layer, closed⟩ := State.goto_object line
      obtain rfl := Option.some.inj (known.symm.trans goto)
      obtain ⟨n', goto', layer', closed'⟩ := State.goto_object line'
      refine ⟨_, .step admits' (pops outer') goto' .done, .between (isTop_putNode top layer)
        (isTop_putNode top' layer') ?_ ?_⟩
      · rw [topState_putNode, topState_putNode, closed, closed']
      · rw [objectsOn_putNode_eq, objectsOn_putNode_eq, objects, List.append_assoc]
    · obtain rfl := Option.some.inj ((State.goto_kind line).symm.trans goto)
      refine ⟨_, .step admits' (pops outer') (State.goto_kind line') .done, ?_⟩
      have split (outer : List Frame) : Plain.putNode .constAndType layout trees 223 outer =
          Plain.putNode .constAndType layout trees 223 [] ++ outer :=
        putNode_append .constAndType layout trees 223 [] outer
      rw [split left, split outer']
      exact .inside isInside_putNode_kind top top' line line' objects

/-! ### Lexemes -/

theorem IsInside.cons {s : State} (h : IsInside inner) (t : Tree)
    (ne : s ≠ startState ∧ s ≠ State.acceptState) : IsInside (⟨t, s⟩ :: inner) := by
  obtain ⟨⟨upper, first, rfl, inside, start⟩, states⟩ := h
  exact ⟨⟨⟨t, s⟩ :: upper, first, rfl, inside, start⟩, List.forall_mem_cons.mpr ⟨ne, states⟩⟩

theorem IsInside.topState_ne (h : IsInside inner) (outer : List Frame) :
    topState (inner ++ outer) ≠ startState ∧ topState (inner ++ outer) ≠ State.acceptState := by
  obtain ⟨⟨upper, first, rfl, -⟩, states⟩ := h
  cases upper with
  | nil => exact states first (by simp)
  | cons f upper => exact states f (by simp)

theorem isOpen_of_lineStart {s : State} (start : s ∈ State.lineStarts) : State.isOpen s = true := by
  have all : ∀ s ∈ State.lineStarts, State.isOpen s = true := by decide
  exact all s start

theorem lineStart_of_isOpen {s : State} (settled : s ∈ State.lineStarts ++ State.lineEnds)
    (opened : State.isOpen s = true) : s ∈ State.lineStarts := by
  have all : ∀ s ∈ State.lineEnds, State.isOpen s = false := by decide
  refine (List.mem_append.mp settled).resolve_right fun ends => ?_
  rw [all s ends] at opened
  cases opened

/-- A token that is shifted on one of the stacks is shifted on the other one, behind reductions. -/
theorem Twin.shift {n : State} (twin : Twin before frames frames')
    (admits : .shift n ∈ ((topState frames).row.entry u).actions) (leaf : x.leaf = .read u) :
    ∃ more, Takes ⟨frames', some x⟩ [] ⟨more, none⟩ ∧
      Twin before (⟨x.toTree.withExtra false, n⟩ :: frames) more := by
  cases twin with
  | between top top' opened objects =>
    rcases State.begins_of_shift top.mem_tops admits with ⟨rfl, layer, isOpen⟩ | ⟨word, line, begun⟩
    · obtain ⟨more, takes, topNext, objectsNext, isOpen'⟩ := top'.exists_break leaf
      refine ⟨more, takes, .between ⟨layer, top⟩ topNext (isOpen'.trans isOpen.symm) ?_⟩
      rw [objectsNext, objects, objectsOn_cons]
      exact congrArg (before ++ ·) (List.append_nil _).symm
    · have ahead : IsAhead u (topState frames') :=
        .inr (.inr ⟨word, opened.trans (isOpen_of_lineStart line)⟩)
      obtain ⟨more, folds, topNext, objectsNext, openedNext, settled⟩ := top'.settle ahead
      have line' : topState more ∈ State.lineStarts :=
        lineStart_of_isOpen settled (openedNext.trans (opened.trans (isOpen_of_lineStart line)))
      refine ⟨_, folds.takes leaf (State.shift_word line line' word admits), ?_⟩
      have begins : IsInside [⟨x.toTree.withExtra false, n⟩] :=
        ⟨⟨[], _, rfl, Tree.isExtra_withExtra x.toTree false, begun⟩, fun f mem => by
          rw [List.mem_singleton.mp mem]
          exact State.inner_of_shift admits⟩
      exact .inside begins top topNext line line' (objectsNext.trans objects)
  | @inside inner outer outer' isInside top top' line line' objects =>
    have sameTop := isInside.topState_eq outer outer'
    exact ⟨_, .work (works_shift leaf (sameTop ▸ admits)) .done,
      .inside (isInside.cons _ (State.inner_of_shift admits)) top top' line line' objects⟩

/-- A comment that is taken in on one of the stacks is taken in on the other one. -/
theorem Twin.shiftExtra (twin : Twin before frames frames')
    (admits : .shiftExtra ∈ ((topState frames).row.entry u).actions) (leaf : x.leaf = .read u) :
    ∃ more, Takes ⟨frames', some x⟩ [] ⟨more, none⟩ ∧
      Twin before (⟨x.toTree.withExtra true, topState frames⟩ :: frames) more := by
  have extra {frames : List Frame} (admits : .shiftExtra ∈ ((topState frames).row.entry u).actions) :
      Takes ⟨frames, some x⟩ [] ⟨⟨x.toTree.withExtra true, topState frames⟩ :: frames, none⟩ := by
    have known : .shiftExtra ∈ ((topState frames).entry x.symbol).actions := by rwa [Lexeme.symbol, leaf]
    exact .work (.act (renames_of_mem known) known rfl) .done
  cases twin with
  | between top top' opened objects =>
    have comment := State.isComment_of_shiftExtra admits
    have admits' : .shiftExtra ∈ ((topState frames').row.entry u).actions := by
      rw [State.actions_of_isComment (State.isTopState_of_mem top'.mem_tops).1 comment]
      exact List.mem_singleton.mpr rfl
    refine ⟨_, extra admits', .between (top.shiftExtra _ rfl) (top'.shiftExtra _ rfl) opened ?_⟩
    rw [objectsOn_cons, objectsOn_cons, objects]
    exact List.append_assoc ..
  | @inside inner outer outer' isInside top top' line line' objects =>
    have sameTop := isInside.topState_eq outer outer'
    refine ⟨_, extra (sameTop ▸ admits), ?_⟩
    rw [sameTop]
    exact .inside (isInside.cons _ (isInside.topState_ne outer)) top top' line line' objects

/-- A lexeme that is taken on one of the stacks is taken on the other one. -/
theorem Twin.takes {s : State} (h : Takes ⟨frames, some x⟩ [] ⟨more, none⟩)
    (twin : Twin before frames frames') (grounded : Grounded frames) (leaf : x.leaf = .read u)
    (notEnd : u ≠ .eof) :
    ∃ more', Takes ⟨frames', some (x.inState s)⟩ [] ⟨more', none⟩ ∧ Twin before more more' := by
  generalize start : (⟨frames, some x⟩ : Config) = c at h
  generalize stop : (⟨more, none⟩ : Config) = d at h
  generalize none : ([] : List Lexeme) = xs at h
  induction h generalizing frames frames' x u with
  | done =>
    subst start
    cases stop
  | read => cases start
  | @work c c' d xs works takes ih =>
    subst start none
    have ends {frames' : List Frame} (isNext : c' = ⟨frames', Option.none⟩) : more = frames' := by
      subst isNext stop
      exact (Config.mk.inj takes.eq_of_none).1
    have leaf' : (x.inState s).leaf = .read u := leaf
    have grounded' := works.grounded grounded
    rcases works.cases_of_leaf leaf with ⟨keyword, notName, empty, goesOn, rfl⟩ | ⟨n, admits, next⟩ |
      ⟨admits, next⟩ | ⟨rule, size, layout, trees, left, target, admits, popped, goto, rfl⟩
    · cases twin with
      | between top =>
        obtain ⟨a, known⟩ := List.exists_mem_of_ne_nil _ goesOn
        exact absurd rfl (State.word_of_mem top.mem_tops known).1
      | @inside inner outer outer' isInside top top' line line' objects =>
        have sameTop := isInside.topState_eq outer outer'
        obtain ⟨more', takes', twin'⟩ :=
          ih (.inside isInside top top' line line' objects) grounded' rfl (by decide) rfl stop rfl
        have renames := works_rename leaf' keyword notName (sameTop ▸ empty) (sameTop ▸ goesOn)
        exact ⟨more', .work renames takes', twin'⟩
    · rw [ends next]
      exact twin.shift admits leaf'
    · rw [ends next]
      exact twin.shiftExtra admits leaf'
    · have ne : rule ≠ .sourceFile := by
        rintro rfl
        exact notEnd (State.sourceFile_spec admits)
      obtain ⟨mid, folds, twin'⟩ := twin.reduce grounded admits ne (fun _ => id) popped goto
      obtain ⟨more', takes', twin''⟩ := ih twin' grounded' leaf notEnd rfl stop rfl
      exact ⟨more', (folds.works leaf').trans takes', twin''⟩

/-- At the end of the text all is reduced that belongs to an object. -/
theorem Twin.close {d : Config} (h : Takes ⟨frames, some x⟩ [] d) (accepted : d.accepted? = some t)
    (twin : Twin before frames frames') (grounded : Grounded frames) (isEnd : x.leaf = .read .eof)
    (noName : x.isKeyword = false) (ahead : v = .eof ∨ v = .newline) :
    ∃ more, Folds v frames' more ∧ IsTop more ∧
      objectsOn more = before ++ Tree.objectsOf t.children := by
  have same {rule : Rule} {size layout : Nat} (ne : rule ≠ .sourceFile) (s : State)
      (admits : .reduce rule size layout ∈ (s.row.entry .eof).actions) :
      .reduce rule size layout ∈ (s.row.entry v).actions := by
    rcases ahead with rfl | rfl
    · exact admits
    · exact State.reduce_newline_of_eof admits ne
  generalize start : (⟨frames, some x⟩ : Config) = c at h
  generalize none : ([] : List Lexeme) = xs at h
  induction h generalizing frames frames' with
  | done =>
    subst start
    obtain ⟨y, known, admits⟩ := Config.isAccepting_of_accepted? accepted
    obtain ⟨u, -, admits⟩ := State.exists_of_mem_entry admits
    have last := (State.accept_spec admits).2
    cases twin with
    | between top =>
      have notTop : State.acceptState ∉ State.tops := by
        rw [State.acceptState_eq]
        decide
      exact absurd (last ▸ top.mem_tops) notTop
    | inside isInside => exact absurd last (isInside.topState_ne _).2
  | read => cases none
  | @work c c' d xs works takes ih =>
    subst start
    have grounded' := works.grounded grounded
    rcases works.cases_of_leaf isEnd with ⟨keyword, -⟩ | ⟨n, admits, -⟩ | ⟨admits, -⟩ |
      ⟨rule, size, layout, trees, left, target, admits, popped, goto, rfl⟩
    · cases noName.symm.trans keyword
    · exact absurd rfl (State.ne_eof_of_shift admits)
    · cases State.isComment_of_shiftExtra admits
    · by_cases ne : rule = .sourceFile
      · subst ne
        cases twin with
        | between top top' opened objects =>
          refine ⟨frames', .done, top', ?_⟩
          rw [objects, objectsOf_of_accepted popped goto isEnd noName (none ▸ takes) accepted]
        | inside isInside =>
          have first := (State.outer_of_goto goto).2.1 rfl
          rcases isInside.pop_cases grounded admits popped with ⟨lower, rfl, isLower, -⟩ | ⟨-, which, -⟩
          · exact absurd first (isLower.topState_ne _).1
          · simp at which
      · obtain ⟨mid, folds, twin'⟩ := twin.reduce grounded admits ne (same ne) popped goto
        obtain ⟨more, folds', result⟩ := ih accepted twin' grounded' rfl none
        exact ⟨more, folds.trans folds', result⟩

end Plain

end SusSyntax
