import SusSyntax.Parse.Basic
import SusSyntax.Proofs.Stack.Walk

/-!
What holds of a parse at every moment, and what it finishes.

The stack is sound, the lexeme that was read last can be read where it was, and a finished tree is a
whole one (`Tree.IsWhole`): it has grown from the beginning of the text to the end. When a version is
accepted, the trees below the end of the text lead from the beginning to the state behind the start
symbol, so all but that symbol are extras, and its children may stand among them. The tree costs what
the version cost; so where every version costs something, a finished tree does.
-/

namespace SusSyntax

open Grammar Lexical

namespace Tree

/-- A tree over the whole text, whose root is the start symbol or an error. -/
structure IsWhole (text : Text) (t : Tree) : Prop where
  grown : t.Grown text .zero
  extent : t.extent = text.extent
  root : (∃ layout children, t = .ofChildren (.rule .sourceFile layout) children) ∨
    ∃ children, t = .ofChildren .error children

/-! ### Roots -/

theorem splitTrailingExtras_append {front extras : List Tree} {t : Tree} (inside : t.isExtra = false)
    (h : ∀ u ∈ extras, u.isExtra = true) :
    splitTrailingExtras (front ++ [t] ++ extras) = (front ++ [t], extras) := by
  have all : ∀ u ∈ extras.reverse, u.isExtra = true := fun u mem => h u (List.mem_reverse.mp mem)
  rw [splitTrailingExtras, List.reverse_append, List.dropWhile_append_of_pos all,
    List.takeWhile_append_of_pos all, List.reverse_append]
  simp [inside]

variable {text : Text} {b : Spot} {trees : List Tree} {count : Nat} {last root : Tree}

/-- Between the beginning and the state behind the start symbol there is, but for extras, a tree of
the start symbol. -/
theorem eq_sourceFile_of_follow {front : List Tree} {t : Tree} (grown : GrownOf text .zero front)
    (inside : t.isExtra = false) (notComment : ∀ u, t.symbol = .token u → u.isComment = false)
    (behind : follow startState (front ++ [t]) = State.acceptState) :
    t.symbol = .rule .sourceFile ∧ ∀ u ∈ front, u.isExtra = true := by
  rw [follow_append, follow_cons, follow_nil, stateBehind_of_not_extra _ inside] at behind
  by_cases same : follow startState front = State.acceptState
  · rw [same] at behind
    obtain ⟨u, isToken, comment⟩ := State.isComment_of_next_acceptState behind
    rw [notComment u isToken] at comment
    cases comment
  · obtain ⟨start, symbol⟩ := State.next_eq_acceptState same behind
    refine ⟨symbol, (extras_of_follow_startState (fun u mem notExtra v isToken => ?_) start).2⟩
    obtain ⟨q, grown⟩ := grown.exists_grown mem
    exact grown.isComment_eq_false notExtra isToken

/-- What lies over a way and the end of the text has grown from the beginning to the end. -/
theorem grownOf_concat (way : Spot.Way text .start trees count b) (grown : last.Grown text b.pos)
    (atEnd : b.pos + last.extent = text.extent) :
    GrownOf text .zero (trees ++ [last]) ∧ extentOf (trees ++ [last]) = text.extent := by
  have pos : b.pos = .zero + extentOf trees := way.pos
  refine ⟨grownOf_append.mpr ⟨way.grown, grownOf_singleton.mpr (pos ▸ grown)⟩, ?_⟩
  rw [extentOf_append, extentOf_cons, extentOf_nil, Extent.add_zero, ← atEnd, pos, Extent.zero_add]

/-- A node of the start symbol that takes in the extras around it is a tree over the whole text, at
the cost of what it is made of. -/
theorem isWhole_around {before children behind : List Tree} {layout : Nat} {isExtra : Bool}
    {measure : Measure}
    (grown : GrownOf text .zero
      (before ++ [.node (.rule .sourceFile layout) isExtra measure children] ++ behind))
    (extent : extentOf (before ++ [.node (.rule .sourceFile layout) isExtra measure children] ++
      behind) = text.extent)
    (extrasBefore : ∀ u ∈ before, u.isExtra = true) (extras : ∀ u ∈ behind, u.isExtra = true) :
    (ofChildren (.rule .sourceFile layout) (before ++ children ++ behind)).IsWhole text ∧
      (ofChildren (.rule .sourceFile layout) (before ++ children ++ behind)).cost =
        sumOver cost
          (before ++ [.node (.rule .sourceFile layout) isExtra measure children] ++ behind) := by
  obtain ⟨grownFront, grownBehind⟩ := grownOf_append.mp grown
  obtain ⟨grownBefore, grownNode⟩ := grownOf_append.mp grownFront
  have node := grownOf_singleton.mp grownNode
  have sameExtent := node.extent_node
  obtain ⟨rfl, ⟨same, s, t, admits⟩, grownBelow⟩ := node
  have joins : Joins false (before ++ children ++ behind) (.rule .sourceFile layout) := by
    refine ⟨⟨rfl, fun isHidden => by cases isHidden⟩, s, t, ?_⟩
    rw [follow_append, follow_append, follow_of_extras s extrasBefore,
      follow_of_extras _ extras, insiders_append, insiders_append,
      insiders_of_extras extrasBefore, insiders_of_extras extras, List.nil_append,
      List.append_nil]
    exact admits
  have grownAll : GrownOf text .zero (before ++ children ++ behind) := by
    refine grownOf_append.mpr ⟨grownOf_append.mpr ⟨grownBefore, grownBelow⟩, ?_⟩
    rw [extentOf_append, ← sameExtent]
    rw [extentOf_append, extentOf_cons, extentOf_nil, Extent.add_zero] at grownBehind
    exact grownBehind
  refine ⟨⟨grown_ofChildren joins grownAll, ?_, .inl ⟨layout, _, rfl⟩⟩, ?_⟩
  · rw [extent_ofChildren, ← extent, extentOf_append, extentOf_append, ← sameExtent,
      extentOf_append, extentOf_append, extentOf_cons, extentOf_nil, Extent.add_zero]
  · rw [grownAll.cost_rule joins]
    simp only [sumOver_append, sumOver, Nat.add_zero]
    rw [← grownBelow.cost_rule ⟨same, s, t, admits⟩]
    rfl

/-- The root over trees that lead from the beginning to the state behind the start symbol, and over
the end of the text, is a tree over the whole text. -/
theorem isWhole_of_rootOf? (way : Spot.Way text .start trees count b)
    (accepted : b.state = State.acceptState) (grown : last.Grown text b.pos)
    (extra : last.isExtra = true) (free : last.cost = 0) (atEnd : b.pos + last.extent = text.extent)
    (made : Parse.rootOf? (trees ++ [last]) = some root) :
    root.IsWhole text ∧ root.cost = b.cost := by
  obtain ⟨grown, extent⟩ := grownOf_concat way grown atEnd
  have costs : sumOver cost (trees ++ [last]) = b.cost := by
    rw [way.cost, sumOver_append, sumOver, free]
    exact (Nat.zero_add _).symm
  have follows : follow startState (trees ++ [last]) = State.acceptState := by
    rw [follow_append, follow_cons, follow_nil, stateBehind_of_extra _ extra, ← accepted]
    exact (way.inside (accepted ▸ State.acceptState_ne_errorState)).1.symm
  rw [Parse.rootOf?] at made
  have parts := append_splitTrailingExtras (trees ++ [last])
  have extras : ∀ u ∈ (splitTrailingExtras (trees ++ [last])).2, u.isExtra = true :=
    fun u => isExtra_of_mem_trailing
  have inside := fun t => @isExtra_of_getLast?_front (trees ++ [last]) t
  generalize trees ++ [last] = all at *
  rw [← follow_splitTrailingExtras] at follows
  generalize splitTrailingExtras all = split at *
  obtain ⟨front, extras'⟩ := split
  dsimp only at *
  split at made
  · rename_i label isExtra measure children isLast
    have notExtra := inside _ isLast
    obtain rfl := Option.some.inj made
    obtain ⟨before, rfl⟩ := List.getLast?_eq_some_iff.mp isLast
    rw [← parts] at grown extent costs
    obtain ⟨grownBefore, grownNode⟩ := grownOf_append.mp (grownOf_append.mp grown).1
    have node := grownOf_singleton.mp grownNode
    obtain ⟨symbol, extrasBefore⟩ := eq_sourceFile_of_follow grownBefore notExtra
      (fun u isToken => node.isComment_eq_false notExtra isToken) follows
    cases label with
    | error => cases symbol
    | skipped => cases symbol
    | rule r layout =>
      obtain rfl := Symbol.rule.inj symbol
      rw [List.dropLast_concat, ← costs]
      exact isWhole_around grown extent extrasBefore extras
  · cases made

/-- The root over an empty error and the end of the text, whatever stands before, is an error over
the whole text. -/
theorem isWhole_of_rootOf?_error (way : Spot.Way text .start trees count b)
    (grown : last.Grown text b.pos) (extra : last.isExtra = true)
    (atEnd : b.pos + last.extent = text.extent)
    (made : Parse.rootOf? (trees ++ [.ofChildren .error []] ++ [last]) = some root) :
    root.IsWhole text ∧ root.cost ≠ 0 := by
  obtain ⟨grown, extent⟩ := grownOf_concat way grown atEnd
  have extras : ∀ u ∈ [last], u.isExtra = true := fun u mem => List.mem_singleton.mp mem ▸ extra
  rw [Parse.rootOf?, splitTrailingExtras_append rfl extras] at made
  simp only [ofChildren, List.getLast?_concat, List.dropLast_concat, List.append_nil,
    Option.some.injEq] at made
  obtain rfl := made
  exact ⟨⟨grown_ofChildren ⟨List.append_ne_nil_of_right_ne_nil _ (List.cons_ne_nil last []), nofun⟩
    grown, (extent_ofChildren ..).trans extent, .inr ⟨_, rfl⟩⟩, cost_ofChildren_error _⟩

end Tree

namespace Stack

/-! ### A version that ends -/

/-- A stack is sound but for a version, on which anything may have been pushed. -/
structure SoundBut (text : Text) (good : Nat → Prop) (v : Nat) (s : Stack) : Prop
    extends Grounded text good s where
  fits : ∀ u, u ≠ v → (s.head u).Fits text s good

variable {text : Text} {good : Nat → Prop} {s : Stack} {v w n : Nat}

theorem SoundOn.but (sound : s.SoundOn text good) (v : Nat) : s.SoundBut text good v :=
  ⟨sound.toGrounded, fun u _ => sound.fits_head u⟩

theorem SoundBut.push (sound : s.SoundBut text good v) (tree? : Option Tree) (state : State) :
    (s.push v tree? state).SoundBut text good v := by
  refine ⟨sound.toGrounded.push tree? state, fun u ne => ?_⟩
  obtain ⟨mark, head⟩ := head_push (v := v) s tree? state u
  rw [head, if_neg fun both => ne both.1.symm]
  exact sound.toGrounded.fits_push (sound.fits u ne) tree? state

theorem SoundBut.keeps_push (sound : s.SoundBut text good v) {u : Nat} (tree? : Option Tree)
    (state : State) (ne : u ≠ v) : s.Keeps (s.push v tree? state) u := by
  refine keeps_push_of_lt (fun active => sound.bounded ?_) tree? state (Ne.symm ne)
  exact (sound.fits u ne (by rw [active]; rfl)).1

/-- Once the version is given up, the stack is sound. -/
theorem SoundBut.halt (sound : s.SoundBut text good v) : (s.halt v).Sound text := by
  refine ⟨good, ⟨sound.bounded, sound.place, sound.ground, sound.link⟩, fun {h} mem => ?_⟩
  obtain ⟨u, found⟩ := List.mem_iff_getElem?.mp mem
  have isHead : h = (s.halt v).head u := by
    rw [head, found]
    rfl
  have inside : u < s.count := by
    obtain ⟨lt, _⟩ := List.getElem?_eq_some_iff.mp found
    rwa [Stack.halt, Stack.modifyHead, List.length_modify] at lt
  rw [isHead, Stack.halt, head_modifyHead]
  split
  · exact fun active => by cases active
  · rename_i ne
    exact sound.fits u fun same => ne ⟨same.symm, inside⟩

/-- Where a walker is that sets out from a version with a tree put on it. -/
theorem from_push {w : Walker} {t : Tree} {state : State} (inside : v < s.count)
    (h : w.From (s.push v (some t) state) ((s.push v (some t) state).head v).cell) :
    ((s.push v (some t) state).cell w.cell).links ≠ [] ∧ w.cell = s.cells.size ∨
      ∃ w' : Walker, w'.From (s.push v (some t) state) (s.head v).cell ∧ w'.cell = w.cell ∧
        w.trees = w'.trees ++ [t] := by
  obtain ⟨mark, head⟩ := head_push (v := v) s (some t) state v
  rw [if_pos ⟨rfl, inside⟩] at head
  have links : ((s.push v (some t) state).cell s.cells.size).links =
      [⟨(s.head v).cell, some t⟩] := by
    rw [cell_push_size, links_cellOver]
  rw [head] at h
  refine (h.over links).imp_left fun here => ⟨?_, here.1⟩
  rw [here.1, links]
  exact List.cons_ne_nil _ _

/-- Where all walkers stay among the cells, a push opens no new ways to them. -/
theorem from_of_from_push {w : Walker} {tree? : Option Tree} {state : State}
    (bounded : ∀ w : Walker, w.From s n → w.cell < s.cells.size)
    (h : w.From (s.push v tree? state) n) : w.From s n := by
  induction h with
  | start => exact .start
  | follow _ mem ih =>
    rw [cell_push s tree? state (bounded _ ih)] at mem
    exact .follow ih mem

end Stack

namespace Parse

variable {text : Text} {stray : Prop} {p : Parse} {s : Stack} {v : Nat} {b : Spot} {x : Lexeme}

/-! ### The parse as a whole -/

/-- What may be finished: a tree over the whole text, which costs something if the parse strays. -/
structure Ends (text : Text) (stray : Prop) (t : Tree) : Prop where
  whole : t.IsWhole text
  costs : stray → 0 < t.cost

/-- What holds of a parse of a text at every moment. -/
structure Sound (text : Text) (stray : Prop) (p : Parse) : Prop where
  text_eq : p.text = text
  stack : p.stack.Sound text
  lastRead : ∀ {place x}, p.lastRead? = some (place, x) →
    ∃ q, text.IsPlace q ∧ q.bytes = place ∧ x.IsReadAt text q
  finished : ∀ {t}, p.finished? = some t → Ends text stray t

theorem Sound.withStack (sound : p.Sound text stray) (stack : s.Sound text) :
    (p.withStack s).Sound text stray :=
  ⟨sound.text_eq, stack, sound.lastRead, sound.finished⟩

/-- The next lexeme of a version can be read where the version stands. -/
theorem Sound.nextLexeme (sound : p.Sound text stray) (here : p.stack.IsAt v b) :
    (p.nextLexeme v).1.Sound text stray ∧ (p.nextLexeme v).1.stack = p.stack ∧
      (p.nextLexeme v).2.IsReadAt text b.pos := by
  have place := sound.stack.place_of_isAt here
  rw [Parse.nextLexeme]
  split
  · rename_i x reused
    refine ⟨sound, rfl, ?_⟩
    rw [reused?] at reused
    split at reused
    · rename_i place' x' isLast
      split at reused
      · rename_i same
        obtain rfl := Option.some.inj reused
        obtain ⟨q, isPlace, bytes, isRead⟩ := sound.lastRead isLast
        rw [Bool.and_eq_true, decide_eq_true_eq, here.pos_eq] at same
        rwa [← isPlace.unique place (bytes.trans same.1)]
      · cases reused
    · cases reused
  · dsimp only
    have isRead := Lexeme.isReadAt_scan text (p.stack.state v) b.pos
    rw [← here.pos_eq, ← sound.text_eq] at *
    refine ⟨⟨rfl, sound.stack, fun {place x} isLast => ?_, sound.finished⟩, rfl, isRead⟩
    obtain ⟨rfl, rfl⟩ := Prod.mk.inj (Option.some.inj isLast)
    exact ⟨_, place, rfl, isRead⟩

theorem Sound.finish (sound : p.Sound text stray) {root : Tree} (whole : Ends text stray root) :
    (p.finish root).Sound text stray := by
  refine ⟨sound.text_eq, sound.stack, sound.lastRead, fun {t} best => ?_⟩
  obtain rfl := Option.some.inj best
  split
  · rename_i old isOld
    split
    · exact whole
    · exact sound.finished isOld
  · exact whole

theorem Sound.foldl_finish (sound : p.Sound text stray) {roots : List Tree}
    (whole : ∀ root ∈ roots, Ends text stray root) :
    (roots.foldl Parse.finish p).Sound text stray ∧
      (roots.foldl Parse.finish p).stack = p.stack := by
  induction roots generalizing p with
  | nil => exact ⟨sound, rfl⟩
  | cons root roots ih =>
    exact ih (sound.finish (whole root List.mem_cons_self)) fun t mem =>
      whole t (List.mem_cons_of_mem _ mem)

/-- A version is accepted with all roots over its ways, and without the version that is added for
them. -/
theorem accept_eq (p : Parse) (v : Nat) (x : Lexeme) :
    let result := (p.stack.push v (some x.toTree) startState).popAll v
    p.accept v x = ((result.2.flatMap Stack.Slice.ways).filterMap rootOf?).foldl finish
      (p.withStack ((result.2.head?.elim result.1 fun slice =>
        result.1.remove slice.version).halt v)) := by
  unfold accept
  generalize (p.stack.push v (some x.toTree) startState).popAll v = result
  obtain ⟨s, slices⟩ := result
  cases slices <;> rfl

/-- A version may be accepted if all ways down from it give trees that may be finished, with the last
lexeme over them; then it is given up. -/
theorem Sound.accept_of {good : Nat → Prop} (sound : p.Sound text stray) (but : s.SoundBut text good v)
    (inside : v < s.count)
    (bounded : ∀ w : Walker, w.From s (s.head v).cell → w.cell < s.cells.size)
    (roots : ∀ w : Walker, w.From s (s.head v).cell → (s.cell w.cell).links = [] →
      good w.cell ∧ ∀ root, rootOf? (w.trees ++ [x.toTree]) = some root → Ends text stray root) :
    ((p.withStack s).accept v x).Sound text stray ∧
      ∀ u c, ((p.withStack s).accept v x).stack.IsAt u c → u ≠ v ∧ s.IsAt u c := by
  have but' := but.push (some x.toTree) startState
  have keeps := fun u ne => but.keeps_push (u := u) (some x.toTree) startState ne
  have brings : ∀ w : Walker, w.From (s.push v (some x.toTree) startState)
        ((s.push v (some x.toTree) startState).head v).cell →
      ((s.push v (some x.toTree) startState).cell w.cell).links = [] →
      good w.cell ∧ ∀ root, rootOf? w.trees = some root → Ends text stray root := by
    intro w from' noLinks
    rcases Stack.from_push inside from' with ⟨some, _⟩ | ⟨w', from'', same, trees⟩
    · exact absurd noLinks some
    · have old := Stack.from_of_from_push bounded from''
      rw [← same, Stack.cell_push s _ _ (bounded w' old)] at noLinks
      obtain ⟨isGood, whole⟩ := roots w' old noLinks
      rw [← same, trees]
      exact ⟨isGood, whole⟩
  have pops : Stack.Pops text good
      (fun _ trees => ∀ root, rootOf? trees = some root → Ends text stray root)
      (s.push v (some x.toTree) startState)
      ((s.push v (some x.toTree) startState).popAll v) := but'.toGrounded.popAll brings
  have lone := but'.toGrounded.length_popAll fun w from' noLinks => (brings w from' noLinks).1
  have sameCount : (s.push v (some x.toTree) startState).count = s.count := Stack.count_push ..
  rw [accept_eq]
  dsimp only [Parse.withStack]
  generalize s.push v (some x.toTree) startState = pushed at *
  generalize pushed.popAll v = result at *
  obtain ⟨s', slices⟩ := result
  have ends : ∀ root ∈ (slices.flatMap Stack.Slice.ways).filterMap rootOf?,
      Ends text stray root := by
    intro root mem
    obtain ⟨trees, mem, made⟩ := List.mem_filterMap.mp mem
    obtain ⟨slice, mem, way⟩ := List.mem_flatMap.mp mem
    obtain ⟨_, whole⟩ := pops.offers.ways mem way
    exact whole root made
  have same := pops.remove_head lone
  obtain ⟨finished, stack⟩ := (sound.withStack but'.halt).foldl_finish ends
  change _ = pushed.halt v at stack
  rw [same]
  refine ⟨finished, fun u c here => ?_⟩
  have halted : (pushed.halt v).IsAt u c := by
    rw [← stack]
    exact here
  obtain ⟨ne, there⟩ := Stack.isAt_of_halt halted
  exact ⟨ne, ((keeps u ne).isAt_iff (sameCount ▸ there.lt_count) c).mp there⟩

theorem grown_toTree_of_isEnd (isRead : x.IsReadAt text b.pos) (ends : x.isEnd = true) :
    x.toTree.Grown text b.pos ∧ x.toTree.isExtra = true ∧ x.toTree.cost = 0 := by
  have leaf : x.leaf = .read .eof := eq_of_beq ends
  have outside : x.leaf.isOutside = true := by rw [leaf]; rfl
  have grown := Tree.grown_toTree isRead outside
  have same : x.toTree = x.toTree.withExtra true := by rw [Lexeme.toTree, ends]; rfl
  refine ⟨same ▸ grown, same ▸ Tree.isExtra_withExtra .., ?_⟩
  rw [Lexeme.toTree, Tree.cost, leaf]
  rfl

/-- In the state behind the start symbol a version may be accepted at the end of the text. -/
theorem Sound.accept (sound : p.Sound text stray) (here : p.stack.IsAt v b)
    (accepted : b.state = State.acceptState) (isRead : x.IsReadAt text b.pos)
    (ends : x.isEnd = true) (costs : stray → 0 < b.cost) :
    (p.accept v x).Sound text stray ∧
      ∀ u c, (p.accept v x).stack.IsAt u c → u ≠ v ∧ p.stack.IsAt u c := by
  obtain ⟨good, soundOn⟩ := sound.stack
  have known := soundOn.good_of_isAt here
  obtain ⟨grown, extra, free⟩ := grown_toTree_of_isEnd isRead ends
  have atEnd := (isRead.standsAt (soundOn.place_of_isAt here)).of_isEnd ends
  refine sound.accept_of (soundOn.but v) here.lt_count (fun w from' => ?_) fun w from' noLinks => ?_
  · exact soundOn.bounded (from'.way soundOn.toGrounded known).1
  · obtain ⟨isGood, way⟩ := from'.way soundOn.toGrounded known
    have spot : (p.stack.cell (p.stack.head v).cell).spot = b := here.2
    rw [(soundOn.ground isGood noLinks).2, spot] at way
    refine ⟨isGood, fun root made => ?_⟩
    obtain ⟨whole, cost⟩ := Tree.isWhole_of_rootOf? way accepted grown extra free atEnd made
    exact ⟨whole, fun stray => cost ▸ costs stray⟩

end Parse

end SusSyntax
