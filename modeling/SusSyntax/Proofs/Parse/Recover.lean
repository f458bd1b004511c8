import SusSyntax.Parse.Recover
import SusSyntax.Proofs.Parse.Finish
import SusSyntax.Proofs.Parse.Reduce
import SusSyntax.Proofs.Stack.Costs

/-!
Recovery keeps a parse sound, and has a cost.

What is taken off to go back becomes an extra, so the state it stands on may go on
(`sound_putError`); what is left out is gathered over the error state, and a gap or a token that is
put in takes up no text. So the version in the error stays where it stands until it goes back, leaves
the next lexeme out, or ends.
-/

namespace SusSyntax

open Grammar Lexical

namespace Parse

variable {text : Text} {stray : Prop} {p : Parse} {s : Stack} {v w : Nat} {a b : Spot} {x : Lexeme}

/-- What holds of a parse between the steps of its versions: it is sound, and its versions cost what
they have to. -/
structure Paid (text : Text) (stray : Prop) (p : Parse) : Prop where
  sound : p.Sound text stray
  costs : p.stack.Costs stray

/-! ### Whether it is worth the cost -/

theorem sound_isBeaten (sound : s.Sound text) (v cost : Nat) (others : List Nat) :
    (isBeaten v cost others s).1.Sound text ∧ s.Stays (isBeaten v cost others s).1 := by
  induction others generalizing s with
  | nil => exact ⟨sound, .refl s⟩
  | cons w others ih =>
    have settled := sound.settle w
    have stays := Stack.stays_settle s w
    have rest : (isBeaten v cost others (s.settle w)).1.Sound text ∧
        s.Stays (isBeaten v cost others (s.settle w)).1 :=
      (ih settled).imp_right stays.trans
    rw [isBeaten]
    split
    · exact ih sound
    · dsimp only
      split
      · exact ⟨settled, stays⟩
      · split
        · exact ⟨settled, stays⟩
        · exact rest
      · exact rest

theorem Sound.hasBetter (sound : p.Sound text stray) (v cost : Nat) :
    (p.hasBetter v cost).1.Sound text stray ∧ p.stack.Stays (p.hasBetter v cost).1.stack := by
  obtain ⟨sound', stays⟩ := sound_isBeaten (sound.stack.settle v) v cost (List.range p.stack.count)
  have stays' := (Stack.stays_settle p.stack v).trans stays
  rw [Parse.hasBetter]
  dsimp only
  split
  · split
    · exact ⟨sound, .refl p.stack⟩
    · exact ⟨sound.withStack sound', stays'⟩
  · exact ⟨sound.withStack sound', stays'⟩

/-! ### Going back -/

/-- The children of an error that lies on top, and what was taken off before, follow one another. If
they are all extras, there is no such error. -/
theorem grownOf_of_popError {error? : Option Tree} {trees : List Tree} {k n : Nat}
    {c : Spot} (way : Spot.Way text c error?.toList k a)
    (isError : ∀ t, error? = some t → t.isError = true) (notError : a.state ≠ errorState)
    (above : Spot.Way text a trees n b) :
    c.state = a.state ∧
      Tree.GrownOf text c.pos ((error?.map Tree.children).getD [] ++ trees) ∧
      ((∀ t ∈ (error?.map Tree.children).getD [] ++ trees, t.isExtra = true) → error? = none) := by
  obtain ⟨state, _⟩ := way.inside notError
  have pos := way.pos
  cases error? with
  | none =>
    rw [Option.toList_none, Tree.extentOf_nil, Extent.add_zero] at pos
    exact ⟨state.symm, by simpa [← pos] using above.grown, fun _ => rfl⟩
  | some t =>
    rw [Option.toList_some, Tree.follow_cons, Tree.follow_nil] at state
    rw [Option.toList_some, Tree.extentOf_cons, Tree.extentOf_nil, Extent.add_zero] at pos
    have symbol : t.symbol = .error := eq_of_beq (isError t rfl)
    have grown : t.Grown text c.pos := Tree.grownOf_singleton.mp way.grown
    have extra : t.isExtra = true := by
      cases extra : t.isExtra with
      | true => rfl
      | false =>
        rw [Tree.stateBehind_of_not_extra _ extra, symbol] at state
        exact absurd state notError
    rw [Tree.stateBehind_of_extra _ extra] at state
    cases t with
    | leaf content padding size isExtra =>
      obtain rfl : isExtra = true := extra
      cases Tree.isExtra_of_grown_leaf grown symbol
    | node label isExtra measure children =>
      rw [grown.extent_node] at pos
      have above := above.grown
      rw [pos] at above
      refine ⟨state.symm, Tree.grownOf_append.mpr ⟨grown.children, above⟩, fun extras => ?_⟩
      obtain ⟨_, joins, _⟩ := grown
      cases label with
      | error =>
        obtain ⟨u, mem, inside⟩ := joins.2 extra
        rw [extras u (List.mem_append_left _ mem)] at inside
        cases inside
      | _ => cases symbol

/-- Trees that end in one that is no extra are put on a version as an error, which is an extra. -/
theorem pushError_spec (sound : s.Sound text) (here : s.IsAt w a) (notError : a.state ≠ errorState)
    {left : List Tree} (ne : left ≠ [])
    (inside : ∀ t, left.getLast? = some t → t.isExtra = false)
    (grown : Tree.GrownOf text a.pos left) :
    (s.push w (some ((Tree.ofChildren .error left).withExtra true)) a.state).Sound text ∧
      (s.push w (some ((Tree.ofChildren .error left).withExtra true)) a.state).IsAt w
        ⟨a.state, a.pos + Tree.extentOf left, a.cost + Tree.costOf .error left⟩ := by
  have isLast := List.getLast?_eq_some_getLast ne
  refine sound.push (b := ⟨a.state, a.pos + Tree.extentOf left, a.cost + Tree.costOf .error left⟩)
    here ⟨Tree.grown_error (List.mem_of_getLast? isLast) (inside _ isLast) grown true,
      fun error => absurd error notError, ?_⟩
  rw [Tree.stateBehind_of_extra _ (Tree.isExtra_withExtra ..), Tree.extent_withExtra,
    Tree.extent_ofChildren]
  rfl

/-- Putting trees as an error on a version that has gone back keeps the other versions. That version
has a cost then, if it had one before or if two trees were taken off, one of which is no gap. -/
theorem sound_putError (sound : s.Sound text) (here : s.IsAt w a) (notError : a.state ≠ errorState)
    {trees : List Tree} {k : Nat} (way : Spot.Way text a trees k b) :
    (putError s w a.state trees).Sound text ∧
      (∀ u, u ≠ w → s.Keeps (putError s w a.state trees) u) ∧
      (putError s w a.state trees).count = s.count ∧
      ∃ c, (putError s w a.state trees).IsAt w c ∧ c.state ≠ errorState ∧
        (0 < b.cost ∨ 2 ≤ k → 0 < c.cost) := by
  obtain ⟨popped, keeps, count, isError, c, n, here', below⟩ := sound.popError here
  rw [putError]
  generalize s.popError w = result at *
  obtain ⟨s', error?⟩ := result
  obtain ⟨state, grown, lone⟩ := grownOf_of_popError below isError notError way
  dsimp only at *
  have cost := below.cost
  have notError' : c.state ≠ errorState := by rwa [state]
  have parts := Tree.append_splitTrailingExtras ((error?.map Tree.children).getD [] ++ trees)
  have inside := fun t => @Tree.isExtra_of_getLast?_front
    ((error?.map Tree.children).getD [] ++ trees) t
  generalize same : (error?.map Tree.children).getD [] ++ trees = all at *
  have extras : ∀ t ∈ (Tree.splitTrailingExtras all).2, t.isExtra = true :=
    fun t => Tree.isExtra_of_mem_trailing
  generalize Tree.splitTrailingExtras all = split at *
  obtain ⟨left, behind⟩ := split
  dsimp only at *
  rw [← parts] at grown
  obtain ⟨grownLeft, grownBehind⟩ := Tree.grownOf_append.mp grown
  rw [← state]
  split
  · rename_i isEmpty
    obtain rfl := List.isEmpty_iff.mp isEmpty
    obtain rfl : behind = all := parts
    rw [Tree.extentOf_nil, Extent.add_zero] at grownBehind
    obtain rfl := lone extras
    obtain rfl : trees = behind := same
    obtain ⟨sound', there, keeps', count'⟩ := popped.pushAll here' notError' extras grownBehind
    refine ⟨sound', fun u ne => (keeps u ne).trans (keeps' u (Ne.symm ne)), count'.trans count, _, there,
      notError', fun costs => ?_⟩
    have most := way.count_le
    rw [Tree.insiders_of_extras extras] at most
    have cost' := way.cost
    rw [cost] at cost'
    change 0 < c.cost + _
    change b.cost = c.cost + 0 + _ at cost'
    rcases costs with costs | two
    · omega
    · exact absurd two (Nat.not_le_of_lt (Nat.lt_succ_of_le most))
  · rename_i notEmpty
    obtain ⟨pushed, here''⟩ := pushError_spec popped here' notError'
      (fun none => notEmpty (List.isEmpty_iff.mpr none)) inside grownLeft
    obtain ⟨sound', there, keeps', count'⟩ := pushed.pushAll here'' notError' extras grownBehind
    refine ⟨sound', fun u ne => ((keeps u ne).trans
      (popped.keeps_push _ _ (Ne.symm ne))).trans (keeps' u (Ne.symm ne)), ?_, _, there, notError',
      fun _ => ?_⟩
    · rw [count', Stack.count_push, count]
    · have costs := Tree.cost_ofChildren_error left
      dsimp only
      omega

/-- What is done to the version of a slice on the way back: it goes on where it has come to the state
that is wanted, and is given up elsewhere. -/
def backStep (goal : State) (made : Stack × Bool) (slice : Stack.Slice) : Stack × Bool :=
  if made.1.state slice.version = goal then
    (putError made.1 slice.version goal (slice.ways.headD []), true)
  else (made.1.halt slice.version, made.2)

theorem goBack_eq (s : Stack) (v depth : Nat) (goal : State) :
    goBack s v depth goal = (s.pop v depth).2.foldl (backStep goal) ((s.pop v depth).1, false) :=
  rfl

/-- Only the version of the slice is changed, and if it goes on it has a cost where it has to. -/
theorem backStep_spec (sound : s.Sound text) (there : s.IsAt w a) {depth : Nat} {goal : State}
    (notError : goal ≠ errorState) (far : stray → 0 < b.cost ∨ 2 ≤ depth) {ways : List (List Tree)}
    (some : ways ≠ []) (taken : ∀ trees ∈ ways, Spot.Taken text a trees depth b) (found : Bool) :
    (backStep goal (s, found) ⟨w, ways⟩).1.Sound text ∧
      (backStep goal (s, found) ⟨w, ways⟩).1.count = s.count ∧
      (∀ u, u ≠ w → s.Keeps (backStep goal (s, found) ⟨w, ways⟩).1 u) ∧
      ∀ c, (backStep goal (s, found) ⟨w, ways⟩).1.IsAt w c → c.Pays stray := by
  obtain ⟨way, ways', rfl⟩ := List.exists_cons_of_ne_nil some
  rw [backStep, List.headD_cons]
  dsimp only
  split
  · rename_i isGoal
    rw [there.state_eq] at isGoal
    subst isGoal
    obtain ⟨sound', keeps, count, c, there', notError', costs⟩ :=
      sound_putError sound there notError (taken way List.mem_cons_self).toWay
    refine ⟨sound', count, keeps, fun d there'' => ?_⟩
    rw [there''.unique there']
    rintro (strays | inError)
    · exact costs (far strays)
    · exact absurd inError notError'
  · refine ⟨sound.halt w, Stack.count_modifyHead ..,
      fun u ne => Stack.keeps_modifyHead_of_ne s (Ne.symm ne), fun c there' => ?_⟩
    exact absurd rfl (Stack.isAt_of_halt there').1

/-- The slices that are left are offered for the versions behind those of the slices before. -/
theorem foldl_backStep {depth n : Nat} {goal : State} {slices : List Stack.Slice} (found : Bool)
    (notError : goal ≠ errorState) (far : stray → 0 < b.cost ∨ 2 ≤ depth)
    (lt : v < n) (count : s.count = n + slices.length) (sound : s.Sound text) (here : s.IsAt v b)
    (pays : ∀ u c, u ≠ v → u < n → s.IsAt u c → c.Pays stray)
    (offers : Stack.Offers (fun a trees => Spot.Taken text a trees depth b) s 0 n slices) :
    (slices.foldl (backStep goal) (s, found)).1.Sound text ∧
      (slices.foldl (backStep goal) (s, found)).1.IsAt v b ∧
      (slices.foldl (backStep goal) (s, found)).1.CostsBut stray v := by
  induction slices generalizing s n found with
  | nil =>
    exact ⟨sound, here, fun u c ne there =>
      pays u c ne (Nat.lt_of_lt_of_eq there.lt_count count) there⟩
  | cons slice slices ih =>
    obtain ⟨version, ⟨a, there, some, taken⟩, later⟩ := offers
    obtain ⟨w, ways⟩ := slice
    obtain rfl : w = n := version
    obtain ⟨sound', count', keeps, pays'⟩ := backStep_spec sound there notError far some taken found
    rw [List.foldl_cons]
    generalize backStep goal (s, found) ⟨w, ways⟩ = made at *
    obtain ⟨s', found'⟩ := made
    dsimp only at *
    rw [List.length_cons] at count
    refine ih found' (Nat.lt_succ_of_lt lt) (by omega) sound' ((keeps v (Nat.ne_of_lt lt)).isAt here)
      (fun u c ne before there' => ?_) (later.keeps fun u le => keeps u (by omega))
    by_cases same : u = w
    · exact pays' c (same ▸ there')
    · exact pays u c ne (by omega) (((keeps u same).isAt_iff (by omega) c).mp there')

/-- Going back from a version keeps the versions that there were. -/
theorem sound_goBack (sound : s.Sound text) (here : s.IsAt v b) (costs : s.CostsBut stray v)
    (depth : Nat) {goal : State} (notError : goal ≠ errorState)
    (far : stray → 0 < b.cost ∨ 2 ≤ depth) :
    (goBack s v depth goal).1.Sound text ∧ (goBack s v depth goal).1.IsAt v b ∧
      (goBack s v depth goal).1.CostsBut stray v := by
  obtain ⟨good, sound⟩ := sound
  have pops := sound.pop here depth
  rw [goBack_eq]
  exact foldl_backStep false notError far here.lt_count pops.count ⟨good, pops.sound sound⟩
    ((pops.keeps v).isAt here)
    (fun u c ne inside there => costs u c ne (((pops.keeps u).isAt_iff inside c).mp there))
    pops.offers

/-- A version stays where it is while it tries the states that it has passed. -/
theorem Sound.goBackToUse (sound : p.Sound text stray) (here : p.stack.IsAt v b)
    (costs : p.stack.CostsBut stray v) (symbol : Symbol) (cost progress count : Nat)
    {passed : List Waypoint} (far : stray → 0 < b.cost ∨ ∀ q ∈ passed, q.IsBehind b.pos) :
    (Parse.goBackToUse symbol v cost progress count passed p).1.Sound text stray ∧
      (Parse.goBackToUse symbol v cost progress count passed p).1.stack.IsAt v b ∧
      (Parse.goBackToUse symbol v cost progress count passed p).1.stack.CostsBut stray v := by
  induction passed generalizing p with
  | nil => exact ⟨sound, here, costs⟩
  | cons passed others ih =>
    have later := fun {p} sound here costs => @ih p sound here costs fun strays =>
      (far strays).imp_right fun behind q mem => behind q (List.mem_cons_of_mem _ mem)
    rw [Parse.goBackToUse]
    dsimp only
    split
    · exact later sound here costs
    · rename_i mayTry
      rw [Bool.or_eq_true, Bool.or_eq_true, not_or, not_or, decide_eq_true_eq, decide_eq_true_eq,
        here.pos_eq] at mayTry
      obtain ⟨⟨notError, elsewhere⟩, _⟩ := mayTry
      obtain ⟨sound', stays⟩ := sound.hasBetter v (cost + costSince passed (p.stack.pos v))
      generalize p.hasBetter v _ = result at *
      obtain ⟨p', better⟩ := result
      have here' := stays.isAt here
      have costs' := stays.costsBut costs
      dsimp only at *
      split
      · exact ⟨sound', here', costs'⟩
      · split
        · have deep : stray → 0 < b.cost ∨ 2 ≤ if 0 < progress then passed.depth + 1
              else passed.depth := by
            refine fun strays => (far strays).imp_right fun behind => ?_
            have := behind passed List.mem_cons_self notError elsewhere
            split <;> omega
          generalize (if 0 < progress then passed.depth + 1 else passed.depth) = depth at *
          obtain ⟨stack, here'', costs''⟩ :=
            sound_goBack sound'.stack here' costs' depth notError deep
          have sound'' := sound'.withStack stack
          split
          · exact ⟨sound'', here'', costs''⟩
          · exact later sound'' here'' costs''
        · exact later sound' here' costs'

/-- Versions that are not pursued may be left out; those before the number `first` stay. -/
theorem sound_dropInactive (sound : s.Sound text) (first : Nat) :
    (dropInactive s first).Sound text ∧ (∀ u, u < first → s.Keeps (dropInactive s first) u) ∧
      ∀ u c, (dropInactive s first).IsAt u c → ∃ u', (u' = u ∨ first ≤ u') ∧ s.IsAt u' c := by
  have head : ∀ u, u < (s.heads.take first).length →
      (dropInactive s first).head u = s.head u := by
    intro u inside
    refine Stack.head_eq_of_getElem? ?_
    rw [dropInactive, List.getElem?_append_left inside, List.getElem?_take_of_lt]
    rw [List.length_take] at inside
    exact (Nat.lt_min.mp inside).1
  refine ⟨?_, fun u before => .of_lt fun inside => ?_, fun u c there => ?_⟩
  · obtain ⟨good, sound⟩ := sound
    refine ⟨good, sound.of_subset fun h mem => ?_⟩
    rcases List.mem_append.mp mem with mem | mem
    · exact List.mem_of_mem_take mem
    · exact List.mem_of_mem_drop ((List.mem_filter.mp mem).1)
  · have taken : u < (s.heads.take first).length := by
      rw [List.length_take]
      exact Nat.lt_min.mpr ⟨before, inside⟩
    refine .of_head (fun _ => ?_) (fun _ => by rw [head u taken]) fun _ => ?_
    · rw [Stack.count, dropInactive, List.length_append]
      exact Nat.lt_add_right _ taken
    · rw [Stack.spot, Stack.top, head u taken]
      rfl
  · rcases Nat.lt_or_ge u (s.heads.take first).length with taken | outside
    · rw [Stack.IsAt, Stack.spot, Stack.top, head u taken] at there
      exact ⟨u, .inl rfl, there⟩
    · have inside := there.lt_count
      have later : (dropInactive s first).head u ∈ s.heads.drop first := by
        rw [Stack.head, dropInactive, List.getElem?_append_right outside]
        rw [Stack.count, dropInactive, List.length_append] at inside
        rw [List.getElem?_eq_getElem (by omega)]
        exact (List.mem_filter.mp (List.getElem_mem _)).1
      obtain ⟨i, found⟩ := List.mem_iff_getElem?.mp later
      rw [List.getElem?_drop] at found
      have same : s.head (first + i) = (dropInactive s first).head u := by
        rw [Stack.head, found]
        rfl
      refine ⟨first + i, .inr (Nat.le_add_right ..), ?_⟩
      rw [Stack.IsAt, Stack.spot, Stack.top, same]
      exact there

/-! ### Leaving text out -/

/-- What is gathered as skipped text leads from where the version then stands to where it stood. The
other versions were there before. -/
theorem sound_gather (sound : s.Sound text) (here : s.IsAt v b) {children : List Tree}
    (grown : Tree.GrownOf text b.pos children) :
    (gather s v (.ofChildren .skipped children)).1.Sound text ∧
      (∃ c children', (gather s v (.ofChildren .skipped children)).1.IsAt v c ∧
        (gather s v (.ofChildren .skipped children)).2 = .ofChildren .skipped children' ∧
        Tree.GrownOf text c.pos children') ∧
      ∀ u c, u ≠ v → (gather s v (.ofChildren .skipped children)).1.IsAt u c → s.IsAt u c := by
  rw [gather]
  split
  · obtain ⟨good, soundOn⟩ := sound
    have pops := soundOn.pop here 1
    generalize s.pop v 1 = result at *
    obtain ⟨popped, slices⟩ := result
    dsimp only at *
    cases slices with
    | nil =>
      have stays := Stack.stays_of_keeps pops.keeps pops.count
      exact ⟨⟨good, pops.sound soundOn⟩, ⟨b, children, stays.isAt here, rfl, grown⟩,
        fun u c _ there => (stays u c).mp there⟩
    | cons slice rest =>
      have count := pops.count
      obtain ⟨version, ⟨a, there, some, ways⟩, _⟩ := pops.offers
      obtain ⟨way, ways', same⟩ := List.exists_cons_of_ne_nil some
      have isWay := ways way (same ▸ List.mem_cons_self)
      have sound' : Stack.Sound text ⟨popped.cells, popped.heads.take (s.count + 1)⟩ :=
        Stack.Sound.take ⟨good, pops.sound soundOn⟩ _
      have kept := fun {u} before => Stack.keeps_take popped (n := s.count + 1) (u := u) before
      have there' := (kept (Nat.lt_succ_self s.count)).isAt there
      have replaces := Stack.replaces_replace here.lt_count there'
      simp only [List.head?_cons, version, Nat.add_zero, same, List.headD_cons]
      refine ⟨sound'.replace v s.count, ⟨a, _, replaces.here, rfl, Tree.grownOf_append.mpr
        ⟨isWay.grown, Tree.grownOf_singleton.mpr (Tree.grown_ofChildren rfl ?_)⟩⟩,
        fun u c ne still => ?_⟩
      · rwa [← isWay.pos]
      · have shorter : (Stack.mk popped.cells (popped.heads.take (s.count + 1))).count =
            s.count + 1 := by
          rw [Stack.count, List.length_take]
          exact Nat.min_eq_left (by rw [← Stack.count, count, List.length_cons]; omega)
        have inside := still.lt_count
        have less := replaces.count
        have keeps := ((pops.keeps u).trans (kept (by omega))).trans
          (replaces.keeps u ne (by omega))
        exact (keeps.isAt_iff (by omega) c).mp still
  · exact ⟨sound, ⟨b, children, here, rfl, grown⟩, fun u c _ there => there⟩

/-- A lexeme that was read, as an extra if it is a comment, has grown there. -/
theorem grown_of_takesExtra (isRead : x.IsReadAt text b.pos) :
    (if (startState.entry x.symbol).takesExtra then x.toTree.withExtra true else x.toTree).Grown
      text b.pos := by
  have ends : x.toTree = x.toTree.withExtra x.isEnd := rfl
  rcases isRead.leaf_cases with ⟨t, leaf⟩ | ⟨stuck, leaf⟩
  · rw [Lexeme.symbol, leaf]
    change ((if (State.entry startState (.token t)).takesExtra then _ else _) : Tree).Grown ..
    rw [State.takesExtra_startState]
    split
    · rename_i comment
      exact Tree.grown_toTree isRead (by rw [leaf, Leaf.isOutside, comment, Bool.or_true])
    · rename_i notComment
      rw [ends]
      refine Tree.grown_toTree isRead ?_
      rw [Lexeme.isEnd, leaf, Leaf.isOutside, Bool.eq_false_iff.mpr notComment, Bool.or_false,
        Bool.eq_iff_iff, beq_iff_eq, beq_iff_eq, Leaf.read.injEq]
  · rw [Lexeme.symbol, leaf, ends]
    exact Tree.grown_toTree isRead (by rw [Lexeme.isEnd, leaf]; rfl)

/-- Leaving a lexeme out keeps a stack sound, and has a cost. -/
theorem sound_skip (sound : s.Sound text) (here : s.IsAt v b) (isRead : x.IsReadAt text b.pos)
    (costs : s.CostsBut stray v) :
    (skip s v x).Sound text ∧ (skip s v x).Costs stray := by
  obtain ⟨sound', ⟨c, children, here', same, grown⟩, old⟩ := sound_gather sound here
    (Tree.grownOf_singleton.mpr (grown_of_takesExtra isRead))
  rw [skip]
  dsimp only
  generalize gather s v _ = result at *
  obtain ⟨gathered, skipped⟩ := result
  dsimp only at *
  subst same
  have positive : 0 < c.cost + (Tree.ofChildren .skipped children).cost :=
    Nat.lt_add_left _ (Nat.pos_of_ne_zero (Tree.cost_ofChildren_skipped children))
  have leads : Spot.Leads text c ⟨errorState, c.pos + Tree.extentOf children,
      c.cost + (Tree.ofChildren .skipped children).cost⟩ (some (.ofChildren .skipped children)) := by
    refine ⟨Tree.grown_ofChildren rfl grown, fun _ => positive, ?_⟩
    rw [Tree.stateBehind_of_not_extra _ rfl, Tree.extent_ofChildren]
    rfl
  obtain ⟨pushed, there⟩ := sound'.push here' leads
  refine ⟨pushed, costs.close there (fun _ => positive) fun u d ne still => old u d ne ?_⟩
  have inside := still.lt_count
  rw [Stack.count_push] at inside
  exact ((sound'.keeps_push _ _ (Ne.symm ne)).isAt_iff inside d).mp still

/-! ### Ending in the error -/

/-- A version that is in an error may end at the end of the text. -/
theorem Sound.acceptError (sound : p.Sound text stray) (here : p.stack.IsAt v b)
    (isRead : x.IsReadAt text b.pos) (ends : x.isEnd = true) :
    (p.acceptError v x).Sound text stray ∧
      ∀ u c, (p.acceptError v x).stack.IsAt u c → u ≠ v ∧ p.stack.IsAt u c := by
  obtain ⟨good, soundOn⟩ := sound.stack
  have known := soundOn.good_of_isAt here
  obtain ⟨grown, extra, _⟩ := grown_toTree_of_isEnd isRead ends
  have atEnd := (isRead.standsAt (soundOn.place_of_isAt here)).of_isEnd ends
  have but := (soundOn.but v).push (some (.ofChildren .error [])) startState
  have spot : ((p.stack.push v (some (.ofChildren .error [])) startState).cell
      (p.stack.head v).cell).spot = b := by
    rw [Stack.cell_push _ _ _ (soundOn.bounded known)]
    exact here.2
  have size : p.stack.cells.size <
      (p.stack.push v (some (.ofChildren .error [])) startState).cells.size := by
    rw [Stack.push, Array.size_push]
    exact Nat.lt_succ_self _
  have kept := fun u ne => Stack.keeps_push (v := v) (u := u) soundOn
    (some (.ofChildren .error [])) startState (Ne.symm ne)
  rw [Parse.acceptError]
  have accepted := sound.accept_of (x := x) but (by rw [Stack.count_push]; exact here.lt_count)
    (fun w from' => ?_) fun w from' noLinks => ?_
  · refine accepted.imp_right fun old u c there => ?_
    obtain ⟨ne, there'⟩ := old u c there
    have inside := there'.lt_count
    rw [Stack.count_push] at inside
    exact ⟨ne, ((kept u ne).isAt_iff inside c).mp there'⟩
  · rcases Stack.from_push here.lt_count from' with ⟨_, same⟩ | ⟨w', from'', same, _⟩
    · rwa [same]
    · rw [← same]
      exact but.bounded (from''.way but.toGrounded known).1
  · rcases Stack.from_push here.lt_count from' with ⟨some, _⟩ | ⟨w', from'', same, trees⟩
    · exact absurd noLinks some
    · obtain ⟨isGood, way⟩ := from''.way but.toGrounded known
      rw [← same] at noLinks
      rw [(but.ground isGood noLinks).2, spot] at way
      rw [← same, trees]
      refine ⟨isGood, fun root made => ?_⟩
      obtain ⟨whole, costs⟩ := Tree.isWhole_of_rootOf?_error way grown extra atEnd made
      exact ⟨whole, fun _ => Nat.pos_of_ne_zero costs⟩

/-- A version in an error goes on at a lexeme that can be read where it stands. -/
theorem Sound.recover (sound : p.Sound text stray) (here : p.stack.IsAt v b)
    (isRead : x.IsReadAt text b.pos) (costs : p.stack.CostsBut stray v)
    (far : stray → 0 < b.cost ∨ ∀ q ∈ (p.stack.head v).passed, q.IsBehind b.pos) :
    (p.recover v x).Paid text stray := by
  rw [Parse.recover]
  dsimp only
  have settled := sound.withStack (sound.stack.settle v)
  have stays := Stack.stays_settle p.stack v
  have here' : (p.withStack (p.stack.settle v)).stack.IsAt v b := stays.isAt here
  have costs' : (p.withStack (p.stack.settle v)).stack.CostsBut stray v := stays.costsBut costs
  have same : ((p.withStack (p.stack.settle v)).stack.head v).passed = (p.stack.head v).passed := by
    rw [Parse.withStack, Stack.settle, Stack.head_modifyHead, if_pos ⟨rfl, here.lt_count⟩]
  have far' : stray → 0 < b.cost ∨ ∀ q ∈ if x.symbol = .error then []
      else ((p.withStack (p.stack.settle v)).stack.head v).passed, q.IsBehind b.pos := by
    refine fun strays => (far strays).imp_right fun behind q mem => ?_
    split at mem
    · cases mem
    · exact behind q (same ▸ mem)
  generalize p.withStack (p.stack.settle v) = p' at *
  generalize p'.stack.cost v = cost
  generalize (if x.symbol = .error then [] else (p'.stack.head v).passed) = passed at *
  obtain ⟨sound', here'', costs''⟩ := settled.goBackToUse here' costs' x.symbol cost
    (p'.stack.progressSinceError v) p.stack.count far'
  generalize Parse.goBackToUse x.symbol v cost _ _ passed p' = result at *
  obtain ⟨back, found⟩ := result
  dsimp only at *
  obtain ⟨dropped, keeps, old⟩ := sound_dropInactive sound'.stack p.stack.count
  have sound'' := sound'.withStack dropped
  have still : (back.withStack (dropInactive back.stack p.stack.count)).stack.IsAt v b :=
    (keeps v here.lt_count).isAt here''
  have paid : (back.withStack (dropInactive back.stack p.stack.count)).stack.CostsBut stray v := by
    intro u c ne there
    obtain ⟨u', same | le, there'⟩ := old u c there
    · exact costs'' u' c (same ▸ ne) there'
    · exact costs'' u' c (Nat.ne_of_gt (Nat.lt_of_lt_of_le here.lt_count le)) there'
  generalize back.withStack (dropInactive back.stack p.stack.count) = left at *
  split
  · exact ⟨sound''.withStack (sound''.stack.halt v), paid.halt⟩
  · split
    · rename_i ends
      obtain ⟨accepted, old⟩ := sound''.acceptError still isRead ends
      refine ⟨accepted, fun u c there => ?_⟩
      obtain ⟨ne, there'⟩ := old u c there
      exact paid u c ne there'
    · obtain ⟨compared, stays'⟩ :=
        sound''.hasBetter v (cost + Cost.skippedTree + Tree.textCost x.extent)
      generalize left.hasBetter v _ = result at *
      obtain ⟨left', better⟩ := result
      have paid' := stays'.costsBut paid
      dsimp only at *
      split
      · exact ⟨compared.withStack (compared.stack.halt v), paid'.halt⟩
      · obtain ⟨skipped, paid''⟩ := sound_skip compared.stack (stays'.isAt still) isRead paid'
        exact ⟨compared.withStack skipped, paid''⟩

/-! ### The error itself -/

/-- A stack has got new versions, all of which cost something; the old ones stay. -/
structure Adds (text : Text) (s s' : Stack) : Prop where
  sound : s'.Sound text
  keeps : ∀ u, s.Keeps s' u
  new : ∀ u c, s.count ≤ u → s'.IsAt u c → 0 < c.cost

theorem Adds.refl (sound : s.Sound text) : Adds text s s :=
  ⟨sound, .refl s, fun _ _ outside there => absurd there (Stack.not_isAt_of_count_le outside)⟩

theorem Adds.trans {s' s'' : Stack} (h : Adds text s s') (h' : Adds text s' s'') :
    Adds text s s'' where
  sound := h'.sound
  keeps u := (h.keeps u).trans (h'.keeps u)
  new u c le there := by
    rcases Nat.lt_or_ge u s'.count with inside | outside
    · exact h.new u c le (((h'.keeps u).isAt_iff inside c).mp there)
    · exact h'.new u c outside there

/-- A token that is put in takes up no text, and concerns no other version. -/
theorem adds_putIn? (sound : s.Sound text) (here : s.IsAt v b) {ahead : Symbol} {t : Token}
    (notEof : t ≠ .eof) {s' : Stack} {helped : Bool}
    (made : putIn? s v ahead t = some (s', helped)) : Adds text s s' := by
  rw [putIn?] at made
  dsimp only at made
  split at made
  · cases made
  · rename_i mayPut
    rw [Bool.or_eq_true, Bool.or_eq_true, not_or, not_or, decide_eq_true_eq, decide_eq_true_eq,
      here.state_eq] at mayPut
    obtain ⟨⟨notError, notSame⟩, _⟩ := mayPut
    have notComment : t.isComment = false := by
      cases comment : t.isComment with
      | false => rfl
      | true => exact absurd (State.next_of_isComment comment) (not_or.mpr ⟨notSame, notError⟩)
    obtain ⟨copied, there⟩ := sound.copy here
    rw [here.state_eq] at made
    have behind : Tree.stateBehind b.state (.leaf (.missing t) .zero .zero false) =
        b.state.next (.token t) := Tree.stateBehind_of_not_extra _ rfl
    generalize b.state.next (.token t) = next at *
    have leads : Spot.Leads text b ⟨next, b.pos, b.cost + (Cost.missingTree + Cost.recovery)⟩
        (some (.leaf (.missing t) .zero .zero false)) := by
      refine ⟨.missing notEof notComment, fun error => absurd error notError, ?_⟩
      rw [behind, Tree.extent, Tree.padding, Tree.size, Extent.zero_add, Extent.add_zero]
      rfl
    obtain ⟨pushed, there'⟩ := copied.push there leads
    have count : ((s.copy v).push s.count (some (.leaf (.missing t) .zero .zero false)) next).count =
        s.count + 1 := by
      rw [Stack.count_push]
      exact List.length_append
    have keeps : ∀ u, s.count ≠ u → (s.copy v).Keeps
        ((s.copy v).push s.count (some (.leaf (.missing t) .zero .zero false)) next) u :=
      fun u ne => copied.keeps_push _ _ ne
    dsimp only at *
    generalize (s.copy v).push s.count (some (.leaf (.missing t) .zero .zero false)) next = s₁ at *
    have last : some ahead = none ∨ s₁.count = s.count + 1 := .inr count
    obtain ⟨_, _, exhausts⟩ := pushed.reduceAll there' notError last
    rw [Option.some.inj made] at exhausts
    refine ⟨exhausts.sound, fun u => .of_lt fun before => ?_, fun u c le there'' => ?_⟩
    · refine ((Stack.keeps_append s _ u).trans (keeps u (Nat.ne_of_gt before))).trans ?_
      exact exhausts.others u (by omega) (Nat.ne_of_lt before)
    · obtain ⟨a, there₁, beside⟩ := exhausts.here u (by omega) there''.lt_count
      rw [there''.unique there₁, beside.cost]
      exact Nat.lt_add_left _ (by decide)

section

-- trying a token is not to be computed where the equation of the search is checked
attribute [local irreducible] putIn?

theorem putInOne_cons (v : Nat) (ahead : Symbol) (t : Token) (tokens : List Token) (s : Stack) :
    putInOne v ahead (t :: tokens) s =
      match putIn? s v ahead t with
      | none => putInOne v ahead tokens s
      | some (s, true) => (s, true)
      | some (s, false) => putInOne v ahead tokens s := by
  delta putInOne
  rfl

end

theorem adds_putInOne (sound : s.Sound text) (here : s.IsAt v b) (ahead : Symbol)
    {tokens : List Token} (notEof : ∀ t ∈ tokens, t ≠ .eof) :
    Adds text s (putInOne v ahead tokens s).1 := by
  induction tokens generalizing s with
  | nil => exact .refl sound
  | cons t tokens ih =>
    have later := fun u mem => notEof u (List.mem_cons_of_mem _ mem)
    have one := fun s' helped =>
      @adds_putIn? _ _ _ _ sound here ahead t (notEof t List.mem_cons_self) s' helped
    rw [putInOne_cons]
    generalize putIn? s v ahead t = made at *
    split
    · exact ih sound here later
    · exact one _ true rfl
    · have adds := one _ false rfl
      exact adds.trans (ih adds.sound ((adds.keeps v).isAt here) later)

/-- What becomes of versions that stand beside the spot `b` when gaps are opened on them: each stands
in the error there. The others stay, and those that are made cost something. -/
structure Opens (text : Text) (b : Spot) (versions : List Nat) (s s' : Stack) : Prop where
  sound : s'.Sound text
  opened : ∀ u ∈ versions, s'.IsAt u ⟨errorState, b.pos, b.cost⟩
  keeps : ∀ u, u ∉ versions → s.Keeps s' u
  new : ∀ u c, s.count ≤ u → s'.IsAt u c → 0 < c.cost

theorem opens_openGaps (ahead : Symbol) {versions : List Nat} (distinct : versions.Nodup)
    (helped : Bool) (sound : s.Sound text)
    (pursued : ∀ u ∈ versions, ∃ a, s.IsAt u a ∧ b.Beside a) :
    Opens text b versions s (openGaps ahead versions (s, helped)).1 := by
  have notEof : ∀ t ∈ Token.all.tail, t ≠ .eof := by decide
  induction versions generalizing s helped with
  | nil =>
    exact ⟨sound, fun _ mem => absurd mem List.not_mem_nil, fun u _ => .refl s u,
      fun _ _ outside there => absurd there (Stack.not_isAt_of_count_le outside)⟩
  | cons v versions ih =>
    rw [openGaps]
    obtain ⟨isNew, distinct⟩ := List.nodup_cons.mp distinct
    obtain ⟨a, here, beside⟩ := pursued v List.mem_cons_self
    have adds : Adds text s
        (if helped then (s, true) else putInOne v ahead Token.all.tail s).1 := by
      split
      · exact .refl sound
      · exact adds_putInOne sound here ahead notEof
    generalize (if helped then (s, true) else putInOne v ahead Token.all.tail s) = result at *
    obtain ⟨s', helped'⟩ := result
    dsimp only at *
    have leads : Spot.Leads text a ⟨errorState, b.pos, b.cost⟩ none :=
      ⟨beside.state, by rw [beside.pos, beside.cost]⟩
    obtain ⟨pushed, here'⟩ := adds.sound.push ((adds.keeps v).isAt here) leads
    have kept : ∀ u, v ≠ u → s.Keeps (s'.push v none errorState) u := fun u ne =>
      (adds.keeps u).trans (adds.sound.keeps_push none errorState ne)
    have opens := ih distinct helped' pushed fun u mem => by
      obtain ⟨c, there, beside⟩ := pursued u (List.mem_cons_of_mem _ mem)
      exact ⟨c, (kept u fun same => isNew (same ▸ mem)).isAt there, beside⟩
    refine ⟨opens.sound, fun u mem => ?_, fun u notMem => ?_, fun u c le there => ?_⟩
    · rcases List.mem_cons.mp mem with rfl | mem
      · exact (opens.keeps u isNew).isAt here'
      · exact opens.opened u mem
    · obtain ⟨ne, notMem⟩ := not_or.mp (mt List.mem_cons.mpr notMem)
      exact (kept u (Ne.symm ne)).trans (opens.keeps u notMem)
    · rcases Nat.lt_or_ge u (s'.push v none errorState).count with inside | outside
      · have notMem : u ∉ versions := by
          intro mem
          obtain ⟨_, there, _⟩ := pursued u (List.mem_cons_of_mem _ mem)
          exact Nat.not_le_of_lt there.lt_count le
        have ne : v ≠ u := fun same => Nat.not_le_of_lt (same ▸ here.lt_count) le
        have there' := ((opens.keeps u notMem).isAt_iff inside c).mp there
        rw [Stack.count_push] at inside
        exact adds.new u c le
          (((adds.sound.keeps_push none errorState ne).isAt_iff inside c).mp there')
      · exact opens.new u c outside there

/-- Versions that stand at one spot can be merged. -/
theorem exists_merge? (here : s.IsAt v b) (there : s.IsAt w b) :
    ∃ s', s.merge? v w = some s' := by
  refine ⟨s.join v w, if_pos ?_⟩
  have active : s.isActive v = true ∧ s.isActive w = true := by
    rw [Stack.isActive, Stack.isActive, here.1, there.1]
    exact ⟨rfl, rfl⟩
  have agree : (s.top v).agreesWith (s.top w) = true := by
    have state := here.state_eq.trans there.state_eq.symm
    have pos := here.pos_eq.trans there.pos_eq.symm
    have cost : (s.top v).cost = (s.top w).cost :=
      (congrArg Spot.cost here.2).trans (congrArg Spot.cost there.2).symm
    rw [Cell.agreesWith, cost, show (s.top v).state = (s.top w).state from state,
      show (s.top v).pos = (s.top w).pos from pos]
    simp
  rw [Stack.canMerge, active.1, active.2, agree]
  rfl

/-- The versions from `first` on that stand where the version `v` stands go, as many as there are.
-/
theorem merged_foldl {first : Nat} (before : v < first) (made : List Nat) (sound : s.Sound text)
    (here : s.IsAt v b) (same : ∀ i, i < made.length → s.IsAt (first + i) b)
    (costs : ∀ u c, u ≠ v → u < first ∨ first + made.length ≤ u → s.IsAt u c → c.Pays stray) :
    (made.foldl (fun s _ => (s.merge? v first).getD s) s).Sound text ∧
      (made.foldl (fun s _ => (s.merge? v first).getD s) s).IsAt v b ∧
      (made.foldl (fun s _ => (s.merge? v first).getD s) s).CostsBut stray v := by
  induction made generalizing s with
  | nil => exact ⟨sound, here, fun u c ne => costs u c ne (Nat.lt_or_ge u first)⟩
  | cons _ made ih =>
    rw [List.length_cons] at same costs
    obtain ⟨s', merges⟩ := exists_merge? here (same 0 (Nat.succ_pos _))
    rw [Nat.add_zero] at merges
    obtain ⟨sound', drops⟩ := sound.merge? merges
    rw [List.foldl_cons, merges]
    refine ih sound' ((drops.keeps v before).isAt here) (fun i inside => ?_) fun u c ne region there => ?_
    · exact (drops.shifts _ b (Nat.le_add_right ..)).mpr (same (i + 1) (Nat.succ_lt_succ inside))
    · obtain ⟨u', index, there'⟩ := drops.exists_isAt there
      exact costs u' c (by omega) (by omega) there'

/-- The error of a version is handled at a lexeme that can be read where the version stands. -/
theorem Sound.handleError (sound : p.Sound text stray) (here : p.stack.IsAt v b)
    (notError : b.state ≠ errorState) (isRead : x.IsReadAt text b.pos)
    (costs : p.stack.CostsBut stray v) :
    (p.handleError v x).Paid text stray := by
  have inside := here.lt_count
  obtain ⟨keeps, kept, exhausts⟩ := sound.stack.reduceAll here notError (.inl rfl : none = none ∨ _)
  rw [Parse.handleError]
  dsimp only
  generalize p.stack.reduceAll v none = result at *
  obtain ⟨s, shifts⟩ := result
  dsimp only at *
  have before := exhausts.still (kept rfl)
  have pursued : ∀ u ∈ v :: (List.range (s.count - p.stack.count)).map (p.stack.count + ·),
      ∃ a, s.IsAt u a ∧ b.Beside a := by
    intro u mem
    rcases List.mem_cons.mp mem with rfl | mem
    · exact exhausts.here u (.inl rfl) (Nat.lt_of_lt_of_le here.lt_count before)
    · obtain ⟨i, inside, rfl⟩ := List.mem_map.mp mem
      rw [List.mem_range] at inside
      exact exhausts.here (p.stack.count + i) (.inr (Nat.le_add_right ..)) (by omega)
  have distinct : (v :: (List.range (s.count - p.stack.count)).map (p.stack.count + ·)).Nodup := by
    refine List.nodup_cons.mpr ⟨fun mem => ?_, ?_⟩
    · obtain ⟨i, _, same⟩ := List.mem_map.mp mem
      omega
    · exact List.Pairwise.map _ (fun i j ne => by omega) List.nodup_range
  have opens := opens_openGaps x.symbol distinct false exhausts.sound pursued
  generalize openGaps x.symbol _ (s, false) = result at *
  obtain ⟨s', helped⟩ := result
  dsimp only at *
  have still := opens.opened v List.mem_cons_self
  have gaps : ∀ i, i < (List.range (s.count - p.stack.count)).length →
      s'.IsAt (p.stack.count + i) ⟨errorState, b.pos, b.cost⟩ := by
    intro i less
    rw [List.length_range] at less
    refine opens.opened _ (List.mem_cons_of_mem _ ?_)
    exact List.mem_map.mpr ⟨i, List.mem_range.mpr less, rfl⟩
  have others : ∀ u c, u ≠ v →
      u < p.stack.count ∨ p.stack.count + (List.range (s.count - p.stack.count)).length ≤ u →
      s'.IsAt u c → c.Pays stray := by
    intro u c ne region there
    rw [List.length_range] at region
    rcases region with old | new
    · have notMem : u ∉ v :: (List.range (s.count - p.stack.count)).map (p.stack.count + ·) := by
        intro mem
        obtain ⟨i, _, same⟩ := List.mem_map.mp ((List.mem_cons.mp mem).resolve_left ne)
        omega
      have keeps := (exhausts.others u old ne).trans (opens.keeps u notMem)
      exact costs u c ne ((keeps.isAt_iff old c).mp there)
    · exact fun _ => opens.new u c (by omega) there
  obtain ⟨sound', there, costs'⟩ := merged_foldl inside _ opens.sound still gaps others
  generalize List.foldl _ s' _ = s'' at *
  obtain ⟨recorded, stays, passed⟩ := sound'.recordPassed there
  refine (sound.withStack recorded).recover (stays.isAt there) isRead (stays.costsBut costs')
    fun _ => ?_
  rcases Nat.eq_zero_or_pos b.cost with free | positive
  · refine .inr fun q mem => ?_
    exact sound'.isBehind_of_mem_passedBy there rfl free q (passed ▸ mem)
  · exact .inl positive

end Parse

end SusSyntax
