import SusSyntax.Proofs.Stack.Walk

/-!
What the versions of a stack have to cost.

A version in the error state has a cost, and where a parse strays from the grammar every version has
one (`Stack.Costs`). Only while the error of a version is handled there is an exception, that version
itself (`Stack.CostsBut`): it stands over a gap, which costs nothing. Whoever goes back from there
takes off a tree that is no extra, since the places it goes back to lie before the gap
(`Sound.isBehind_of_mem_passedBy`).
-/

namespace SusSyntax

open Grammar

/-- A spot that costs something, if the parse strays or if it is in the error state. -/
def Spot.Pays (stray : Prop) (b : Spot) : Prop :=
  stray ∨ b.state = errorState → 0 < b.cost

/-- What a waypoint has to be for a version that stands at the place `pos`: if it is at another one,
a tree lies over it beside the gap. -/
def Waypoint.IsBehind (pos : Extent) (q : Waypoint) : Prop :=
  q.state ≠ errorState → q.pos.bytes ≠ pos.bytes → 2 ≤ q.depth

namespace Stack

/-- Two stacks have the same versions, as far as these are pursued. -/
def Stays (s s' : Stack) : Prop :=
  ∀ u b, s'.IsAt u b ↔ s.IsAt u b

/-- Every version that is pursued costs what it has to. -/
def Costs (stray : Prop) (s : Stack) : Prop :=
  ∀ u c, s.IsAt u c → c.Pays stray

/-- Every version but one costs what it has to. -/
def CostsBut (stray : Prop) (v : Nat) (s : Stack) : Prop :=
  ∀ u c, u ≠ v → s.IsAt u c → c.Pays stray

variable {text : Text} {stray : Prop} {s s' s'' : Stack} {v w : Nat} {a b : Spot}

theorem IsAt.unique (h : s.IsAt v a) (h' : s.IsAt v b) : a = b :=
  h.2.symm.trans h'.2

/-! ### The same versions -/

theorem Stays.refl (s : Stack) : s.Stays s :=
  fun _ _ => .rfl

theorem Stays.trans (h : s.Stays s') (h' : s'.Stays s'') : s.Stays s'' :=
  fun u b => (h' u b).trans (h u b)

theorem Stays.isAt (h : s.Stays s') (here : s.IsAt v b) : s'.IsAt v b :=
  (h v b).mpr here

theorem stays_of_keeps (keeps : ∀ u, s.Keeps s' u) (count : s'.count = s.count) :
    s.Stays s' := by
  intro u b
  rcases Nat.lt_or_ge u s.count with inside | outside
  · exact (keeps u).isAt_iff inside b
  · exact iff_of_false (not_isAt_of_count_le (count ▸ outside)) (not_isAt_of_count_le outside)

theorem stays_settle (s : Stack) (v : Nat) : s.Stays (s.settle v) :=
  stays_of_keeps (keeps_settle s v) (count_modifyHead ..)

theorem Stays.costsBut (h : s.Stays s') (costs : s.CostsBut stray v) : s'.CostsBut stray v :=
  fun u c ne here => costs u c ne ((h u c).mp here)

/-! ### Costs are kept -/

theorem Costs.but (costs : s.Costs stray) (v : Nat) : s.CostsBut stray v :=
  fun u c _ here => costs u c here

/-- Where every version was there before, nothing changes. -/
theorem Costs.of_exists (costs : s.Costs stray)
    (old : ∀ u c, s'.IsAt u c → ∃ u', s.IsAt u' c) : s'.Costs stray := by
  intro u c here
  obtain ⟨u', there⟩ := old u c here
  exact costs u' c there

/-- The exception is no more: the version costs what it has to. -/
theorem CostsBut.close (costs : s.CostsBut stray v) (there : s'.IsAt v b) (pays : b.Pays stray)
    (old : ∀ u c, u ≠ v → s'.IsAt u c → s.IsAt u c) : s'.Costs stray := by
  intro u c here
  by_cases same : u = v
  · subst same
    rwa [here.unique there]
  · exact costs u c same (old u c same here)

/-- Only versions that are still pursued are counted when one is given up. -/
theorem CostsBut.halt (costs : s.CostsBut stray v) : (s.halt v).Costs stray := by
  intro u c here
  obtain ⟨ne, here⟩ := isAt_of_halt here
  exact costs u c ne here

theorem Costs.pause (costs : s.Costs stray) {x : Lexical.Lexeme} : (s.pause v x).Costs stray := by
  intro u c here
  obtain ⟨-, here⟩ := isAt_of_pause here
  exact costs u c here

theorem Costs.resume (costs : s.Costs stray) : (s.resume v).CostsBut stray v :=
  fun u c ne here => costs u c (isAt_of_modifyHead here ne)

theorem Costs.settle (costs : s.Costs stray) (v : Nat) : (s.settle v).Costs stray :=
  costs.of_exists fun u c here => ⟨u, (stays_settle s v u c).mp here⟩

theorem Costs.drops (costs : s.Costs stray) (drops : s.Drops s' w) : s'.Costs stray :=
  costs.of_exists fun _ _ here =>
    let ⟨u, _, there⟩ := drops.exists_isAt here
    ⟨u, there⟩

theorem Costs.remove (costs : s.Costs stray) (w : Nat) : (s.remove w).Costs stray := by
  refine costs.of_exists fun u c here => ?_
  rw [IsAt, spot, top, head_remove] at here
  split at here
  · exact ⟨u, here⟩
  · exact ⟨u + 1, here⟩

theorem Costs.replace (costs : s.Costs stray) (before : v < w) (there : s.IsAt w b) :
    (s.replace v w).Costs stray := by
  have replaces := replaces_replace before there
  have count := replaces.count
  refine costs.of_exists fun u c here => ?_
  by_cases same : u = v
  · exact ⟨w, (same ▸ here).unique replaces.here ▸ there⟩
  · rcases Nat.lt_or_ge u w with lt | le
    · have inside := here.lt_count
      exact ⟨u, ((replaces.keeps u same lt).isAt_iff (by omega) c).mp here⟩
    · exact ⟨u + 1, (replaces.shifts u c le).mp here⟩

theorem Costs.take (costs : s.Costs stray) (n : Nat) :
    Costs stray ⟨s.cells, s.heads.take n⟩ := by
  refine costs.of_exists fun u c here => ⟨u, ?_⟩
  have before : u < n := by
    have inside := here.lt_count
    rw [count, List.length_take] at inside
    exact (Nat.lt_min.mp inside).1
  have same : head ⟨s.cells, s.heads.take n⟩ u = s.head u :=
    head_eq_of_getElem? (List.getElem?_take_of_lt before)
  rw [IsAt, spot, top, same] at here
  exact here

theorem head_swap (s : Stack) {v w : Nat} (u : Nat) :
    ∃ u', (s.swap v w).head u = s.head u' := by
  change ∃ u', (((s.heads.set v (s.head w)).set w (s.head v))[u]?).getD _ = _
  rw [List.getElem?_set]
  split
  · split
    · exact ⟨v, rfl⟩
    · exact ⟨s.count, by rw [head_of_count_le (Nat.le_refl _)]; rfl⟩
  · rw [List.getElem?_set]
    split
    · split
      · exact ⟨w, rfl⟩
      · exact ⟨s.count, by rw [head_of_count_le (Nat.le_refl _)]; rfl⟩
    · exact ⟨u, rfl⟩

theorem Costs.swap (costs : s.Costs stray) (v w : Nat) : (s.swap v w).Costs stray := by
  refine costs.of_exists fun u c here => ?_
  obtain ⟨u', same⟩ := head_swap (v := v) (w := w) s u
  rw [IsAt, spot, top, same] at here
  exact ⟨u', here⟩

/-! ### Looking back over a gap -/

theorem Sound.recordPassed (sound : s.Sound text) (here : s.IsAt v b) :
    (s.recordPassed v).Sound text ∧ s.Stays (s.recordPassed v) ∧
      ((s.recordPassed v).head v).passed = s.passedBy v := by
  refine ⟨sound.modifyHead (fun _ => rfl) fun _ => rfl, ?_, ?_⟩
  · refine stays_of_keeps (fun u => ?_) (count_modifyHead ..)
    apply keeps_modifyHead
    · exact fun _ => rfl
    · exact fun _ => rfl
  · rw [Stack.recordPassed, head_modifyHead, if_pos ⟨rfl, here.lt_count⟩]

theorem isPassed_cons {depth : Nat} {state : State} {q : Waypoint} {known : List Waypoint}
    (le : depth ≤ q.depth) (h : isPassed depth state known = true) :
    isPassed depth state (q :: known) = true := by
  rw [isPassed, List.takeWhile_cons, if_pos (decide_eq_true le), List.any_cons]
  exact Bool.or_eq_true_iff.mpr (.inr h)

theorem isPassed_here (q : Waypoint) (known : List Waypoint) :
    isPassed q.depth q.state (q :: known) = true := by
  rw [isPassed, List.takeWhile_cons, if_pos (decide_eq_true (Nat.le_refl _)), List.any_cons,
    beq_self_eq_true, beq_self_eq_true]
  rfl

/-- What is known of the states that were passed, after a visit. -/
def notePassed (s : Stack) (known : List Waypoint) (w : Walker) : List Waypoint × Verdict :=
  if lookBack < w.count then (known, .stop)
  else if isPassed w.count (s.cell w.cell).state known then (known, .goOn)
  else (⟨w.count, (s.cell w.cell).state, (s.cell w.cell).pos⟩ :: known, .goOn)

theorem passedBy_eq (s : Stack) (v : Nat) : s.passedBy v = (s.walk v [] s.notePassed).1.reverse := rfl

theorem notePassed_cases (s : Stack) (known : List Waypoint) (w : Walker) :
    (s.notePassed known w).1 = known ∨ isPassed w.count (s.cell w.cell).state known = false ∧
      (s.notePassed known w).1 = ⟨w.count, (s.cell w.cell).state, (s.cell w.cell).pos⟩ :: known := by
  rw [notePassed]
  split
  · exact .inl rfl
  · split
    · exact .inl rfl
    · rename_i isNew
      exact .inr ⟨Bool.eq_false_iff.mpr isNew, rfl⟩

/-- A walk goes on where the state has been noted. -/
theorem isPassed_notePassed {known : List Waypoint} {w : Walker}
    (goesOn : (s.notePassed known w).2.continues = true) :
    isPassed w.count (s.cell w.cell).state (s.notePassed known w).1 = true := by
  rw [notePassed] at goesOn ⊢
  split
  · rename_i far
    rw [if_pos far] at goesOn
    cases goesOn
  · split
    · rename_i old
      exact old
    · exact isPassed_here ⟨w.count, _, _⟩ known

/-- A walker that has come by a gap at the place `pos`: as long as it has passed nothing else but
extras, it is at that place, or in a state that was noted there. -/
structure BeyondGap (s : Stack) (good : Nat → Prop) (pos : Extent) (known : List Waypoint)
    (w : Walker) : Prop where
  isGood : good w.cell
  positive : 1 ≤ w.count
  near : w.count = 1 →
    (s.cell w.cell).pos = pos ∨ isPassed 1 (s.cell w.cell).state known = true

section

variable {good : Nat → Prop} {pos : Extent} {known : List Waypoint} {w u : Walker} {l : Link}

/-- What is noted beyond a gap is at its place, or two trees down. -/
theorem BeyondGap.isBehind (h : s.BeyondGap good pos known w)
    (old : ∀ q ∈ known, q.IsBehind pos) : ∀ q ∈ (s.notePassed known w).1, q.IsBehind pos := by
  intro q mem
  rcases notePassed_cases s known w with same | ⟨isNew, same⟩
  · exact old q (same ▸ mem)
  rw [same] at mem
  rcases List.mem_cons.mp mem with rfl | mem
  · intro _ elsewhere
    have positive := h.positive
    by_cases one : w.count = 1
    · rcases h.near one with here | passed
      · exact absurd (congrArg Extent.bytes here) elsewhere
      · rw [one, passed] at isNew
        cases isNew
    · change 2 ≤ w.count
      omega
  · exact old q mem

/-- What another walker notes beyond the gap makes no difference. -/
theorem BeyondGap.visit (h : s.BeyondGap good pos known u) (positive : 1 ≤ w.count) :
    s.BeyondGap good pos (s.notePassed known w).1 u := by
  refine ⟨h.isGood, h.positive, fun one => (h.near one).imp_right fun passed => ?_⟩
  rcases notePassed_cases s known w with same | ⟨_, same⟩
  · rwa [same]
  · rw [same]
    exact isPassed_cons positive passed

/-- Behind an extra a walker is in the same state, and that was noted. -/
theorem BeyondGap.follow (sound : s.SoundOn text good) (h : s.BeyondGap good pos known w)
    (goesOn : (s.notePassed known w).2.continues = true) (mem : l ∈ (s.cell w.cell).links) :
    s.BeyondGap good pos (s.notePassed known w).1 (w.follow l) := by
  have noted := isPassed_notePassed goesOn
  have positive := h.positive
  obtain ⟨below, leads⟩ := sound.link h.isGood mem
  rw [Walker.follow]
  cases tree : l.tree? with
  | none => exact ⟨below, Nat.succ_pos _, fun one => by dsimp only at one; omega⟩
  | some t =>
    rw [tree] at leads
    dsimp only
    cases extra : t.isExtra with
    | false => exact ⟨below, Nat.succ_pos _, fun one => absurd (Nat.succ.inj one) (by omega)⟩
    | true =>
      refine ⟨below, positive, fun one => .inr ?_⟩
      have state := congrArg Spot.state leads.2.2
      rw [Tree.stateBehind_of_extra _ extra] at state
      change (s.cell w.cell).state = (s.cell l.below).state at state
      change w.count = 1 at one
      rwa [one, state] at noted

/-- Under a version over a gap that costs nothing there are gaps only. -/
theorem SoundOn.gap_of_mem_links (sound : s.SoundOn text good) (here : s.IsAt v b)
    (inError : b.state = errorState) (free : b.cost = 0)
    (mem : l ∈ (s.cell (s.head v).cell).links) :
    good l.below ∧ l.tree? = none ∧ (s.cell l.below).pos = b.pos := by
  have spot : (s.cell (s.head v).cell).spot = b := here.2
  obtain ⟨below, leads⟩ := sound.link (sound.good_of_isAt here) mem
  rw [spot] at leads
  cases tree : l.tree? with
  | none =>
    rw [tree] at leads
    exact ⟨below, rfl, congrArg Spot.pos leads.2.symm⟩
  | some t =>
    rw [tree] at leads
    exact absurd (leads.2.1 inError) (by omega)

end

/-- Over a gap that costs nothing all states that were passed at another place lie two trees down. -/
theorem Sound.isBehind_of_mem_passedBy (sound : s.Sound text) (here : s.IsAt v b)
    (inError : b.state = errorState) (free : b.cost = 0) :
    ∀ q ∈ s.passedBy v, q.IsBehind b.pos := by
  obtain ⟨good, sound⟩ := sound
  have spot : (s.cell (s.head v).cell).spot = b := here.2
  have first : s.notePassed [] ⟨(s.head v).cell, [], 0⟩ = ([⟨0, b.state, b.pos⟩], .goOn) := by
    rw [← spot]
    rfl
  obtain ⟨walkers, same, follows⟩ := exists_walkers (congrArg Prod.snd first)
  rw [first] at same
  -- the state where the version stands is the error state, and the walkers set out over gaps
  have holds : ∀ q ∈ (s.walkOn s.notePassed s.cells.size [⟨0, b.state, b.pos⟩] [] walkers).1,
      q.IsBehind b.pos := by
    refine walkOn_holds (I := fun known _ => ∀ q ∈ known, q.IsBehind b.pos)
      (P := s.BeyondGap good b.pos) (fun known _ w old beyond => beyond.isBehind old)
      (fun known w u beyond beyond' => beyond'.visit beyond.positive)
      (fun known w l beyond goesOn mem => beyond.follow sound goesOn mem) s.cells.size ?_ ?_
    · intro q mem notError
      obtain rfl := List.mem_singleton.mp mem
      exact absurd inError notError
    · intro w mem
      obtain ⟨l, isLink, rfl⟩ := follows w mem
      obtain ⟨below, gap, pos⟩ := sound.gap_of_mem_links here inError free isLink
      rw [Walker.follow, gap]
      exact ⟨below, Nat.le_refl 1, fun _ => .inl pos⟩
  rw [passedBy_eq, same]
  exact fun q mem => holds q (List.mem_reverse.mp mem)

end Stack

end SusSyntax
