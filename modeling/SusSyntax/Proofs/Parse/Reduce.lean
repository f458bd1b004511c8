import SusSyntax.Parse.Reduce
import SusSyntax.Proofs.Stack.Merge
import SusSyntax.Proofs.Stack.Walk

/-!
Reductions keep a stack sound.

A reduction is made in a state that admits it, so what is taken off for it leads to that state and
makes up the children of the rule (`Sound.pushReading`). It adds versions that stand beside the
reduced version (`Spot.Beside`): at the same place of the text, with the same cost, and never in an
error. It leaves the others as they are (`Stack.Grows`); this also bounds what is changed when all
possible reductions are made (`Sound.reduceAll`).
-/

namespace SusSyntax

open Grammar

/-- Where a reduction leads: the place of the text is the same, the cost is the same, and there is no
error. -/
structure Spot.Beside (b a : Spot) : Prop where
  pos : a.pos = b.pos
  cost : a.cost = b.cost
  state : a.state ≠ errorState

theorem Spot.Beside.trans {a b c : Spot} (h : b.Beside a) (h' : a.Beside c) : b.Beside c :=
  ⟨h'.pos.trans h.pos, h'.cost.trans h.cost, h'.state⟩

namespace Stack

variable {text : Text} {s s' s'' : Stack} {v w : Nat} {a b : Spot} {rule : Rule}
  {size layout : Nat}

/-! ### One reading -/

/-- The reading that is kept is the reading of one of the ways. -/
theorem bestReading_mem (rule : Rule) (layout : Nat) {ways : List (List Tree)} (some : ways ≠ []) :
    ∃ trees ∈ ways, bestReading rule layout ways = .ofTrees rule layout trees := by
  cases ways with
  | nil => exact absurd rfl some
  | cons first others =>
    rw [bestReading]
    dsimp only
    suffices goal : ∀ best : Reading,
        (∃ trees ∈ first :: others, best = .ofTrees rule layout trees) →
        ∃ trees ∈ first :: others, others.foldl (fun best trees =>
          if best.node.isReplacedBy (Reading.ofTrees rule layout trees).node then
            Reading.ofTrees rule layout trees
          else best) best = .ofTrees rule layout trees from
      goal _ ⟨first, List.mem_cons_self, rfl⟩
    have known : ∀ trees ∈ others, trees ∈ first :: others :=
      fun trees mem => List.mem_cons_of_mem _ mem
    clear some
    generalize first :: others = ways at known
    induction others with
    | nil => exact fun best known => known
    | cons trees others ih =>
      intro best isReading
      rw [List.foldl_cons]
      refine ih (fun us mem => known us (List.mem_cons_of_mem _ mem)) _ ?_
      split
      · exact ⟨trees, known trees List.mem_cons_self, rfl⟩
      · exact isReading

/-- The node of a reduction, with the extras behind it, takes up what its children took up. -/
theorem Sound.pushReading (sound : s.Sound text) (here : s.IsAt w a) {trees : List Tree}
    (way : Spot.Taken text a trees size b) {t : Token}
    (admits : .reduce rule size layout ∈ (b.state.row.entry t).actions) :
    let reading := Reading.ofTrees rule layout trees
    let next := (s.state w).next (.rule rule)
    let s' := (s.push w (some reading.node) next).pushAll w reading.extras next
    s'.Sound text ∧ s'.IsAt w ⟨next, b.pos, b.cost⟩ ∧ next ≠ errorState ∧
      (∀ u, w ≠ u → s.Keeps s' u) ∧ s'.count = s.count := by
  obtain ⟨state, same⟩ := way.inside (State.ne_errorState_of_reduce admits)
  have goto : a.state.next (.rule rule) ≠ errorState := by
    rw [Tree.follow_eq_through] at state
    rw [same, ← List.length_map (f := Tree.symbol)] at admits
    obtain ⟨m, found, _⟩ := State.exists_goto_of_reduce way.grown.noComment state.symm admits
    rw [(State.next_of_goto? found).1]
    exact (State.next_of_goto? found).2
  dsimp only [Reading.ofTrees]
  have parts := Tree.append_splitTrailingExtras trees
  have follows := Tree.follow_splitTrailingExtras a.state trees
  have inside := Tree.insiders_splitTrailingExtras trees
  have extras : ∀ t ∈ (Tree.splitTrailingExtras trees).2, t.isExtra = true :=
    fun t => Tree.isExtra_of_mem_trailing
  have lasts : ∀ t ∈ (Tree.splitTrailingExtras trees).1.getLast?, t.isExtra = false :=
    fun t => Tree.isExtra_of_getLast?_front
  have firsts := way.first (State.ne_errorState_of_reduce admits)
  generalize Tree.splitTrailingExtras trees = split at *
  obtain ⟨children, behind⟩ := split
  dsimp only at *
  have cost := way.cost
  rw [← parts, Tree.sumOver_append, ← Nat.add_assoc] at cost
  obtain ⟨grown, grownBehind⟩ := Tree.grownOf_append.mp (parts ▸ way.grown)
  have trim : Tree.AreTrim children := by
    refine ⟨fun u isFirst => firsts u ?_, lasts⟩
    rw [← parts, List.head?_append, Option.mem_def.mp isFirst]
    rfl
  have joins : Tree.Joins false children (.rule rule layout) := by
    refine ⟨⟨rfl, fun _ => trim⟩, a.state, t, ?_⟩
    rw [follows, inside, ← state, ← same]
    exact admits
  rw [here.state_eq]
  have behind' : Tree.stateBehind a.state (.ofChildren (.rule rule layout) children) =
      a.state.next (.rule rule) := Tree.stateBehind_of_not_extra a.state rfl
  generalize a.state.next (.rule rule) = next at *
  have leads : Spot.Leads text a ⟨next, a.pos + Tree.extentOf children,
      a.cost + Tree.sumOver Tree.cost children⟩ (some (.ofChildren (.rule rule layout) children)) := by
    refine ⟨Tree.grown_ofChildren joins grown, fun error => absurd error goto, ?_⟩
    rw [Tree.extent_ofChildren, behind', grown.cost_rule joins]
  obtain ⟨sound', here'⟩ := sound.push here leads
  obtain ⟨sound'', here'', keeps, count⟩ := sound'.pushAll here' goto extras grownBehind
  rw [Extent.add_assoc, ← Tree.extentOf_append, parts, ← way.pos, ← cost] at here''
  exact ⟨sound'', here'', goto, fun u ne => (sound.keeps_push _ _ ne).trans (keeps u ne),
    count.trans (count_push ..)⟩

/-! ### New versions -/

/-- A stack has got new versions, all of which stand beside a spot; the old ones stay. -/
structure Grows (text : Text) (b : Spot) (s s' : Stack) : Prop where
  sound : s'.Sound text
  keeps : ∀ u, u < s.count → s.Keeps s' u
  count_le : s.count ≤ s'.count
  new : ∀ u, s.count ≤ u → u < s'.count → ∃ a, s'.IsAt u a ∧ b.Beside a

theorem Grows.refl (sound : s.Sound text) : Grows text b s s :=
  ⟨sound, fun u _ => .refl s u, Nat.le_refl _,
    fun _ le lt => absurd lt (Nat.not_lt.mpr le)⟩

theorem Grows.trans (h : Grows text b s s') (h' : Grows text b s' s'') :
    Grows text b s s'' where
  sound := h'.sound
  keeps u before := (h.keeps u before).trans (h'.keeps u (Nat.lt_of_lt_of_le before h.count_le))
  count_le := Nat.le_trans h.count_le h'.count_le
  new u le lt := by
    rcases Nat.lt_or_ge u s'.count with old | new
    · obtain ⟨a, here, place⟩ := h.new u le old
      exact ⟨a, (h'.keeps u old).isAt here, place⟩
    · exact h'.new u new lt

theorem Grows.beside (h : Grows text a s s') (beside : b.Beside a) : Grows text b s s' where
  sound := h.sound
  keeps := h.keeps
  count_le := h.count_le
  new u le lt := by
    obtain ⟨c, here, beside'⟩ := h.new u le lt
    exact ⟨c, here, beside.trans beside'⟩

/-- While the slices of a reduction are put in place: the versions before `n` are done. -/
structure Putting (text : Text) (Q : Spot → List Tree → Prop) (b : Spot) (s s' : Stack)
    (removed n : Nat) (slices : List Slice) : Prop where
  sound : s'.Sound text
  keeps : ∀ u, u < s.count → s.Keeps s' u
  count_le : s.count ≤ n
  new : ∀ u, s.count ≤ u → u < n → ∃ a, s'.IsAt u a ∧ b.Beside a
  offers : Offers Q s' removed n slices
  count : s'.count = n + slices.length

variable {slice : Slice} {slices : List Slice} {removed n : Nat}

/-- One slice is put in place: its version is done, or it is gone. -/
theorem Putting.putNode {t : Token}
    (admits : .reduce rule size layout ∈ (b.state.row.entry t).actions)
    (h : Putting text (fun a trees => Spot.Taken text a trees size b) b s s' removed n
      (slice :: slices)) :
    let result := Stack.putNode v rule layout (s', removed) slice
    ∃ n', Putting text (fun a trees => Spot.Taken text a trees size b) b s result.1 result.2 n'
      slices := by
  obtain ⟨version, ⟨a, here, some, ways⟩, later⟩ := h.offers
  rw [Stack.putNode]
  dsimp only
  rw [version, Nat.add_sub_cancel]
  -- whatever is done from now on is done to the version `n`, or takes it away
  have gone : ∀ {s₁ s₂ : Stack}, s₂.Sound text → s₁.Drops s₂ n → (∀ u, n ≠ u → s'.Keeps s₁ u) →
      s₁.count = s'.count →
      Putting text (fun a trees => Spot.Taken text a trees size b) b s s₂ (removed + 1) n
        slices := by
    intro s₁ s₂ sound drops keeps count
    have keeps' : ∀ u, u < n → s'.Keeps s₂ u := fun u before =>
      (keeps u (Nat.ne_of_gt before)).trans (drops.keeps u before)
    refine ⟨sound, fun u before => ?_, h.count_le, fun u le before => ?_, ?_, ?_⟩
    · exact (h.keeps u before).trans (keeps' u (Nat.lt_of_lt_of_le before h.count_le))
    · obtain ⟨c, there, place⟩ := h.new u le before
      exact ⟨c, (keeps' u before).isAt there, place⟩
    · exact (later.keeps fun u le => keeps u (Nat.ne_of_lt le)).drops drops (Nat.le_refl n)
    · exact Nat.succ.inj (drops.count.trans (count.trans h.count))
  split
  · exact ⟨n, gone (h.sound.remove n) (drops_remove here.lt_count) (fun u _ => .refl s' u) rfl⟩
  · obtain ⟨trees, mem, best⟩ := bestReading_mem rule layout some
    rw [best]
    obtain ⟨sound, here', notError, keeps, count⟩ := h.sound.pushReading here (ways trees mem) admits
    generalize (s'.state n).next (.rule rule) = next at *
    generalize Stack.pushAll _ n _ _ = s₁ at *
    split
    · rename_i merged found
      obtain ⟨sound', drops, _⟩ := sound.mergeInto? found
      exact ⟨n, gone sound' drops keeps count⟩
    · refine ⟨n + 1, sound, fun u before => ?_, Nat.le_succ_of_le h.count_le,
        fun u le before => ?_, ?_, ?_⟩
      · have := h.count_le
        exact (h.keeps u before).trans (keeps u (by omega))
      · rcases Nat.lt_or_ge u n with before | le'
        · obtain ⟨c, there, place⟩ := h.new u le before
          exact ⟨c, (keeps u (Nat.ne_of_gt before)).isAt there, place⟩
        · obtain rfl : u = n := by omega
          exact ⟨_, here', rfl, rfl, notError⟩
      · exact later.keeps fun u le => keeps u (Nat.ne_of_lt le)
      · rw [count, h.count, List.length_cons, Nat.add_right_comm, Nat.add_assoc]

theorem Putting.foldl_putNode {t : Token}
    (admits : .reduce rule size layout ∈ (b.state.row.entry t).actions)
    (h : Putting text (fun a trees => Spot.Taken text a trees size b) b s s' removed n slices) :
    Grows text b s (slices.foldl (Stack.putNode v rule layout) (s', removed)).1 := by
  induction slices generalizing s' removed n with
  | nil =>
    obtain rfl : s'.count = n := h.count
    exact ⟨h.sound, h.keeps, h.count_le, h.new⟩
  | cons slice slices ih =>
    obtain ⟨n', putting⟩ := h.putNode (v := v) admits
    exact ih putting

/-- A reduction that the state of a version admits adds versions beside it. -/
theorem Sound.reduce (sound : s.Sound text) (here : s.IsAt v b) {t : Token}
    (admits : .reduce rule size layout ∈ (b.state.row.entry t).actions) :
    Grows text b s (s.reduce v rule size layout).1 ∧
      ∀ new, (s.reduce v rule size layout).2 = some new →
        s.count ≤ new ∧ new < (s.reduce v rule size layout).1.count := by
  obtain ⟨good, sound⟩ := sound
  rw [Stack.reduce]
  have pops := sound.pop here size
  generalize s.pop v size = popped at pops
  obtain ⟨popped, slices⟩ := popped
  have putting : Putting text (fun a trees => Spot.Taken text a trees size b) b s popped 0
      s.count slices :=
    ⟨⟨good, pops.sound sound⟩, fun u _ => pops.keeps u, Nat.le_refl _,
      fun u le lt => absurd lt (Nat.not_lt.mpr le), pops.offers, pops.count⟩
  refine ⟨putting.foldl_putNode admits, fun new made => ?_⟩
  dsimp only at made ⊢
  split at made
  · rename_i more
    obtain rfl := Option.some.inj made
    exact ⟨Nat.le_refl _, more⟩
  · cases made

/-! ### All reductions -/

theorem mem_addTo {found : List Reduction} {r r' : Reduction} (h : r' ∈ r.addTo found) :
    r' ∈ found ∨ r' = r := by
  rw [Reduction.addTo] at h
  split at h
  · exact .inl h
  · simpa using h

/-- The reductions that are tried stand among the actions. -/
theorem mem_reductionsOf {actions : List Action} {r : Reduction} (h : r ∈ reductionsOf actions) :
    .reduce r.rule r.size r.layout ∈ actions := by
  rw [reductionsOf] at h
  refine List.foldlRecOn (motive := fun found => r ∈ found → .reduce r.rule r.size r.layout ∈ actions)
    actions _ (fun none => by cases none) (fun found holds a mem here => ?_) h
  split at here
  · rcases mem_addTo here with old | rfl
    · exact holds old
    · exact mem
  · exact holds here

theorem exists_of_mem_reductionsOf {state : State} {ahead : List Token} {r : Reduction}
    (h : r ∈ reductionsOf (actionsFor state ahead)) :
    ∃ t, .reduce r.rule r.size r.layout ∈ (state.row.entry t).actions := by
  obtain ⟨t, _, mem⟩ := List.mem_flatMap.mp (mem_reductionsOf h)
  exact ⟨t, mem⟩

/-- Reductions that the state of a version admits may be made one beside the other. -/
theorem Sound.reduceEach (sound : s.Sound text) (here : s.IsAt v b) {reductions : List Reduction}
    (admits : ∀ r ∈ reductions, ∃ t,
      .reduce r.rule r.size r.layout ∈ (b.state.row.entry t).actions) :
    Grows text b s (s.reduceEach v reductions).1 ∧
      ∀ new, (s.reduceEach v reductions).2 = some new →
        s.count ≤ new ∧ new < (s.reduceEach v reductions).1.count := by
  rw [Stack.reduceEach]
  suffices goal : ∀ (s' : Stack) (made : Option Nat), Grows text b s s' →
      (∀ new, made = some new → s.count ≤ new ∧ new < s'.count) →
      let result := reductions.foldl
        (fun made r => made.1.reduce v r.rule r.size r.layout) (s', made)
      Grows text b s result.1 ∧
        ∀ new, result.2 = some new → s.count ≤ new ∧ new < result.1.count from
    goal s none (.refl sound) fun new made => by cases made
  induction reductions with
  | nil => exact fun s' made grows inside => ⟨grows, inside⟩
  | cons r reductions ih =>
    intro s' made grows _
    obtain ⟨t, admitted⟩ := admits r List.mem_cons_self
    obtain ⟨grows', inside⟩ :=
      grows.sound.reduce ((grows.keeps v here.lt_count).isAt here) admitted
    exact ih (fun r' mem => admits r' (List.mem_cons_of_mem _ mem)) _ _ (grows.trans grows')
      fun new made => ⟨Nat.le_trans grows.count_le (inside new made).1, (inside new made).2⟩

/-- While all reductions of the version `v` are made, which concerns `v` and the versions from
`first` on: these are pursued beside where `v` stood, and the others stay. If nothing is removed, `v`
is still among them. -/
structure Exhausts (text : Text) (keeps : Bool) (v first : Nat) (b : Spot) (s s' : Stack) :
    Prop where
  sound : s'.Sound text
  others : ∀ u, u < first → u ≠ v → s.Keeps s' u
  here : ∀ u, u = v ∨ first ≤ u → u < s'.count → ∃ a, s'.IsAt u a ∧ b.Beside a
  still : keeps = true → first ≤ s'.count

section

variable {keeps : Bool} {first : Nat}

/-- A step that adds versions. -/
theorem Exhausts.grow (h : Exhausts text keeps v first b s s') (grows : Grows text b s' s'') :
    Exhausts text keeps v first b s s'' where
  sound := grows.sound
  others u before ne :=
    ⟨fun inside => Nat.lt_of_lt_of_le ((h.others u before ne).lt_count inside) grows.count_le,
      fun inside c => ((grows.keeps u ((h.others u before ne).lt_count inside)).isAt_iff
        ((h.others u before ne).lt_count inside) c).trans ((h.others u before ne).isAt_iff inside c)⟩
  here u region inside := by
    rcases Nat.lt_or_ge u s'.count with old | new
    · obtain ⟨a, here, place⟩ := h.here u region old
      exact ⟨a, (grows.keeps u old).isAt here, place⟩
    · exact grows.new u new inside
  still kept := Nat.le_trans (h.still kept) grows.count_le

/-- A step that drops one of the versions concerned: any of them behind the first new one, or where
versions may be removed also that one and `v` itself. -/
theorem Exhausts.drop (h : Exhausts text keeps v first b s s') (inside : w < s'.count)
    (region : (keeps = false ∧ first = v + 1 ∧ v ≤ w) ∨ v < first ∧ first < w)
    (sound : s''.Sound text) (drops : s'.Drops s'' w) :
    Exhausts text keeps v first b s s'' where
  sound := sound
  others u lt ne := (h.others u lt ne).trans (drops.keeps u (by omega))
  here u concerned inside' := by
    have count := drops.count
    rcases Nat.lt_or_ge u w with lt | le
    · obtain ⟨a, here, place⟩ := h.here u concerned (by omega)
      exact ⟨a, (drops.keeps u lt).isAt here, place⟩
    · obtain ⟨a, here, place⟩ := h.here (u + 1) (.inr (by omega)) (by omega)
      exact ⟨a, (drops.shifts u a le).mpr here, place⟩
  still kept := by
    have count := drops.count
    rcases region with ⟨removes, _⟩ | ⟨_, lt⟩
    · rw [kept] at removes
      cases removes
    · omega

/-- A step in which one of the versions concerned is put in the place of an earlier one. -/
theorem Exhausts.replace (h : Exhausts text keeps v first b s s') {new : Nat}
    (concerned : w = v ∨ first ≤ w) (lt : w < new) (behind : first ≤ new)
    (inside : new < s'.count) : Exhausts text keeps v first b s (s'.replace w new) := by
  obtain ⟨a, there, place⟩ := h.here new (.inr behind) inside
  have replaces := replaces_replace lt there
  have count := replaces.count
  refine ⟨h.sound.replace w new, fun u lt' ne => ?_, fun u concerned' inside' => ?_, fun _ => ?_⟩
  · exact (h.others u lt' ne).trans (replaces.keeps u (by omega) (by omega))
  · by_cases same : u = w
    · exact ⟨a, same ▸ replaces.here, place⟩
    · rcases Nat.lt_or_ge u new with lt' | le
      · obtain ⟨c, here, place⟩ := h.here u concerned' (by omega)
        exact ⟨c, (replaces.keeps u same lt').isAt here, place⟩
      · obtain ⟨c, here, place⟩ := h.here (u + 1) (.inr (by omega)) (by omega)
        exact ⟨c, (replaces.shifts u c le).mpr here, place⟩
  · omega

/-- Making all reductions concerns no other versions. -/
theorem Exhausts.exhaust (ahead : List Token) (before : v < first)
    (last : keeps = true ∨ first = v + 1) (fuel round : Nat) (shifts : Bool)
    (concerned : w = v ∨ first ≤ w) (h : Exhausts text keeps v first b s s') :
    Exhausts text keeps v first b s
      (Stack.exhaust ahead keeps v first fuel round w shifts s').1 := by
  induction fuel generalizing s' round w shifts with
  | zero => exact h
  | succ fuel ih =>
    rw [Stack.exhaust]
    dsimp only
    split
    · exact h
    · rename_i inside
      have inside : w < s'.count := Nat.lt_of_not_le inside
      have behind : first ≤ s'.count := by
        rcases last with kept | rfl
        · exact h.still kept
        · omega
      split
      · rename_i merged found
        obtain ⟨sound, drops, u, mem, _⟩ := h.sound.mergeInto? found
        rw [List.mem_filter, List.mem_range, decide_eq_true_eq] at mem
        have lt : first < w := Nat.lt_of_le_of_lt mem.2 mem.1
        exact ih _ _ concerned (h.drop inside (.inr ⟨before, lt⟩) sound drops)
      · obtain ⟨a, here, place⟩ := h.here w concerned inside
        rw [here.state_eq]
        obtain ⟨grows, made⟩ := h.sound.reduceEach here
          fun r (mem : r ∈ reductionsOf (actionsFor a.state ahead)) => exists_of_mem_reductionsOf mem
        replace grows := grows.beside place
        generalize s'.reduceEach w _ = result at *
        obtain ⟨reduced, new?⟩ := result
        have h' := h.grow grows
        have next : (if w = v then s'.count else w + 1) = v ∨
            first ≤ if w = v then s'.count else w + 1 := by
          split <;> omega
        have removed : Exhausts text keeps v first b s
            (if keeps then reduced else reduced.remove w) := by
          split
          · exact h'
          · rename_i removes
            have lt : w < reduced.count := Nat.lt_of_lt_of_le inside grows.count_le
            refine h'.drop lt (.inl ?_) (grows.sound.remove w) (drops_remove lt)
            refine ⟨by simpa using removes, ?_⟩
            rcases last with kept | rfl
            · exact absurd kept removes
            · exact ⟨rfl, by omega⟩
        split
        · exact ih _ _ next h'
        · split
          · rename_i new isMade
            obtain ⟨le, lt⟩ := made new isMade
            split
            · exact ih _ _ concerned (h'.replace concerned (by omega) (by omega) lt)
            · exact ih _ _ next removed
          · exact ih _ _ next removed

end

/-- Making all reductions of a version concerns only that version and those that come of it. Unless
this is done for whatever may follow, the version has to be the last one, and may be gone then. -/
theorem Sound.reduceAll (sound : s.Sound text) (here : s.IsAt v b) (notError : b.state ≠ errorState)
    {ahead : Option Symbol} (last : ahead = none ∨ s.count = v + 1) :
    ∃ keeps, (ahead = none → keeps = true) ∧
      Exhausts text keeps v s.count b s (s.reduceAll v ahead).1 := by
  unfold Stack.reduceAll
  have start : ∀ keeps, Exhausts text keeps v s.count b s s := by
    intro keeps
    refine ⟨sound, fun u _ _ => .refl s u, fun u concerned inside => ?_, fun _ => Nat.le_refl _⟩
    rcases concerned with rfl | le
    · exact ⟨b, here, rfl, rfl, notError⟩
    · exact absurd inside (Nat.not_lt.mpr le)
  refine ⟨_, ?_, (start _).exhaust _ here.lt_count (last.imp_left ?_) _ _ _ (.inl rfl)⟩
  · rintro rfl
    rfl
  · rintro rfl
    rfl

end Stack

end SusSyntax
