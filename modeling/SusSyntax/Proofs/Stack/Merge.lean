import SusSyntax.Proofs.Stack.Sound

/-!
Merging keeps a stack sound.

Cells that agree stand at the same spot, since a place of the text is known by its bytes; so a link
of the one is in order below the other as well. Merging changes nothing but links
(`Stack.Relinks`), and a version goes where it was merged into an earlier one.
-/

namespace SusSyntax.Stack

open Grammar

/-- A stack differs from another one in its links alone. -/
def Relinks (s s' : Stack) : Prop :=
  s'.heads = s.heads ∧ ∀ n, (s'.cell n).spot = (s.cell n).spot

variable {text : Text} {good : Nat → Prop} {s s' s'' : Stack} {v w n m : Nat} {l : Link}

theorem Relinks.refl (s : Stack) : s.Relinks s :=
  ⟨rfl, fun _ => rfl⟩

theorem Relinks.trans (h : s.Relinks s') (h' : s'.Relinks s'') : s.Relinks s'' :=
  ⟨h'.1.trans h.1, fun n => (h'.2 n).trans (h.2 n)⟩

theorem Relinks.head_eq (h : s.Relinks s') (v : Nat) : s'.head v = s.head v :=
  head_eq_of_getElem? (by rw [h.1])

theorem Relinks.keeps (h : s.Relinks s') (v : Nat) : s.Keeps s' v := by
  refine .of_head (fun inside => ?_) (fun _ => ?_) fun _ => ?_
  · rwa [count, h.1]
  · rw [h.head_eq]
  · rw [spot, top, h.head_eq, h.2]
    rfl

/-! ### One more link -/

/-- What becomes of the cells when a link is appended to one of them. -/
theorem cell_appendLink (s : Stack) (n : Nat) (l : Link) (m : Nat) :
    ((s.appendLink n l).cell m).spot = (s.cell m).spot ∧
      (((s.appendLink n l).cell m).links = (s.cell m).links ∨
        n = m ∧ ((s.appendLink n l).cell m).links = (s.cell m).links ++ [l]) := by
  rw [appendLink]
  dsimp only
  split
  · exact ⟨rfl, .inl rfl⟩
  · rw [cell, Array.getElem?_setIfInBounds]
    split
    · rename_i same
      subst same
      split
      · exact ⟨rfl, .inr ⟨rfl, rfl⟩⟩
      · rename_i outside
        rw [cell, Array.getElem?_eq_none (Nat.le_of_not_lt outside)]
        exact ⟨rfl, .inl rfl⟩
    · exact ⟨rfl, .inl rfl⟩

theorem relinks_appendLink (s : Stack) (n : Nat) (l : Link) : s.Relinks (s.appendLink n l) := by
  refine ⟨?_, fun m => (cell_appendLink s n l m).1⟩
  rw [appendLink]
  dsimp only
  split <;> rfl

theorem size_appendLink (s : Stack) (n : Nat) (l : Link) :
    (s.appendLink n l).cells.size = s.cells.size := by
  rw [appendLink]
  dsimp only
  split
  · rfl
  · exact Array.size_setIfInBounds ..

/-- A link to a good cell below may be appended where it leads. -/
theorem SoundOn.appendLink (sound : s.SoundOn text good) (below : good l.below)
    (leads : Spot.Leads text (s.cell l.below).spot (s.cell n).spot l.tree?) :
    (s.appendLink n l).SoundOn text good := by
  have same : ∀ m, ((s.appendLink n l).cell m).spot = (s.cell m).spot :=
    (relinks_appendLink s n l).2
  have samePos : ∀ m, ((s.appendLink n l).cell m).pos = (s.cell m).pos :=
    fun m => congrArg Spot.pos (same m)
  have sameState : ∀ m, ((s.appendLink n l).cell m).state = (s.cell m).state :=
    fun m => congrArg Spot.state (same m)
  refine ⟨⟨fun known => ?_, fun known => ?_, fun {k} known noLinks => ?_,
    fun {k l'} known mem => ?_⟩, fun mem active => ?_⟩
  · rw [size_appendLink]
    exact sound.bounded known
  · rw [samePos]
    exact sound.place known
  · rw [same]
    rcases (cell_appendLink s n l k).2 with links | ⟨_, links⟩
    · exact sound.ground known (links ▸ noLinks)
    · rw [links] at noLinks
      exact absurd noLinks (by simp)
  · rw [same, same]
    rcases (cell_appendLink s n l k).2 with links | ⟨rfl, links⟩
    · exact sound.link known (links ▸ mem)
    · rw [links] at mem
      rcases List.mem_append.mp mem with mem | mem
      · exact sound.link known mem
      · obtain rfl := List.mem_singleton.mp mem
        exact ⟨below, leads⟩
  · rw [samePos, sameState]
    rw [(relinks_appendLink s n l).1] at mem
    exact sound.fits mem active

/-! ### Links that merge -/

/-- Good cells that agree stand at one spot. -/
theorem SoundOn.spot_eq_of_agreesWith (sound : s.SoundOn text good) (known : good n)
    (known' : good m) (agree : (s.cell n).agreesWith (s.cell m) = true) :
    (s.cell n).spot = (s.cell m).spot := by
  simp only [Cell.agreesWith, Bool.and_eq_true, beq_iff_eq] at agree
  obtain ⟨⟨state, bytes⟩, cost⟩ := agree
  have pos := (sound.place known).unique (sound.place known') bytes
  rw [Cell.spot, Cell.spot, state, pos, cost]

/-- A link is merged into one of the cells below, which agrees with the one that it leads to. -/
theorem joining_mergesInto (h : s.joining n l = .mergesInto m) :
    ∃ old ∈ (s.cell n).links, old.below = m ∧
      (s.cell old.below).agreesWith (s.cell l.below) = true := by
  rw [joining] at h
  split at h
  · cases h
  · dsimp only at h
    generalize same : List.findSome? _ (s.cell n).links = known at h
    cases known with
    | none => cases h
    | some joining =>
      obtain rfl : joining = .mergesInto m := h
      obtain ⟨old, mem, found⟩ := List.exists_of_findSome?_eq_some same
      refine ⟨old, mem, ?_⟩
      split at found
      · cases found
      · split at found
        · cases found
        · split at found
          · rename_i agree
            cases found
            exact ⟨rfl, agree⟩
          · cases found

/-- Links that may be added one by one may be added in turn: none of them moves a cell. -/
theorem foldl_links (add : Stack → Link → Stack) {n : Nat}
    (one : ∀ {s : Stack} {l : Link}, s.SoundOn text good → good l.below →
      Spot.Leads text (s.cell l.below).spot (s.cell n).spot l.tree? →
      (add s l).SoundOn text good ∧ s.Relinks (add s l))
    (sound : s.SoundOn text good) {links : List Link}
    (leads : ∀ l ∈ links, good l.below ∧
      Spot.Leads text (s.cell l.below).spot (s.cell n).spot l.tree?) :
    (links.foldl add s).SoundOn text good ∧ s.Relinks (links.foldl add s) := by
  induction links generalizing s with
  | nil => exact ⟨sound, .refl s⟩
  | cons l rest ih =>
    obtain ⟨below, leadsTo⟩ := leads l List.mem_cons_self
    obtain ⟨sound', relinks⟩ := one sound below leadsTo
    obtain ⟨sound'', relinks'⟩ := ih sound' fun l' mem => by
      rw [relinks.2, relinks.2]
      exact leads l' (List.mem_cons_of_mem _ mem)
    exact ⟨sound'', relinks.trans relinks'⟩

/-- Adding a link where it leads keeps a stack sound, however deep it is merged. -/
theorem SoundOn.addLink (fuel : Nat) (sound : s.SoundOn text good) (known : good n)
    (below : good l.below)
    (leads : Spot.Leads text (s.cell l.below).spot (s.cell n).spot l.tree?) :
    (addLink fuel s n l).SoundOn text good ∧ s.Relinks (addLink fuel s n l) := by
  induction fuel generalizing s n l with
  | zero => exact ⟨sound, .refl s⟩
  | succ fuel ih =>
    rw [Stack.addLink]
    split
    · exact ⟨sound, .refl s⟩
    · rename_i m merges
      obtain ⟨old, mem, rfl, agree⟩ := joining_mergesInto merges
      have known' := (sound.link known mem).1
      -- the cells agree, so the links of the one lead to the other as well
      refine foldl_links _ (fun sound => ih sound known') sound fun l' mem' => ?_
      rw [sound.spot_eq_of_agreesWith known' below agree]
      exact sound.link below mem'
    · exact ⟨sound.appendLink below leads, relinks_appendLink s n l⟩

/-! ### Versions that merge -/

theorem isAt_of_canMerge (h : s.canMerge v w = true) :
    s.IsAt v (s.spot v) ∧ s.IsAt w (s.spot w) ∧ (s.top v).agreesWith (s.top w) = true := by
  simp only [canMerge, Bool.and_eq_true] at h
  exact ⟨isAt_of_isActive h.1.1, isAt_of_isActive h.1.2, h.2⟩

/-- A version may be merged into another one; the others stay. -/
theorem Sound.join (sound : s.Sound text) (h : s.canMerge v w = true) :
    (s.join v w).Sound text ∧ s.Drops (s.join v w) w := by
  obtain ⟨good, sound⟩ := sound
  obtain ⟨here, there, agree⟩ := isAt_of_canMerge h
  have known := sound.good_of_isAt here
  have known' := sound.good_of_isAt there
  have leads : ∀ l ∈ (s.top w).links, good l.below ∧
      Spot.Leads text (s.cell l.below).spot (s.cell (s.head v).cell).spot l.tree? := by
    intro l mem
    rw [sound.spot_eq_of_agreesWith known known' agree]
    exact sound.link known' mem
  rw [Stack.join]
  dsimp only
  generalize (s.head v).cell = n at known leads
  obtain ⟨sound', relinks⟩ := foldl_links (fun s l => addLink (s.cells.size + 1) s n l)
    (fun sound => sound.addLink _ known) sound leads
  generalize (s.top w).links.foldl (fun s l => addLink (s.cells.size + 1) s n l) s = linked at *
  have marked : ∃ s', s' = (if linked.state v = errorState then
        linked.modifyHead v fun h => { h with mark := (linked.top v).progress }
      else linked) ∧ s'.Sound text ∧ (∀ u, linked.Keeps s' u) ∧ s'.count = linked.count := by
    split
    · refine ⟨_, rfl, Sound.modifyHead ⟨good, sound'⟩ (fun _ => rfl) fun _ => rfl, fun u => ?_,
        count_modifyHead ..⟩
      apply keeps_modifyHead
      · exact fun _ => rfl
      · exact fun _ => rfl
    · exact ⟨_, rfl, ⟨good, sound'⟩, fun u => .refl _ u, rfl⟩
  obtain ⟨s', same, sound'', keeps, sameCount⟩ := marked
  rw [← same]
  have keeps' : ∀ u, s.Keeps s' u := fun u => (relinks.keeps u).trans (keeps u)
  have drops := drops_remove ((keeps' w).isAt there).lt_count
  have sameCount' : s'.count = s.count := by
    rw [sameCount, count, relinks.1]
    rfl
  refine ⟨sound''.remove w, fun u before => (keeps' u).trans (drops.keeps u before),
    fun u b le => (drops.shifts u b le).trans ?_, drops.count.trans sameCount'⟩
  rcases Nat.lt_or_ge (u + 1) s.count with inside | outside
  · exact (keeps' (u + 1)).isAt_iff inside b
  · exact iff_of_false (not_isAt_of_count_le (sameCount' ▸ outside)) (not_isAt_of_count_le outside)

theorem Sound.merge? (sound : s.Sound text) (h : s.merge? v w = some s') :
    s'.Sound text ∧ s.Drops s' w := by
  rw [Stack.merge?] at h
  split at h
  · rename_i can
    obtain rfl := Option.some.inj h
    exact sound.join can
  · cases h

theorem Sound.mergeInto? {candidates : List Nat} (sound : s.Sound text)
    (h : s.mergeInto? candidates w = some s') :
    s'.Sound text ∧ s.Drops s' w ∧ ∃ v ∈ candidates, s.canMerge v w = true := by
  rw [Stack.mergeInto?, Option.map_eq_some_iff] at h
  obtain ⟨v, found, rfl⟩ := h
  have can := List.find?_some found
  obtain ⟨sound', drops⟩ := sound.join can
  exact ⟨sound', drops, v, List.mem_of_find?_eq_some found, can⟩

end SusSyntax.Stack
