import SusSyntax.Proofs.Tree.Growth
import SusSyntax.Stack.Merge

/-!
Sound stacks.

A stack is sound (`Stack.Sound`) if some of its cells, among them those of all versions that are not
given up, are good: each link of a good cell leads to a good cell below and carries a tree that has
grown between the two places and leads from the one state to the other (`Spot.Leads`). The cells
that are pushed only to end a reading are not good, and the versions over them are given up.

Cells never change where they stand, so what is known of a version is lost only by what is done to
that version (`Stack.Keeps`). Every operation on the stack is shown here to keep soundness, and to
keep the other versions. What a version costs is known with its spot, and nothing but a pushed tree
adds to it.
-/

namespace SusSyntax

open Grammar Lexical

/-! ### Where cells stand -/

/-- A state at a place of the text, and what it costs to come there. -/
structure Spot where
  state : State
  pos : Extent
  cost : Nat
deriving DecidableEq

/-- Where a cell stands. -/
def Cell.spot (c : Cell) : Spot :=
  ⟨c.state, c.pos, c.cost⟩

/-- Where a parse begins. -/
def Spot.start : Spot :=
  ⟨startState, .zero, 0⟩

/-- What a link may carry from the spot `a` to the spot `b`: a tree that has grown there and leads
from the one state to the other, but not for nothing to the error state; or a gap, which leads to the
error state from any other. -/
def Spot.Leads (text : Text) (a b : Spot) : Option Tree → Prop
  | none => a.state ≠ errorState ∧ b = ⟨errorState, a.pos, a.cost⟩
  | some t => t.Grown text a.pos ∧ (b.state = errorState → 0 < b.cost) ∧
      b = ⟨Tree.stateBehind a.state t, a.pos + t.extent, a.cost + t.cost⟩

theorem Spot.Leads.isPlace {text : Text} {a b : Spot} {tree? : Option Tree}
    (h : Leads text a b tree?) (place : text.IsPlace a.pos) : text.IsPlace b.pos := by
  cases tree? with
  | none =>
    obtain ⟨_, rfl⟩ := h
    exact place
  | some t =>
    obtain ⟨grown, _, rfl⟩ := h
    exact grown.isPlace place

/-- What has to be known of a version that is not given up: its topmost cell is good, and it waits
with a lexeme that can be read where it stands, and not in the error state. -/
def Head.Fits (text : Text) (s : Stack) (good : Nat → Prop) (h : Head) : Prop :=
  h.status.isHalted = false → good h.cell ∧
    ∀ x, h.status.waitingFor? = some x →
      x.IsReadAt text (s.cell h.cell).pos ∧ (s.cell h.cell).state ≠ errorState

namespace Stack

/-- Where a version stands. -/
def spot (s : Stack) (v : Nat) : Spot :=
  (s.top v).spot

/-- A version is pursued at a spot. -/
def IsAt (s : Stack) (v : Nat) (b : Spot) : Prop :=
  (s.head v).status = .active ∧ s.spot v = b

/-- What is known of a version is still so, and nothing else. -/
structure Keeps (s s' : Stack) (v : Nat) : Prop where
  lt_count : v < s.count → v < s'.count
  isAt_iff : v < s.count → ∀ b, s'.IsAt v b ↔ s.IsAt v b

/-- The good cells stand at places of the text; their links lead from good cells to them, and only
where the parse begins there are none. -/
structure Grounded (text : Text) (good : Nat → Prop) (s : Stack) : Prop where
  bounded : ∀ {n}, good n → n < s.cells.size
  place : ∀ {n}, good n → text.IsPlace (s.cell n).pos
  ground : ∀ {n}, good n → (s.cell n).links = [] → n = 0 ∧ (s.cell n).spot = .start
  link : ∀ {n l}, good n → l ∈ (s.cell n).links →
    good l.below ∧ Spot.Leads text (s.cell l.below).spot (s.cell n).spot l.tree?

/-- One version is gone, and what is known of the others is still so. -/
structure Drops (s s' : Stack) (w : Nat) : Prop where
  keeps : ∀ u, u < w → s.Keeps s' u
  shifts : ∀ u b, w ≤ u → (s'.IsAt u b ↔ s.IsAt (u + 1) b)
  count : s'.count + 1 = s.count

/-- A stack is sound with respect to good cells. -/
structure SoundOn (text : Text) (good : Nat → Prop) (s : Stack) : Prop
    extends Grounded text good s where
  fits : ∀ {h}, h ∈ s.heads → h.Fits text s good

/-- A sound stack. -/
def Sound (text : Text) (s : Stack) : Prop :=
  ∃ good, s.SoundOn text good

variable {text : Text} {good : Nat → Prop} {s s' s'' : Stack} {v w : Nat} {b : Spot}

/-! ### Versions by number -/

theorem head_mem (inside : v < s.count) : s.head v ∈ s.heads := by
  rw [head, List.getElem?_eq_getElem inside]
  exact List.getElem_mem inside

theorem head_of_count_le (outside : s.count ≤ v) : s.head v = ⟨0, 0, [], .halted⟩ := by
  rw [head, List.getElem?_eq_none outside]
  rfl

theorem lt_count_of_not_halted (h : (s.head v).status.isHalted = false) : v < s.count := by
  rcases Nat.lt_or_ge v s.count with inside | outside
  · exact inside
  · rw [head_of_count_le outside] at h
    cases h

theorem not_isAt_of_count_le (outside : s.count ≤ v) : ¬ s.IsAt v b := by
  rintro ⟨active, _⟩
  rw [head_of_count_le outside] at active
  cases active

theorem IsAt.not_halted (h : s.IsAt v b) : (s.head v).status.isHalted = false := by
  rw [h.1]
  rfl

theorem IsAt.lt_count (h : s.IsAt v b) : v < s.count :=
  lt_count_of_not_halted h.not_halted

theorem IsAt.pos_eq (h : s.IsAt v b) : s.pos v = b.pos :=
  congrArg Spot.pos h.2

theorem IsAt.state_eq (h : s.IsAt v b) : s.state v = b.state :=
  congrArg Spot.state h.2

theorem Keeps.refl (s : Stack) (v : Nat) : s.Keeps s v :=
  ⟨id, fun _ _ => .rfl⟩

theorem Keeps.trans (h : s.Keeps s' v) (h' : s'.Keeps s'' v) : s.Keeps s'' v :=
  ⟨fun lt => h'.lt_count (h.lt_count lt), fun lt b =>
    (h'.isAt_iff (h.lt_count lt) b).trans (h.isAt_iff lt b)⟩

theorem Keeps.isAt (h : s.Keeps s' v) (here : s.IsAt v b) : s'.IsAt v b :=
  (h.isAt_iff here.lt_count b).mpr here

/-- Nothing is known of a version that is not there. -/
theorem Keeps.of_lt (h : v < s.count → s.Keeps s' v) : s.Keeps s' v :=
  ⟨fun inside => (h inside).lt_count inside, fun inside => (h inside).isAt_iff inside⟩

/-- A version is kept if it has the same status and, where it is pursued, stands at the same spot. -/
theorem Keeps.of_head (lt : v < s.count → v < s'.count)
    (status : v < s.count → (s'.head v).status = (s.head v).status)
    (spot : (s.head v).status = .active → s'.spot v = s.spot v) : s.Keeps s' v := by
  refine ⟨lt, fun inside b => ?_⟩
  rw [IsAt, IsAt, status inside]
  refine and_congr_right fun active => ?_
  rw [spot active]

theorem isAt_of_isActive (h : s.isActive v = true) : s.IsAt v (s.spot v) := by
  refine ⟨?_, rfl⟩
  rw [isActive] at h
  cases status : (s.head v).status with
  | active => rfl
  | paused x => rw [status] at h; cases h
  | halted => rw [status] at h; cases h

theorem SoundOn.fits_head (sound : s.SoundOn text good) (v : Nat) :
    (s.head v).Fits text s good := by
  by_cases inside : v < s.count
  · exact sound.fits (head_mem inside)
  · rw [head_of_count_le (Nat.le_of_not_lt inside)]
    intro active
    cases active

theorem SoundOn.good_of_isAt (sound : s.SoundOn text good) (h : s.IsAt v b) :
    good (s.head v).cell :=
  (sound.fits_head v h.not_halted).1

theorem SoundOn.place_of_isAt (sound : s.SoundOn text good) (h : s.IsAt v b) :
    text.IsPlace b.pos := by
  have place := sound.place (sound.good_of_isAt h)
  rwa [← h.2]

theorem Sound.place_of_isAt (sound : s.Sound text) (h : s.IsAt v b) : text.IsPlace b.pos := by
  obtain ⟨good, sound⟩ := sound
  exact sound.place_of_isAt h

/-! ### Changes of the versions alone -/

/-- Other versions over the same cells, of which each fits. -/
theorem SoundOn.of_heads (sound : s.SoundOn text good) {heads : List Head}
    (fits : ∀ h ∈ heads, h.Fits text s good) : SoundOn text good ⟨s.cells, heads⟩ :=
  ⟨⟨sound.bounded, sound.place, sound.ground, sound.link⟩, fun mem => fits _ mem⟩

/-- Some of the versions are left out, or stand in another order. -/
theorem SoundOn.of_subset (sound : s.SoundOn text good) {heads : List Head}
    (subset : ∀ h ∈ heads, h ∈ s.heads) : SoundOn text good ⟨s.cells, heads⟩ :=
  sound.of_heads fun h mem => sound.fits (subset h mem)

theorem head_modifyHead (s : Stack) (v : Nat) (f : Head → Head) (u : Nat) :
    (s.modifyHead v f).head u = if v = u ∧ u < s.count then f (s.head u) else s.head u := by
  change ((s.heads.modify v f)[u]?).getD _ = _
  rw [List.getElem?_modify]
  by_cases inside : u < s.count
  · rw [List.getElem?_eq_getElem inside, head, List.getElem?_eq_getElem inside]
    by_cases same : v = u
    · simp [same, inside]
    · simp [same]
  · rw [head_of_count_le (Nat.le_of_not_lt inside),
      List.getElem?_eq_none (Nat.le_of_not_lt inside)]
    simp [inside]

@[simp] theorem count_modifyHead (s : Stack) (v : Nat) (f : Head → Head) :
    (s.modifyHead v f).count = s.count :=
  List.length_modify ..

/-- The other versions stay when one is changed. -/
theorem keeps_modifyHead_of_ne (s : Stack) {f : Head → Head} {u : Nat} (ne : v ≠ u) :
    s.Keeps (s.modifyHead v f) u := by
  have same : (s.modifyHead v f).head u = s.head u := by
    rw [head_modifyHead, if_neg fun both => ne both.1]
  refine .of_head (fun inside => ?_) (fun _ => ?_) fun _ => ?_
  · rwa [count_modifyHead]
  · rw [same]
  · rw [spot, top, same]
    rfl

theorem isAt_of_modifyHead {f : Head → Head} (h : (s.modifyHead v f).IsAt w b) (ne : w ≠ v) :
    s.IsAt w b := by
  have inside : w < s.count := count_modifyHead s v f ▸ h.lt_count
  exact ((keeps_modifyHead_of_ne s (Ne.symm ne)).isAt_iff inside b).mp h

/-- A version that is no longer pursued stands nowhere, and the others stand where they did. -/
theorem isAt_of_inactive {f : Head → Head} (inactive : ∀ h, (f h).status ≠ .active)
    (h : (s.modifyHead v f).IsAt w b) : w ≠ v ∧ s.IsAt w b := by
  have inside : w < s.count := count_modifyHead s v f ▸ h.lt_count
  have ne : w ≠ v := by
    rintro rfl
    have active := h.1
    rw [head_modifyHead, if_pos ⟨rfl, inside⟩] at active
    exact inactive _ active
  exact ⟨ne, isAt_of_modifyHead h ne⟩

theorem isAt_of_halt (h : (s.halt v).IsAt w b) : w ≠ v ∧ s.IsAt w b :=
  isAt_of_inactive (fun _ active => by cases active) h

theorem isAt_of_pause {x : Lexical.Lexeme} (h : (s.pause v x).IsAt w b) : w ≠ v ∧ s.IsAt w b :=
  isAt_of_inactive (fun _ active => by cases active) h

/-- A change of a version that leaves its cell and its status. -/
theorem keeps_modifyHead (s : Stack) {f : Head → Head} (cell : ∀ h, (f h).cell = h.cell)
    (status : ∀ h, (f h).status = h.status) (u : Nat) : s.Keeps (s.modifyHead v f) u := by
  have same : ((s.modifyHead v f).head u).status = (s.head u).status ∧
      ((s.modifyHead v f).head u).cell = (s.head u).cell := by
    rw [head_modifyHead]
    split
    · exact ⟨status _, cell _⟩
    · exact ⟨rfl, rfl⟩
  refine .of_head (fun inside => ?_) (fun _ => same.1) fun _ => ?_
  · rwa [count_modifyHead]
  · rw [spot, top, same.2]
    rfl

theorem SoundOn.modifyHead (sound : s.SoundOn text good) {f : Head → Head}
    (fits : v < s.count → (f (s.head v)).Fits text s good) :
    (s.modifyHead v f).SoundOn text good := by
  refine sound.of_heads fun h mem => ?_
  obtain ⟨u, found⟩ := List.mem_iff_getElem?.mp mem
  have isHead : h = (s.modifyHead v f).head u := by
    rw [head, Stack.modifyHead, found]
    rfl
  rw [isHead, head_modifyHead]
  split
  · rename_i both
    obtain ⟨rfl, inside⟩ := both
    exact fits inside
  · exact sound.fits_head u

theorem Sound.modifyHead (sound : s.Sound text) {f : Head → Head}
    (cell : ∀ h, (f h).cell = h.cell) (status : ∀ h, (f h).status = h.status) :
    (s.modifyHead v f).Sound text := by
  obtain ⟨good, sound⟩ := sound
  refine ⟨good, sound.modifyHead fun _ => ?_⟩
  have fits := sound.fits_head v
  rwa [Head.Fits, ← cell, ← status] at fits

theorem Sound.settle (sound : s.Sound text) (v : Nat) : (s.settle v).Sound text :=
  sound.modifyHead (fun _ => rfl) fun _ => rfl

theorem keeps_settle (s : Stack) (v u : Nat) : s.Keeps (s.settle v) u := by
  refine keeps_modifyHead s ?_ ?_ u
  · exact fun _ => rfl
  · exact fun _ => rfl

theorem Sound.halt (sound : s.Sound text) (v : Nat) : (s.halt v).Sound text := by
  obtain ⟨good, sound⟩ := sound
  exact ⟨good, sound.modifyHead fun _ active => by cases active⟩

/-- A version may wait with a lexeme that can be read where it stands. -/
theorem Sound.pause (sound : s.Sound text) (here : s.IsAt v b) (notError : b.state ≠ errorState)
    {x : Lexeme} (isRead : x.IsReadAt text b.pos) : (s.pause v x).Sound text := by
  obtain ⟨good, sound⟩ := sound
  refine ⟨good, sound.modifyHead fun _ _ => ⟨sound.good_of_isAt here, fun y waits => ?_⟩⟩
  obtain rfl := Option.some.inj waits
  rw [← here.pos_eq] at isRead
  rw [← here.state_eq] at notError
  exact ⟨isRead, notError⟩

/-- A version that waits is pursued again, with the lexeme that it waited with. -/
theorem Sound.resume (sound : s.Sound text) {x : Lexeme} (waits : s.waitingFor? v = some x) :
    (s.resume v).Sound text ∧ (s.resume v).IsAt v (s.spot v) ∧ x.IsReadAt text (s.pos v) ∧
      s.state v ≠ errorState := by
  obtain ⟨good, sound⟩ := sound
  have notHalted : (s.head v).status.isHalted = false := by
    rw [waitingFor?] at waits
    cases status : (s.head v).status with
    | active => rfl
    | paused y => rfl
    | halted => rw [status] at waits; cases waits
  obtain ⟨isGood, isRead⟩ := sound.fits_head v notHalted
  refine ⟨⟨good, sound.modifyHead fun _ _ => ⟨isGood, fun y waits => by cases waits⟩⟩, ?_,
    isRead x waits⟩
  have inside := lt_count_of_not_halted notHalted
  rw [IsAt, spot, top, Stack.resume, head_modifyHead, if_pos ⟨rfl, inside⟩]
  exact ⟨rfl, rfl⟩

theorem head_remove (s : Stack) (w u : Nat) :
    (s.remove w).head u = if u < w then s.head u else s.head (u + 1) := by
  change ((s.heads.eraseIdx w)[u]?).getD _ = _
  rw [List.getElem?_eraseIdx]
  split <;> rfl

theorem drops_remove (inside : w < s.count) : s.Drops (s.remove w) w := by
  have sameCount : (s.remove w).count + 1 = s.count := by
    rw [count, count, remove, List.length_eraseIdx_of_lt inside]
    exact Nat.sub_add_cancel (Nat.lt_of_le_of_lt (Nat.zero_le w) inside)
  refine ⟨fun u before => ?_, fun u b le => ?_, sameCount⟩
  · have same : (s.remove w).head u = s.head u := by
      rw [head_remove, if_pos before]
    refine .of_head (fun _ => by omega) (fun _ => ?_) fun _ => ?_
    · rw [same]
    · rw [spot, top, same]
      rfl
  · rw [IsAt, spot, top, head_remove, if_neg (Nat.not_lt.mpr le)]
    exact .rfl

/-- A version that is pursued when another one is gone was pursued before. -/
theorem Drops.exists_isAt (drops : s.Drops s' w) {u : Nat} (h : s'.IsAt u b) :
    ∃ u', (u' = u ∧ u < w ∨ u' = u + 1 ∧ w ≤ u) ∧ s.IsAt u' b := by
  have count := drops.count
  have inside := h.lt_count
  rcases Nat.lt_or_ge u w with before | le
  · exact ⟨u, .inl ⟨rfl, before⟩, ((drops.keeps u before).isAt_iff (by omega) b).mp h⟩
  · exact ⟨u + 1, .inr ⟨rfl, le⟩, (drops.shifts u b le).mp h⟩

theorem Sound.remove (sound : s.Sound text) (w : Nat) : (s.remove w).Sound text := by
  obtain ⟨good, sound⟩ := sound
  exact ⟨good, sound.of_subset fun h mem => List.mem_of_mem_eraseIdx mem⟩

theorem Sound.take (sound : s.Sound text) (n : Nat) :
    Sound text ⟨s.cells, s.heads.take n⟩ := by
  obtain ⟨good, sound⟩ := sound
  exact ⟨good, sound.of_subset fun h mem => List.mem_of_mem_take mem⟩

theorem head_eq_of_getElem? {s s' : Stack} {u : Nat} (h : s'.heads[u]? = s.heads[u]?) :
    s'.head u = s.head u := by
  rw [head, head, h]

theorem keeps_take (s : Stack) {n u : Nat} (before : u < n) :
    s.Keeps ⟨s.cells, s.heads.take n⟩ u := by
  have same : head ⟨s.cells, s.heads.take n⟩ u = s.head u :=
    head_eq_of_getElem? (List.getElem?_take_of_lt before)
  refine .of_head (fun inside => ?_) (fun _ => ?_) fun _ => ?_
  · rw [count, List.length_take]
    exact Nat.lt_min.mpr ⟨before, inside⟩
  · rw [same]
  · rw [spot, top, same]
    rfl

theorem head_append (s : Stack) (new : List Head) {u : Nat} (inside : u < s.count) :
    head ⟨s.cells, s.heads ++ new⟩ u = s.head u :=
  head_eq_of_getElem? (List.getElem?_append_left inside)

theorem keeps_append (s : Stack) (new : List Head) (u : Nat) :
    s.Keeps ⟨s.cells, s.heads ++ new⟩ u := by
  refine ⟨fun inside => ?_, fun inside b => ?_⟩
  · rw [count, List.length_append]
    exact Nat.lt_add_right _ inside
  · rw [IsAt, spot, top, head_append s new inside]
    exact .rfl

/-- New versions that fit may be added. -/
theorem SoundOn.append (sound : s.SoundOn text good) {new : List Head}
    (fits : ∀ h ∈ new, h.Fits text s good) :
    SoundOn text good ⟨s.cells, s.heads ++ new⟩ := by
  refine sound.of_heads fun h mem => ?_
  rcases List.mem_append.mp mem with mem | mem
  · exact sound.fits mem
  · exact fits h mem

/-- A copy stands where its model stands. -/
theorem Sound.copy (sound : s.Sound text) (here : s.IsAt v b) :
    (s.copy v).Sound text ∧ (s.copy v).IsAt s.count b := by
  obtain ⟨good, sound⟩ := sound
  have added : (s.copy v).head s.count = { s.head v with passed := [] } := by
    rw [Stack.copy, head, count, List.getElem?_concat_length]
    rfl
  refine ⟨⟨good, sound.append fun h mem => ?_⟩, ?_⟩
  · obtain rfl := List.mem_singleton.mp mem
    exact sound.fits_head v
  · rw [IsAt, spot, top, added]
    exact here

theorem Sound.swap (sound : s.Sound text) (v w : Nat) : (s.swap v w).Sound text := by
  obtain ⟨good, sound⟩ := sound
  refine ⟨good, sound.of_heads fun h mem => ?_⟩
  rcases List.mem_or_eq_of_mem_set mem with mem | rfl
  · rcases List.mem_or_eq_of_mem_set mem with mem | rfl
    · exact sound.fits mem
    · exact sound.fits_head w
  · exact sound.fits_head v

/-- A version has put a later one in its place, which stood at the spot `b`. -/
structure Replaces (s s' : Stack) (v w : Nat) (b : Spot) : Prop where
  here : s'.IsAt v b
  keeps : ∀ u, u ≠ v → u < w → s.Keeps s' u
  shifts : ∀ u c, w ≤ u → (s'.IsAt u c ↔ s.IsAt (u + 1) c)
  count : s'.count + 1 = s.count

theorem Sound.replace (sound : s.Sound text) (v w : Nat) : (s.replace v w).Sound text := by
  obtain ⟨good, sound⟩ := sound
  rw [Stack.replace]
  split
  · exact ⟨good, sound⟩
  · refine ⟨good, sound.of_heads fun h mem => ?_⟩
    rcases List.mem_or_eq_of_mem_set (List.mem_of_mem_eraseIdx mem) with mem | rfl
    · exact sound.fits mem
    · exact sound.fits_head w

/-- The heads after a version was put in the place of one before it. -/
theorem head_replace (before : v < w) (inside : w < s.count) : ∃ passed, ∀ u,
    (s.replace v w).head u = if u = v then { s.head w with passed := passed }
      else if u < w then s.head u else s.head (u + 1) := by
  rw [Stack.replace, if_neg (Nat.ne_of_lt before)]
  refine ⟨if (s.head w).passed.isEmpty then (s.head v).passed else (s.head w).passed, fun u => ?_⟩
  dsimp only
  generalize (if (s.head w).passed.isEmpty then (s.head v).passed else (s.head w).passed) = passed
  rw [head, List.getElem?_eraseIdx]
  by_cases same : u = v
  · subst same
    rw [if_pos before, if_pos rfl, List.getElem?_set_self (Nat.lt_trans before inside)]
    rfl
  · rw [if_neg same]
    split
    · rw [List.getElem?_set_ne (Ne.symm same)]
      rfl
    · rw [List.getElem?_set_ne (by omega)]
      rfl

theorem count_replace (before : v < w) (inside : w < s.count) :
    (s.replace v w).count + 1 = s.count := by
  rw [Stack.replace, if_neg (Nat.ne_of_lt before), count, count,
    List.length_eraseIdx_of_lt (by rw [List.length_set]; exact inside), List.length_set]
  exact Nat.sub_add_cancel (Nat.lt_of_le_of_lt (Nat.zero_le w) inside)

theorem cells_replace (s : Stack) (v w : Nat) : (s.replace v w).cells = s.cells := by
  rw [Stack.replace]
  split <;> rfl

theorem replaces_replace (before : v < w) (there : s.IsAt w b) :
    s.Replaces (s.replace v w) v w b := by
  have inside := there.lt_count
  obtain ⟨passed, found⟩ := head_replace before inside
  have count := count_replace before inside
  have cell : ∀ n, (s.replace v w).cell n = s.cell n := by
    intro n
    rw [Stack.cell, cells_replace, Stack.cell]
  refine ⟨?_, fun u ne lt => ⟨fun _ => by omega, fun _ b' => ?_⟩, fun u c le => ?_, count⟩
  · rw [IsAt, spot, top, found, if_pos rfl, cell]
    exact there
  · rw [IsAt, spot, top, found, if_neg ne, if_pos lt, cell]
    exact .rfl
  · rw [IsAt, spot, top, found, if_neg (by omega), if_neg (Nat.not_lt.mpr le), cell]
    exact .rfl

/-! ### Pushing -/

/-- The cells as they are before a push stay as they are. -/
theorem cell_push {v n : Nat} (s : Stack) (tree? : Option Tree) (state : State)
    (inside : n < s.cells.size) : (s.push v tree? state).cell n = s.cell n := by
  rw [cell, cell, push, Array.getElem?_push_lt inside, Array.getElem?_eq_getElem inside]

theorem cell_push_size (s : Stack) (tree? : Option Tree) (state : State) :
    (s.push v tree? state).cell s.cells.size =
      s.cellOver (s.head v).cell state tree? := by
  rw [cell, push, Array.getElem?_push_size]
  rfl

@[simp] theorem count_push (s : Stack) (v : Nat) (tree? : Option Tree) (state : State) :
    (s.push v tree? state).count = s.count :=
  List.length_modify ..

/-- The head of a version after a push on the version `v`. -/
theorem head_push (s : Stack) (tree? : Option Tree) (state : State) (u : Nat) :
    ∃ mark, (s.push v tree? state).head u =
      if v = u ∧ u < s.count then { s.head u with cell := s.cells.size, mark := mark }
      else s.head u := by
  refine ⟨if tree?.isNone then (s.cellOver (s.head v).cell state tree?).progress
    else (s.head u).mark, ?_⟩
  exact head_modifyHead s v _ u

theorem spot_cellOver {n : Nat} {tree? : Option Tree} (leads : Spot.Leads text (s.cell n).spot b tree?) :
    (s.cellOver n b.state tree?).spot = b := by
  cases tree? with
  | none =>
    obtain ⟨_, rfl⟩ := leads
    rfl
  | some t =>
    obtain ⟨_, _, rfl⟩ := leads
    rfl

theorem links_cellOver (s : Stack) (n : Nat) (state : State) (tree? : Option Tree) :
    (s.cellOver n state tree?).links = [⟨n, tree?⟩] := by
  cases tree? <;> rfl

/-- A push leaves another version as it is, if that stands over a cell. -/
theorem keeps_push_of_lt {u : Nat}
    (inside : (s.head u).status = .active → (s.head u).cell < s.cells.size) (tree? : Option Tree)
    (state : State) (ne : v ≠ u) : s.Keeps (s.push v tree? state) u := by
  obtain ⟨mark, head⟩ := head_push (v := v) s tree? state u
  rw [if_neg fun both => ne both.1] at head
  refine .of_head (fun inside => ?_) (fun _ => ?_) fun active => ?_
  · rwa [count_push]
  · rw [head]
  · rw [spot, top, head, cell_push s tree? state (inside active)]
    rfl

/-- A push leaves the good cells and the other versions as they are. -/
theorem keeps_push (sound : s.SoundOn text good) (tree? : Option Tree) (state : State) {u : Nat}
    (ne : v ≠ u) : s.Keeps (s.push v tree? state) u :=
  keeps_push_of_lt (fun active => sound.bounded (sound.good_of_isAt ⟨active, rfl⟩)) tree? state ne

theorem Sound.keeps_push (sound : s.Sound text) (tree? : Option Tree) (state : State) {u : Nat}
    (ne : v ≠ u) : s.Keeps (s.push v tree? state) u := by
  obtain ⟨good, sound⟩ := sound
  exact Stack.keeps_push sound tree? state ne

theorem Grounded.push (grounded : s.Grounded text good) (tree? : Option Tree) (state : State) :
    (s.push v tree? state).Grounded text good := by
  have old : ∀ {n}, good n → (s.push v tree? state).cell n = s.cell n :=
    fun known => cell_push s tree? state (grounded.bounded known)
  refine ⟨fun known => ?_, fun known => ?_, fun known noLinks => ?_, fun known mem => ?_⟩
  · have := grounded.bounded known
    rw [Stack.push, Array.size_push]
    omega
  · rw [old known]
    exact grounded.place known
  · rw [old known] at noLinks ⊢
    exact grounded.ground known noLinks
  · rw [old known] at mem ⊢
    obtain ⟨below, leads⟩ := grounded.link known mem
    rw [old below]
    exact ⟨below, leads⟩

theorem Grounded.fits_push (grounded : s.Grounded text good) {h : Head}
    (fits : h.Fits text s good) (tree? : Option Tree) (state : State) :
    h.Fits text (s.push v tree? state) good := by
  intro active
  obtain ⟨isGood, isRead⟩ := fits active
  rw [cell_push s tree? state (grounded.bounded isGood)]
  exact ⟨isGood, isRead⟩

/-- What leads from where a version stands may be pushed on it. -/
theorem Sound.push (sound : s.Sound text) {a : Spot} (here : s.IsAt v a) {tree? : Option Tree}
    (leads : Spot.Leads text a b tree?) :
    (s.push v tree? b.state).Sound text ∧ (s.push v tree? b.state).IsAt v b := by
  obtain ⟨good, sound⟩ := sound
  have isGood := sound.good_of_isAt here
  have leads' : Spot.Leads text (s.cell (s.head v).cell).spot b tree? := by
    rw [← here.2] at leads
    exact leads
  have pushed : (s.push v tree? b.state).Grounded text good := sound.toGrounded.push tree? b.state
  have old : (s.push v tree? b.state).cell (s.head v).cell = s.cell (s.head v).cell :=
    cell_push s tree? b.state (sound.bounded isGood)
  have new := cell_push_size (v := v) s tree? b.state
  have newSpot : ((s.push v tree? b.state).cell s.cells.size).spot = b := by
    rw [new, spot_cellOver leads']
  obtain ⟨mark, newHead⟩ := head_push (v := v) s tree? b.state v
  rw [if_pos ⟨rfl, here.lt_count⟩] at newHead
  refine ⟨⟨fun n => good n ∨ n = s.cells.size, ⟨?_, ?_, ?_, ?_⟩, ?_⟩, ?_⟩
  · rintro n (known | rfl)
    · exact pushed.bounded known
    · rw [Stack.push, Array.size_push]
      omega
  · rintro n (known | rfl)
    · exact pushed.place known
    · change text.IsPlace ((s.push v tree? b.state).cell s.cells.size).spot.pos
      rw [newSpot]
      exact leads.isPlace (sound.place_of_isAt here)
  · rintro n (known | rfl) noLinks
    · exact pushed.ground known noLinks
    · rw [new, links_cellOver] at noLinks
      cases noLinks
  · rintro n l (known | rfl) mem
    · obtain ⟨below, leadsTo⟩ := pushed.link known mem
      exact ⟨.inl below, leadsTo⟩
    · rw [newSpot]
      rw [new, links_cellOver] at mem
      obtain rfl := List.mem_singleton.mp mem
      rw [old]
      exact ⟨.inl isGood, leads'⟩
  · intro h mem
    obtain ⟨u, found⟩ := List.mem_iff_getElem?.mp mem
    have isHead : h = (s.push v tree? b.state).head u := by
      rw [head, found]
      rfl
    obtain ⟨mark, head⟩ := head_push (v := v) s tree? b.state u
    rw [isHead, head]
    split
    · rename_i both
      obtain ⟨rfl, _⟩ := both
      intro _
      refine ⟨.inr rfl, fun x waits => ?_⟩
      rw [here.1] at waits
      cases waits
    · intro active
      obtain ⟨known, isRead⟩ := sound.toGrounded.fits_push (sound.fits_head u) tree? b.state active
      exact ⟨.inl known, isRead⟩
  · rw [IsAt, spot, top, newHead]
    exact ⟨here.1, newSpot⟩

/-- Extras may be pushed on a version that is in no error; its state stays. -/
theorem Sound.pushAll (sound : s.Sound text) {a : Spot} (here : s.IsAt v a)
    (notError : a.state ≠ errorState) {trees : List Tree}
    (extras : ∀ t ∈ trees, t.isExtra = true) (grown : Tree.GrownOf text a.pos trees) :
    (s.pushAll v trees a.state).Sound text ∧
      (s.pushAll v trees a.state).IsAt v
        ⟨a.state, a.pos + Tree.extentOf trees, a.cost + Tree.sumOver Tree.cost trees⟩ ∧
      (∀ u, v ≠ u → s.Keeps (s.pushAll v trees a.state) u) ∧
      (s.pushAll v trees a.state).count = s.count := by
  induction trees generalizing s a with
  | nil =>
    refine ⟨sound, ?_, fun u _ => .refl s u, rfl⟩
    rw [Tree.extentOf_nil, Extent.add_zero, Tree.sumOver, Nat.add_zero]
    exact here
  | cons t rest ih =>
    obtain ⟨grown, grownRest⟩ := Tree.grownOf_cons.mp grown
    have stays := Tree.stateBehind_of_extra a.state (extras t List.mem_cons_self)
    have leads : Spot.Leads text a ⟨a.state, a.pos + t.extent, a.cost + t.cost⟩ (some t) :=
      ⟨grown, fun error => absurd error notError, by rw [stays]⟩
    obtain ⟨sound', here'⟩ := sound.push here leads
    obtain ⟨sound'', here'', keeps, count⟩ :=
      ih sound' here' notError (fun u mem => extras u (List.mem_cons_of_mem _ mem)) grownRest
    refine ⟨sound'', ?_, fun u ne => (sound.keeps_push _ _ ne).trans (keeps u ne), ?_⟩
    · rw [Extent.add_assoc, Nat.add_assoc] at here''
      exact here''
    · exact count.trans (count_push ..)

end Stack

end SusSyntax
