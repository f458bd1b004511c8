import SusSyntax.Proofs.Stack.Sound
import SusSyntax.Stack.Walk

/-!
What can be taken off a sound stack.

A walker that comes down from a good cell has passed trees that have grown between where it is and
where it set out, and they lead from the one state to the other (`Spot.Way`). Whatever is taken off
a version comes as versions of its own, one after another, each with such ways (`Stack.Offers`).
-/

namespace SusSyntax

open Grammar

/-! ### Ways -/

namespace Spot

/-- A way from the spot `a` to the spot `b`: the trees have grown there one after another and, unless
they end in an error, lead from the one state to the other, and `count` of them are no extras. There
may be one gap among them, but none if they begin in an error. -/
structure Way (text : Text) (a : Spot) (trees : List Tree) (count : Nat) (b : Spot) : Prop where
  grown : Tree.GrownOf text a.pos trees
  pos : b.pos = a.pos + Tree.extentOf trees
  cost : b.cost = a.cost + Tree.sumOver Tree.cost trees
  inside : b.state ≠ errorState →
    b.state = Tree.follow a.state trees ∧ count = (Tree.insiders trees).length
  outside : a.state = errorState → count = (Tree.insiders trees).length
  count_le : count ≤ (Tree.insiders trees).length + 1

variable {text : Text} {a b c : Spot} {trees : List Tree} {count : Nat}

theorem Way.refl (text : Text) (b : Spot) : Way text b [] 0 b :=
  ⟨trivial, by simp, rfl, fun _ => ⟨rfl, rfl⟩, fun _ => rfl, Nat.zero_le _⟩

/-- A way may be extended downwards by a tree. -/
theorem Way.cons {t : Tree} (leads : Leads text a b (some t)) (way : Way text b trees count c) :
    Way text a (t :: trees) (if t.isExtra then count else count + 1) c := by
  obtain ⟨grown, _, rfl⟩ := leads
  have one : (Tree.insiders (t :: trees)).length =
      if t.isExtra then (Tree.insiders trees).length else (Tree.insiders trees).length + 1 := by
    cases extra : t.isExtra with
    | true => rw [Tree.insiders_cons_of_extra extra, if_pos rfl]
    | false => rw [Tree.insiders_cons_of_not_extra extra, if_neg Bool.false_ne_true]; rfl
  refine ⟨Tree.grownOf_cons.mpr ⟨grown, way.grown⟩, ?_, ?_, fun sound => ?_, fun error => ?_, ?_⟩
  · rw [way.pos, Tree.extentOf_cons, Extent.add_assoc]
  · rw [way.cost, Tree.sumOver, Nat.add_assoc]
  · obtain ⟨state, same⟩ := way.inside sound
    exact ⟨state, by rw [one, same]⟩
  · rw [one, way.outside (by rw [error, Tree.stateBehind_errorState])]
  · have := way.count_le
    rw [one]
    split <;> omega

/-- A way may be extended downwards by a gap; then it ends in an error. -/
theorem Way.gap (leads : Leads text a b none) (way : Way text b trees count c) :
    Way text a trees (count + 1) c := by
  obtain ⟨notError, rfl⟩ := leads
  refine ⟨way.grown, way.pos, way.cost, fun sound => ?_, fun error => absurd error notError, ?_⟩
  · obtain ⟨state, _⟩ := way.inside sound
    rw [Tree.follow_errorState] at state
    exact absurd state sound
  · have none := way.outside rfl
    omega

/-- What is taken off as `count` trees: a way on which, unless it ends in an error, no extras come
first. -/
structure Taken (text : Text) (a : Spot) (trees : List Tree) (count : Nat) (b : Spot) : Prop
    extends Way text a trees count b where
  first : b.state ≠ errorState → ∀ t ∈ trees.head?, t.isExtra = false

end Spot

namespace Walker

/-- A walker that has come down from the cell number `n`. -/
inductive From (s : Stack) (n : Nat) : Walker → Prop where
  | start : From s n ⟨n, [], 0⟩
  | follow {w : Walker} {l : Link} :
      From s n w → l ∈ (s.cell w.cell).links → From s n (w.follow l)

/-- From a good cell all walkers go ways that lead back to it. -/
theorem From.way {text : Text} {good : Nat → Prop} {s : Stack} {n : Nat} {w : Walker}
    (grounded : s.Grounded text good) (known : good n) (h : w.From s n) :
    good w.cell ∧ Spot.Way text (s.cell w.cell).spot w.trees w.count (s.cell n).spot := by
  induction h with
  | start => exact ⟨known, .refl ..⟩
  | @follow w l _ mem ih =>
    obtain ⟨isGood, way⟩ := ih
    obtain ⟨below, leads⟩ := grounded.link isGood mem
    rw [Walker.follow]
    cases tree : l.tree? with
    | none =>
      rw [tree] at leads
      exact ⟨below, way.gap leads⟩
    | some t =>
      rw [tree] at leads
      exact ⟨below, way.cons leads⟩

/-- Over a cell with one link the last tree is that of the link. -/
theorem From.over {s : Stack} {n m : Nat} {t : Tree} {w : Walker} (h : w.From s n)
    (links : (s.cell n).links = [⟨m, some t⟩]) :
    w.cell = n ∧ w.trees = [] ∨
      ∃ w' : Walker, w'.From s m ∧ w'.cell = w.cell ∧ w.trees = w'.trees ++ [t] := by
  induction h with
  | start => exact .inl ⟨rfl, rfl⟩
  | @follow w l _ mem ih =>
    refine .inr ?_
    rcases ih with ⟨same, none⟩ | ⟨w', from', same, trees⟩
    · rw [same, links] at mem
      obtain rfl := List.mem_singleton.mp mem
      exact ⟨_, .start, rfl, by rw [Walker.follow, none]; rfl⟩
    · refine ⟨w'.follow l, .follow from' (same ▸ mem), ?_⟩
      rw [Walker.follow, Walker.follow]
      cases l.tree? with
      | none => exact ⟨rfl, trees⟩
      | some u => exact ⟨rfl, by rw [trees]; rfl⟩

end Walker

/-! ### Hauls -/

/-- What holds of all that was brought up from a cell; there is something. -/
def Haul.Brings (Q : Nat → List Tree → Prop) (h : Haul) : Prop :=
  h.hauls ≠ [] ∧ ∀ trees ∈ h.hauls, Q h.cell trees

theorem Haul.brings_add {Q : Nat → List Tree → Prop} {cell : Nat} {trees : List Tree}
    {hauls : List Haul} (old : ∀ h ∈ hauls, h.Brings Q) (new : Q cell trees) :
    ∀ h ∈ Haul.add cell trees hauls, h.Brings Q := by
  induction hauls with
  | nil =>
    intro h mem
    obtain rfl := List.mem_singleton.mp mem
    refine ⟨by simp, fun us mem => ?_⟩
    obtain rfl := List.mem_singleton.mp mem
    exact new
  | cons first rest ih =>
    have oldFirst := old first List.mem_cons_self
    have oldRest := fun h mem => old h (List.mem_cons_of_mem _ mem)
    intro h mem
    rw [Haul.add] at mem
    split at mem
    · rename_i same
      rcases List.mem_cons.mp mem with rfl | mem
      · refine ⟨by simp, fun us mem => ?_⟩
        rcases List.mem_append.mp mem with mem | mem
        · exact same ▸ oldFirst.2 us mem
        · obtain rfl := List.mem_singleton.mp mem
          exact new
      · exact oldRest h mem
    · rcases List.mem_cons.mp mem with rfl | mem
      · exact oldFirst
      · exact ih oldRest h mem

namespace Stack

/-! ### Walking -/

section

variable {σ : Type} {s : Stack} {visit : σ → Walker → σ × Verdict}

/-- What holds of what a visitor knows and of all that was brought up, and of all walkers. -/
structure Walk.Holds (I : σ → List Haul → Prop) (P : σ → Walker → Prop) (walk : Walk σ) : Prop where
  hauls : I walk.known walk.hauls
  walkers : ∀ w ∈ walk.walkers, P walk.known w
  fresh : ∀ w ∈ walk.fresh, P walk.known w

variable {I : σ → List Haul → Prop} {P : σ → Walker → Prop}

theorem stepAll_holds
    (visits : ∀ known hauls w, I known hauls → P known w → I (visit known w).1
      (if (visit known w).2.delivers then Haul.add w.cell w.trees hauls else hauls))
    (stays : ∀ known w u, P known w → P known u → P (visit known w).1 u)
    (goes : ∀ known w l, P known w → (visit known w).2.continues = true →
      l ∈ (s.cell w.cell).links → P (visit known w).1 (w.follow l))
    (walk : Walk σ) (holds : walk.Holds I P) {waiting : List Walker}
    (ready : ∀ w ∈ waiting, P walk.known w) : (s.stepAll visit walk waiting).Holds I P := by
  induction waiting generalizing walk with
  | nil => exact holds
  | cons w waiting ih =>
    have here := ready w List.mem_cons_self
    have hauls := visits walk.known walk.hauls w holds.hauls here
    have stays' := fun u => stays walk.known w u here
    have goes' := fun l => goes walk.known w l here
    have later := fun u mem => stays' u (ready u (List.mem_cons_of_mem _ mem))
    have walkers := fun u mem => stays' u (holds.walkers u mem)
    have fresh := fun u mem => stays' u (holds.fresh u mem)
    rw [stepAll]
    dsimp only
    generalize visit walk.known w = visited at *
    obtain ⟨known, verdict⟩ := visited
    dsimp only at *
    split
    · rename_i first others continues links
      have goes : ∀ l ∈ first :: others, P known (w.follow l) :=
        fun l mem => goes' l continues (links ▸ mem)
      refine ih _ ⟨hauls, fun u mem => ?_, fun u mem => ?_⟩ later
      · rcases List.mem_append.mp mem with mem | mem
        · exact walkers u mem
        · obtain rfl := List.mem_singleton.mp mem
          exact goes first List.mem_cons_self
      · rcases List.mem_append.mp mem with mem | mem
        · exact fresh u mem
        · obtain ⟨l, taken, rfl⟩ := List.mem_map.mp mem
          exact goes l (List.mem_cons_of_mem _ (List.mem_of_mem_take taken))
    · exact ih _ ⟨hauls, walkers, fresh⟩ later

/-- An invariant of a walk: what holds of what is known and brought up, if every visit keeps it, and
of the walkers, if no visit spoils it and it goes on along the links. -/
theorem walkOn_holds
    (visits : ∀ known hauls w, I known hauls → P known w → I (visit known w).1
      (if (visit known w).2.delivers then Haul.add w.cell w.trees hauls else hauls))
    (stays : ∀ known w u, P known w → P known u → P (visit known w).1 u)
    (goes : ∀ known w l, P known w → (visit known w).2.continues = true →
      l ∈ (s.cell w.cell).links → P (visit known w).1 (w.follow l))
    (fuel : Nat) {known : σ} {hauls : List Haul} (start : I known hauls) {walkers : List Walker}
    (ready : ∀ w ∈ walkers, P known w) :
    I (s.walkOn visit fuel known hauls walkers).1 (s.walkOn visit fuel known hauls walkers).2 := by
  induction fuel generalizing known hauls walkers with
  | zero => exact start
  | succ fuel ih =>
    cases walkers with
    | nil => exact start
    | cons w walkers =>
      change I (s.walkOn visit fuel _ _ _).1 (s.walkOn visit fuel _ _ _).2
      have holds := stepAll_holds visits stays goes ⟨known, hauls, [], []⟩
        ⟨start, fun _ mem => absurd mem List.not_mem_nil, fun _ mem => absurd mem List.not_mem_nil⟩
        ready
      refine ih holds.hauls fun u mem => ?_
      rcases List.mem_append.mp mem with mem | mem
      · exact holds.walkers u mem
      · exact holds.fresh u mem

/-- An invariant of the walkers of a walk gives what holds of all that they bring up. -/
theorem walk_brings {v : Nat} {P : Walker → Prop} {Q : Nat → List Tree → Prop}
    (goes : ∀ known w l, P w → (visit known w).2.continues = true →
      l ∈ (s.cell w.cell).links → P (w.follow l))
    (brings : ∀ known w, P w → (visit known w).2.delivers = true → Q w.cell w.trees)
    (start : P ⟨(s.head v).cell, [], 0⟩) (known : σ) :
    ∀ h ∈ (s.walk v known visit).2, h.Brings Q := by
  refine walkOn_holds (I := fun _ hauls => ∀ h ∈ hauls, h.Brings Q) (P := fun _ => P) ?_
    (fun _ _ _ _ known => known) goes _ (fun _ mem => absurd mem List.not_mem_nil) fun w mem => ?_
  · intro known hauls w old here
    split
    · rename_i delivers
      exact Haul.brings_add old (brings known w here delivers)
    · exact old
  · obtain rfl := List.mem_singleton.mp mem
    exact start

/-- What holds of what is known and brought up, if every visit keeps it. -/
theorem walk_keeps {v : Nat} (visits : ∀ known hauls w, I known hauls → I (visit known w).1
      (if (visit known w).2.delivers then Haul.add w.cell w.trees hauls else hauls))
    {known : σ} (start : I known []) :
    I (s.walk v known visit).1 (s.walk v known visit).2 :=
  walkOn_holds (P := fun _ _ => True) (fun known hauls w old _ => visits known hauls w old)
    (fun _ _ _ _ _ => trivial) (fun _ _ _ _ _ _ => trivial) _ start fun _ _ => trivial

/-- A walk that does not end where it begins goes on with walkers behind the links there. -/
theorem exists_walkers {v : Nat} {known : σ}
    (goesOn : (visit known ⟨(s.head v).cell, [], 0⟩).2 = .goOn) :
    ∃ walkers, s.walk v known visit = s.walkOn visit s.cells.size
        (visit known ⟨(s.head v).cell, [], 0⟩).1 [] walkers ∧
      ∀ w ∈ walkers, ∃ l ∈ (s.cell (s.head v).cell).links,
        w = Walker.follow ⟨(s.head v).cell, [], 0⟩ l := by
  change ∃ walkers, s.walkOn visit s.cells.size _ _ _ = _ ∧ _
  rw [stepAll]
  generalize visit known ⟨(s.head v).cell, [], 0⟩ = visited at *
  obtain ⟨known', verdict⟩ := visited
  obtain rfl : verdict = .goOn := goesOn
  generalize (s.cell (s.head v).cell).links = links
  cases links with
  | nil => exact ⟨[], rfl, fun _ mem => absurd mem List.not_mem_nil⟩
  | cons first others =>
    refine ⟨(first :: others.take (Walker.limit - 1)).map _, rfl, fun w mem => ?_⟩
    obtain ⟨l, taken, rfl⟩ := List.mem_map.mp mem
    rcases List.mem_cons.mp taken with rfl | taken
    · exact ⟨_, List.mem_cons_self, rfl⟩
    · exact ⟨l, List.mem_cons_of_mem _ (List.mem_of_mem_take taken), rfl⟩

end

/-! ### Slices -/

variable {text : Text} {good : Nat → Prop} {s s' : Stack} {v k n removed : Nat} {b : Spot}
  {Q : Spot → List Tree → Prop}

/-- Slices for the versions from `n` on, where `removed` earlier ones are gone since they were made:
each version is pursued, and each way of its slice is what it should be over its spot. -/
def Offers (Q : Spot → List Tree → Prop) (s : Stack) (removed : Nat) : Nat → List Slice → Prop
  | _, [] => True
  | n, slice :: rest =>
    slice.version = n + removed ∧
      (∃ a, s.IsAt n a ∧ slice.ways ≠ [] ∧ ∀ trees ∈ slice.ways, Q a trees) ∧
      Offers Q s removed (n + 1) rest

/-- Each way of each slice is what it should be. -/
theorem Offers.ways {slices : List Slice} (h : Offers Q s removed n slices) {slice : Slice}
    (mem : slice ∈ slices) {trees : List Tree} (way : trees ∈ slice.ways) : ∃ a, Q a trees := by
  induction slices generalizing n with
  | nil => cases mem
  | cons first rest ih =>
    obtain ⟨_, ⟨a, _, _, ways⟩, later⟩ := h
    rcases List.mem_cons.mp mem with rfl | mem
    · exact ⟨a, ways trees way⟩
    · exact ih later mem

theorem Offers.keeps {slices : List Slice} (h : Offers Q s removed n slices)
    (keeps : ∀ u, n ≤ u → s.Keeps s' u) : Offers Q s' removed n slices := by
  induction slices generalizing n with
  | nil => trivial
  | cons slice rest ih =>
    obtain ⟨version, ⟨a, here, ways⟩, later⟩ := h
    refine ⟨version, ⟨a, (keeps n (Nat.le_refl n)).isAt here, ways⟩, ih later fun u le => ?_⟩
    exact keeps u (Nat.le_of_succ_le le)

/-- When a version is gone, those behind it are offered one number lower. -/
theorem Offers.drops {slices : List Slice} {w : Nat} (h : Offers Q s removed (n + 1) slices)
    (drops : s.Drops s' w) (le : w ≤ n) : Offers Q s' (removed + 1) n slices := by
  induction slices generalizing n with
  | nil => trivial
  | cons slice rest ih =>
    obtain ⟨version, ⟨a, here, ways⟩, later⟩ := h
    refine ⟨?_, ⟨a, (drops.shifts n a le).mpr here, ways⟩, ih later (Nat.le_succ_of_le le)⟩
    rw [version, Nat.add_right_comm, Nat.add_assoc]

/-- What comes of taking trees off: new versions behind the others, which are offered. -/
structure Pops (text : Text) (good : Nat → Prop) (Q : Spot → List Tree → Prop) (s : Stack)
    (result : Stack × List Slice) : Prop where
  cells : result.1.cells = s.cells
  heads : ∃ new, result.1.heads = s.heads ++ new ∧ ∀ h ∈ new, h.Fits text s good
  offers : Offers Q result.1 0 s.count result.2
  count : result.1.count = s.count + result.2.length

section

variable {result : Stack × List Slice}

theorem Pops.eq_append (pops : Pops text good Q s result) :
    ∃ new, result.1 = ⟨s.cells, s.heads ++ new⟩ ∧ ∀ h ∈ new, h.Fits text s good := by
  obtain ⟨new, heads, fits⟩ := pops.heads
  exact ⟨new, by rw [← pops.cells, ← heads], fits⟩

theorem Pops.sound (pops : Pops text good Q s result) (sound : s.SoundOn text good) :
    result.1.SoundOn text good := by
  obtain ⟨new, same, fits⟩ := pops.eq_append
  rw [same]
  exact sound.append fits

theorem Pops.keeps (pops : Pops text good Q s result) (u : Nat) : s.Keeps result.1 u := by
  obtain ⟨new, same, _⟩ := pops.eq_append
  rw [same]
  exact keeps_append s new u

/-- Without the version that was made, if there is only one, the stack is as it was. -/
theorem Pops.remove_head (pops : Pops text good Q s result) (lone : result.2.length ≤ 1) :
    (result.2.head?.elim result.1 fun slice => result.1.remove slice.version) = s := by
  obtain ⟨new, same, _⟩ := pops.eq_append
  obtain ⟨popped, slices⟩ := result
  obtain rfl : popped = _ := same
  have count : s.heads.length + new.length = s.heads.length + slices.length :=
    List.length_append.symm.trans pops.count
  cases slices with
  | nil =>
    obtain rfl : new = [] := List.length_eq_zero_iff.mp (Nat.add_left_cancel count)
    rw [List.append_nil]
    rfl
  | cons slice rest =>
    obtain rfl : rest = [] :=
      List.length_eq_zero_iff.mp (Nat.le_zero.mp (Nat.le_of_succ_le_succ lone))
    obtain ⟨h, rfl⟩ := List.length_eq_one_iff.mp (Nat.add_left_cancel count)
    have version : slice.version = s.heads.length := pops.offers.1
    rw [List.head?_cons, Option.elim_some, version, Stack.remove,
      List.eraseIdx_append_of_length_le (Nat.le_refl _), Nat.sub_self]
    exact congrArg _ (List.append_nil _)

end

/-- Hauls from good cells become versions that offer them. -/
theorem pops_addHauls {hauls : List Haul}
    (brings : ∀ h ∈ hauls, h.Brings fun cell trees => good cell ∧ Q (s.cell cell).spot trees) :
    Pops text good Q s (s.addHauls v hauls) := by
  -- the versions made so far stay where they are when the next ones are added
  suffices goal : ∀ (s' : Stack) (slices : List Slice), s'.cells = s.cells →
      ∃ new more, hauls.foldl
          (fun made h => (made.1.addVersion v h.cell, made.2 ++ [⟨made.1.count, h.hauls⟩]))
          (s', slices) = (⟨s'.cells, s'.heads ++ new⟩, slices ++ more) ∧
        (∀ h ∈ new, h.Fits text s good) ∧ new.length = more.length ∧
        Offers Q ⟨s'.cells, s'.heads ++ new⟩ 0 s'.count more by
    obtain ⟨new, more, same, fits, length, offers⟩ := goal s [] rfl
    rw [List.nil_append] at same
    rw [addHauls, same]
    exact ⟨rfl, ⟨new, rfl, fits⟩, offers, by rw [count, count, List.length_append, length]⟩
  induction hauls with
  | nil => exact fun s' slices _ => ⟨[], [], by simp, by simp, rfl, trivial⟩
  | cons h rest ih =>
    intro s' slices cells
    obtain ⟨some, ways⟩ := brings h List.mem_cons_self
    obtain ⟨trees, mem⟩ := List.exists_mem_of_ne_nil _ some
    have isGood := (ways trees mem).1
    obtain ⟨new, more, same, fits, length, offers⟩ :=
      ih (fun h' mem => brings h' (List.mem_cons_of_mem _ mem)) (s'.addVersion v h.cell)
        (slices ++ [⟨s'.count, h.hauls⟩]) cells
    rw [List.foldl_cons, same]
    refine ⟨⟨h.cell, (s'.head v).mark, [], .active⟩ :: new, ⟨s'.count, h.hauls⟩ :: more,
      by simp [addVersion], fun h' mem => ?_, by simp [length], rfl,
      ⟨(s.cell h.cell).spot, ?_, some, fun us mem => (ways us mem).2⟩, ?_⟩
    · rcases List.mem_cons.mp mem with rfl | mem
      · exact fun _ => ⟨isGood, fun x waits => by cases waits⟩
      · exact fits h' mem
    · have added : head ⟨s'.cells, s'.heads ++ ⟨h.cell, (s'.head v).mark, [], .active⟩ :: new⟩
          s'.count = ⟨h.cell, (s'.head v).mark, [], .active⟩ := by
        rw [head, count, List.getElem?_append_right (Nat.le_refl _), Nat.sub_self]
        rfl
      rw [IsAt, spot, top, added]
      exact ⟨rfl, by rw [cell, cells]; rfl⟩
    · have count : (s'.addVersion v h.cell).count = s'.count + 1 := List.length_append
      rw [count] at offers
      simpa [addVersion] using offers

theorem length_addHauls (s : Stack) (v : Nat) (hauls : List Haul) :
    (s.addHauls v hauls).2.length = hauls.length := by
  suffices goal : ∀ (s : Stack) (slices : List Slice), (hauls.foldl
      (fun made h => (made.1.addVersion v h.cell, made.2 ++ [⟨made.1.count, h.hauls⟩]))
      (s, slices)).2.length = slices.length + hauls.length by
    rw [addHauls, goal s [], List.length_nil, Nat.zero_add]
  induction hauls with
  | nil => exact fun _ _ => rfl
  | cons h rest ih =>
    intro s slices
    rw [List.foldl_cons, ih, List.length_append, List.length_singleton, List.length_cons,
      Nat.add_assoc, Nat.add_comm 1]

/-! ### Popping -/

/-- What is taken off a version are ways to where it stands. -/
theorem SoundOn.pop (sound : s.SoundOn text good) (here : s.IsAt v b) (k : Nat) :
    Pops text good (fun a trees => Spot.Taken text a trees k b) s (s.pop v k) := by
  have spot : (s.cell (s.head v).cell).spot = b := here.2
  -- A walker stops at once when it has passed enough trees, so the last one it passed was no extra.
  refine pops_addHauls (walk_brings (P := fun w => w.From s (s.head v).cell ∧ (w.count = k →
    b.state ≠ errorState → ∀ t ∈ w.trees.head?, t.isExtra = false)) ?_ ?_ ⟨.start, ?_⟩ ())
  · rintro _ w l ⟨from', _⟩ continues mem
    refine ⟨.follow from' mem, fun enough sound' => ?_⟩
    have short : w.count ≠ k := by
      intro same
      rw [if_pos same] at continues
      cases continues
    obtain ⟨isGood, way⟩ := from'.way sound.toGrounded (sound.good_of_isAt here)
    obtain ⟨_, leads⟩ := sound.toGrounded.link isGood mem
    rw [Walker.follow] at enough ⊢
    cases tree : l.tree? with
    | none =>
      -- Behind a gap a way ends in an error.
      rw [tree] at leads
      obtain ⟨state, _⟩ := way.inside (spot ▸ sound')
      rw [leads.2, Tree.follow_errorState, spot] at state
      exact absurd state sound'
    | some t =>
      simp only [tree] at enough ⊢
      intro u first
      obtain rfl := Option.some.inj first
      rw [← Bool.not_eq_true]
      intro extra
      rw [if_pos extra] at enough
      exact short enough
  · rintro _ w ⟨from', first⟩ delivers
    obtain ⟨isGood, way⟩ := from'.way sound.toGrounded (sound.good_of_isAt here)
    dsimp only at delivers
    split at delivers
    · rename_i same
      rw [spot, same] at way
      exact ⟨isGood, way, first same⟩
    · cases delivers
  · exact fun _ _ _ none => by cases none

/-- All trees that are taken off begin where the parse begins. -/
theorem Grounded.popAll (grounded : s.Grounded text good)
    (brings : ∀ w : Walker, w.From s (s.head v).cell → (s.cell w.cell).links = [] →
      good w.cell ∧ Q .start w.trees) :
    Pops text good Q s (s.popAll v) := by
  refine pops_addHauls (walk_brings (P := Walker.From s (s.head v).cell) ?_ ?_ .start ())
  · exact fun _ w l from' _ mem => .follow from' mem
  · intro _ w from' delivers
    dsimp only at delivers
    split at delivers
    · rename_i noLinks
      have noLinks := List.isEmpty_iff.mp noLinks
      obtain ⟨isGood, holds⟩ := brings w from' noLinks
      rw [(grounded.ground isGood noLinks).2]
      exact ⟨isGood, holds⟩
    · cases delivers

/-- All trees are taken off in one slice, since there is one place where a parse begins. -/
theorem Grounded.length_popAll (grounded : s.Grounded text good)
    (isGood : ∀ w : Walker, w.From s (s.head v).cell → (s.cell w.cell).links = [] → good w.cell) :
    (s.popAll v).2.length ≤ 1 := by
  rw [Stack.popAll, length_addHauls, walk]
  generalize visits : (fun (_ : Unit) (w : Walker) => ((), if (s.cell w.cell).links.isEmpty then
    Verdict.deliver else .goOn)) = visit
  have lone : (s.walkOn visit (s.cells.size + 1) () [] [⟨(s.head v).cell, [], 0⟩]).2 = [] ∨
      ∃ ways, (s.walkOn visit (s.cells.size + 1) () [] [⟨(s.head v).cell, [], 0⟩]).2 =
        [⟨0, ways⟩] := by
    refine walkOn_holds (I := fun _ hauls => hauls = [] ∨ ∃ ways, hauls = [⟨0, ways⟩])
      (P := fun _ w => w.From s (s.head v).cell) ?_ (fun _ _ _ _ from' => from')
      (fun _ w l from' _ mem => .follow from' mem) _ (.inl rfl) fun w mem => ?_
    · intro _ hauls w old from'
      subst visits
      dsimp only
      by_cases noLinks : (s.cell w.cell).links = []
      · have bottom := (grounded.ground (isGood w from' noLinks) noLinks).1
        rw [bottom] at noLinks
        rcases old with rfl | ⟨ways, rfl⟩ <;> simp [bottom, noLinks, Haul.add, Verdict.delivers]
      · simpa [noLinks, Verdict.delivers] using old
    · rw [List.mem_singleton.mp mem]
      exact .start
  rcases lone with none | ⟨ways, one⟩
  · rw [none]
    exact Nat.zero_le 1
  · rw [one]
    exact Nat.le_refl 1

/-- The visitor that takes an error off: the first tree that is met, if it is one. -/
def errorVisitor (found : Bool) (w : Walker) : Bool × Verdict :=
  match w.trees.getLast? with
  | none => (found, .goOn)
  | some t => if !found && t.isError then (true, .deliver) else (found, .stop)

theorem popError_eq (s : Stack) (v : Nat) : s.popError v =
    if hasErrorOnTop (s.top v) then
      match (s.walk v false errorVisitor).2 with
      | [] => (s, none)
      | _ =>
        let (popped, slices) := s.addHauls v (s.walk v false errorVisitor).2
        let slice := slices.headD ⟨v, []⟩
        (popped.replace v slice.version, (slice.ways.headD []).head?)
    else (s, none) :=
  rfl

/-- What is brought up is one tree, which is an error. -/
theorem SoundOn.brings_error (sound : s.SoundOn text good) (here : s.IsAt v b) :
    ∀ h ∈ (s.walk v false errorVisitor).2, h.Brings fun cell trees => good cell ∧
      ∃ t k, trees = [t] ∧ t.isError = true ∧ Spot.Way text (s.cell cell).spot [t] k b := by
  refine walk_brings
    (P := fun w => w.From s (s.head v).cell ∧ (w.trees = [] ∨ ∃ t, w.trees = [t])) ?_ ?_
    ⟨.start, .inl rfl⟩ false
  · rintro _ w l ⟨from', none | ⟨t, one⟩⟩ continues mem
    · refine ⟨.follow from' mem, ?_⟩
      rw [Walker.follow]
      cases l.tree? with
      | none => exact .inl none
      | some t => exact .inr ⟨t, by rw [none]⟩
    · simp only [errorVisitor, one, List.getLast?_singleton] at continues
      split at continues <;> cases continues
  · rintro _ w ⟨from', none | ⟨t, one⟩⟩ delivers
    · simp only [errorVisitor, none, List.getLast?_nil] at delivers
      cases delivers
    · obtain ⟨isGood, way⟩ := from'.way sound.toGrounded (sound.good_of_isAt here)
      have spot : (s.cell (s.head v).cell).spot = b := here.2
      rw [spot, one] at way
      simp only [errorVisitor, one, List.getLast?_singleton] at delivers
      split at delivers
      · rename_i isFirst
        rw [Bool.and_eq_true] at isFirst
        exact ⟨isGood, t, w.count, one, isFirst.2, way⟩
      · cases delivers

/-- Only the first error that is met is brought up. -/
theorem length_errorVisitor (s : Stack) (v : Nat) :
    (s.walk v false errorVisitor).2.length ≤ 1 := by
  refine (walk_keeps (I := fun found hauls => hauls.length ≤ 1 ∧ (found = false → hauls = []))
    (fun found hauls w old => ?_) ⟨Nat.zero_le 1, fun _ => rfl⟩).1
  rw [errorVisitor]
  cases w.trees.getLast? with
  | none => exact old
  | some t =>
    cases found with
    | true => exact old
    | false =>
      obtain rfl := old.2 rfl
      cases isError : t.isError <;> simp [isError, Haul.add, Verdict.delivers]

/-- What is taken off a version is an error, and leads to where the version stood. The other
versions stay. -/
theorem Sound.popError (sound : s.Sound text) (here : s.IsAt v b) :
    (s.popError v).1.Sound text ∧
      (∀ u, u ≠ v → s.Keeps (s.popError v).1 u) ∧
      (s.popError v).1.count = s.count ∧
      (∀ t, (s.popError v).2 = some t → t.isError = true) ∧
      ∃ a k, (s.popError v).1.IsAt v a ∧ Spot.Way text a (s.popError v).2.toList k b := by
  obtain ⟨good, sound⟩ := sound
  have unchanged : s.Sound text ∧ (∀ u, u ≠ v → s.Keeps s u) ∧
      s.count = s.count ∧ (∀ t : Tree, none = some t → t.isError = true) ∧
      ∃ a k, s.IsAt v a ∧ Spot.Way text a [] k b :=
    ⟨⟨good, sound⟩, fun u _ => .refl s u, rfl, nofun, b, 0, here, .refl text b⟩
  rw [popError_eq]
  split
  · have brings := sound.brings_error here
    have lone := length_errorVisitor s v
    generalize (s.walk v false errorVisitor).2 = hauls at *
    split
    · exact unchanged
    · rename_i some
      have one : (s.addHauls v hauls).2.length = 1 := by
        rw [length_addHauls]
        have := List.length_pos_iff.mpr some
        omega
      have pops : Pops text good
          (fun a trees => ∃ t k, trees = [t] ∧ t.isError = true ∧ Spot.Way text a [t] k b) s
          (s.addHauls v hauls) := pops_addHauls brings
      generalize s.addHauls v hauls = result at pops one
      obtain ⟨popped, slices⟩ := result
      have sound' : popped.Sound text := ⟨good, pops.sound sound⟩
      cases slices with
      | nil => cases one
      | cons slice rest =>
        obtain ⟨version, ⟨a, there, some, ways⟩, _⟩ := pops.offers
        obtain ⟨way, ways', same⟩ := List.exists_cons_of_ne_nil some
        obtain ⟨t, k, rfl, isError, way⟩ := ways way (same ▸ List.mem_cons_self)
        dsimp only
        rw [List.headD_cons, version, Nat.add_zero, same]
        have replaces := replaces_replace here.lt_count there
        refine ⟨sound'.replace v s.count,
          fun u ne => .of_lt fun before => (pops.keeps u).trans (replaces.keeps u ne before), ?_,
          fun u same => Option.some.inj same ▸ isError, a, k, replaces.here, way⟩
        exact Nat.succ.inj (replaces.count.trans (pops.count.trans (congrArg (s.count + ·) one)))
  · exact unchanged

end Stack

end SusSyntax
