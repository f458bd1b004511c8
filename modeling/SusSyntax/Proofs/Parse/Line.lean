import SusSyntax.Proofs.Parse.Succeeds

/-!
Versions that stand over a line of cells.

Where there is one way only from a cell down to another one (`Stack.Line`), the trees on it are the
frames of a single stack. Taking trees off such a version (`Line.pop_eq`), putting a node in the
place of its children (`Stands.exists_reduce`) and pushing a lexeme (`Stands.push`) do to the line
what they do to the single stack. Nothing that is pushed changes the lines there are (`Extends`).
-/

namespace SusSyntax

open Grammar Lexical Plain

namespace Plain

/-- The state on top of frames that stand over a state. -/
def stateOver (base : State) : List Frame → State
  | [] => base
  | f :: _ => f.state

theorem topState_append_eq (frames rest : List Frame) :
    topState (frames ++ rest) = stateOver (topState rest) frames := by
  cases frames <;> rfl

theorem Carries.stateOver_eq {base s : State} {frames : List Frame} {below : List State}
    (h : Carries base frames (s :: below)) : stateOver base frames = s := by
  cases h <;> rfl

theorem stateOver_pushTrees (base target : State) (frames : List Frame) (t : Tree)
    (ts : List Tree) : stateOver base (pushTrees target frames (t :: ts)) = target := by
  induction ts generalizing frames t with
  | nil => rfl
  | cons u ts ih => exact ih (⟨t, target⟩ :: frames) u

/-- Behind a reduction there is the state that the rule leads to. -/
@[simp] theorem stateOver_putNode (base : State) (rule : Rule) (layout : Nat) (trees : List Tree)
    (target : State) (frames : List Frame) :
    stateOver base (putNode rule layout trees target frames) = target :=
  stateOver_pushTrees ..

end Plain

/-- The walker that has come over some frames to a cell. -/
def Walker.behind (frames : List Frame) (cell : Nat) : Walker :=
  ⟨cell, (frames.map Frame.tree).reverse, insideCount frames⟩

namespace Stack

/-- All cells of a stack are cells of another one. -/
structure Extends (s s' : Stack) : Prop where
  size_le : s.cells.size ≤ s'.cells.size
  cell_eq : ∀ n < s.cells.size, s'.cell n = s.cell n

/-- From the cell `n` there is one way only down to the cell `base`, and it carries these frames. -/
inductive Line (s : Stack) (base : Nat) : Nat → List Frame → Prop where
  | start : Line s base base []
  | upon {m n : Nat} {frames : List Frame} {f : Frame} :
      Line s base m frames → m < n → n < s.cells.size →
      s.cell n = s.cellOver m f.state (some f.tree) → Line s base n (f :: frames)

variable {s s' s'' : Stack} {base m n v : Nat} {frames left taken : List Frame} {f : Frame}

theorem Extends.refl (s : Stack) : s.Extends s :=
  ⟨Nat.le_refl _, fun _ _ => rfl⟩

theorem Extends.trans (h : s.Extends s') (h' : s'.Extends s'') : s.Extends s'' :=
  ⟨Nat.le_trans h.size_le h'.size_le, fun n inside =>
    (h'.cell_eq n (Nat.lt_of_lt_of_le inside h.size_le)).trans (h.cell_eq n inside)⟩

theorem Extends.of_cells (same : s'.cells = s.cells) : s.Extends s' :=
  ⟨same ▸ Nat.le_refl _, fun n _ => by rw [cell, cell, same]⟩

theorem extends_push (s : Stack) (v : Nat) (tree? : Option Tree) (state : State) :
    s.Extends (s.push v tree? state) :=
  ⟨by rw [push, Array.size_push]; exact Nat.le_succ _, fun _ => cell_push s tree? state⟩

namespace Line

theorem le (h : s.Line base n frames) : base + frames.length ≤ n := by
  induction h with
  | start => exact Nat.le_refl _
  | upon _ lt _ _ ih =>
    rw [List.length_cons]
    omega

/-- A line depends only on cells that stand no further in the text. -/
theorem congr (h : s.Line base n frames) (size : s.cells.size ≤ s'.cells.size)
    (same : ∀ k, (s.cell k).pos.bytes ≤ (s.cell n).pos.bytes → s'.cell k = s.cell k) :
    s'.Line base n frames := by
  induction h with
  | start => exact .start
  | @upon m n _ f _ lt inside here ih =>
    have before : (s.cell m).pos.bytes ≤ (s.cell n).pos.bytes := by
      rw [here]
      exact Nat.le_add_right ..
    refine .upon (ih fun k le => same k (Nat.le_trans le before)) lt (by omega) ?_
    rw [same n (Nat.le_refl _), here, cellOver, cellOver, same m before]

theorem extend (h : s.Line base n frames) (ext : s.Extends s') : s'.Line base n frames := by
  induction h with
  | start => exact .start
  | @upon m n _ f _ lt inside here ih =>
    refine .upon ih lt (Nat.lt_of_lt_of_le inside ext.size_le) ?_
    rw [ext.cell_eq n inside, here, cellOver, cellOver, ext.cell_eq m (by omega)]

/-- A line over a line is a line. -/
theorem append (h : s.Line m n taken) (below : s.Line base m left) :
    s.Line base n (taken ++ left) := by
  induction h with
  | start => exact below
  | upon _ lt inside here ih => exact .upon ih lt inside here

theorem split (h : s.Line base n (taken ++ left)) :
    ∃ m, s.Line m n taken ∧ s.Line base m left := by
  induction taken generalizing n with
  | nil => exact ⟨n, .start, h⟩
  | cons f taken ih =>
    cases h with
    | upon below lt inside here =>
      obtain ⟨m, upper, lower⟩ := ih below
      exact ⟨m, .upon upper lt inside here, lower⟩

theorem state_eq (h : s.Line base n frames) :
    (s.cell n).state = stateOver (s.cell base).state frames := by
  cases h with
  | start => rfl
  | upon _ _ _ here => rw [here]; rfl

theorem pos_eq (h : s.Line base n frames) :
    (s.cell n).pos = (s.cell base).pos + endOf frames := by
  induction h with
  | start => exact (Extent.add_zero _).symm
  | upon _ _ _ here ih =>
    rw [here, cellOver]
    simp [ih, endOf, Extent.add_assoc]

theorem cost_eq (h : s.Line base n frames) (free : ∀ f ∈ frames, f.tree.IsFree) :
    (s.cell n).cost = (s.cell base).cost := by
  induction h with
  | start => rfl
  | upon _ _ _ here ih =>
    obtain ⟨first, rest⟩ := List.forall_mem_cons.mp free
    rw [here, cellOver]
    simp [ih rest, first.1]

theorem length_le (h : s.Line base n frames) : frames.length ≤ s.cells.size := by
  cases h with
  | start => exact Nat.zero_le _
  | upon below lt inside _ =>
    have := below.le
    rw [List.length_cons]
    omega

end Line

/-! ### Walking down a line -/

theorem walkOn_nil {σ : Type} (s : Stack) (visit : σ → Walker → σ × Verdict) (fuel : Nat)
    (known : σ) (hauls : List Haul) : s.walkOn visit fuel known hauls [] = (known, hauls) := by
  cases fuel <;> rfl

theorem walkOn_cons {σ : Type} (s : Stack) (visit : σ → Walker → σ × Verdict) (fuel : Nat)
    (known : σ) (hauls : List Haul) (w : Walker) (walkers : List Walker) :
    s.walkOn visit (fuel + 1) known hauls (w :: walkers) =
      let walk := s.stepAll visit ⟨known, hauls, [], []⟩ (w :: walkers)
      s.walkOn visit fuel walk.known walk.hauls (walk.walkers ++ walk.fresh) :=
  rfl

/-- A visitor that brings up what was collected where it is told to, and goes on elsewhere. -/
def visitor (stop : Walker → Bool) (_ : Unit) (w : Walker) : Unit × Verdict :=
  ((), if stop w then .deliver else .goOn)

variable {stop : Walker → Bool}

/-- A lone walker follows a line to its end, if it is not stopped on the way. -/
theorem Line.walkOn_from (line : s.Line m n frames) (ts : List Tree) (count : Nat)
    (goes : ∀ upper f lower k, frames = upper ++ f :: lower → s.Line m k (f :: lower) →
      stop ⟨k, (upper.map Frame.tree).reverse ++ ts, count + insideCount upper⟩ = false)
    (fuel : Nat) (hauls : List Haul) :
    s.walkOn (visitor stop) (fuel + frames.length) () hauls [⟨n, ts, count⟩] =
      s.walkOn (visitor stop) fuel () hauls
        [⟨m, (frames.map Frame.tree).reverse ++ ts, count + insideCount frames⟩] := by
  induction line generalizing ts count with
  | start => rfl
  | @upon k n frames f line lt inside here ih =>
    have links : (s.cell n).links = [⟨k, some f.tree⟩] := by
      rw [here]
      rfl
    have passes : stop ⟨n, ts, count⟩ = false :=
      goes [] f frames n rfl (.upon line lt inside here)
    have step : s.walkOn (visitor stop) (fuel + (f :: frames).length) () hauls [⟨n, ts, count⟩] =
        s.walkOn (visitor stop) (fuel + frames.length) () hauls
          [⟨k, f.tree :: ts, if f.tree.isExtra then count else count + 1⟩] := by
      rw [List.length_cons, ← Nat.add_assoc, walkOn_cons]
      simp [stepAll, visitor, passes, links, Verdict.delivers, Verdict.continues, Walker.follow]
    rw [step, ih]
    · congr 2
      simp only [insideCount, List.countP_cons, List.map_cons, List.reverse_cons]
      cases extra : f.tree.isExtra with
      | false =>
        simp
        omega
      | true => simp
    · intro upper g lower k' split line'
      have := goes (f :: upper) g lower k' (by rw [split]; rfl) line'
      rw [← this]
      congr 2
      · simp
      · simp only [insideCount, List.countP_cons]
        cases extra : f.tree.isExtra with
        | false =>
          simp
          omega
        | true => simp

/-- The same from where a version stands. -/
theorem Line.walk_eq (line : s.Line m (s.head v).cell frames) (stop : Walker → Bool)
    (goes : ∀ upper f lower k, frames = upper ++ f :: lower → s.Line m k (f :: lower) →
      stop (.behind upper k) = false) :
    s.walk v () (visitor stop) =
      s.walkOn (visitor stop) (s.cells.size - frames.length + 1) () [] [.behind frames m] := by
  have enough : s.cells.size + 1 = s.cells.size - frames.length + 1 + frames.length := by
    have := line.length_le
    omega
  have goes' : ∀ upper f lower k, frames = upper ++ f :: lower → s.Line m k (f :: lower) →
      stop ⟨k, (upper.map Frame.tree).reverse ++ [], 0 + insideCount upper⟩ = false := by
    intro upper f lower k split line'
    rw [List.append_nil, Nat.zero_add]
    exact goes upper f lower k split line'
  rw [walk, enough, line.walkOn_from [] 0 goes', List.append_nil, Nat.zero_add]
  rfl

/-- A walker that is told to brings up what it has collected. -/
theorem walkOn_deliver {w : Walker} (stops : stop w = true) (fuel : Nat) :
    s.walkOn (visitor stop) (fuel + 1) () [] [w] = ((), [⟨w.cell, [w.trees]⟩]) := by
  rw [walkOn_cons]
  simp [stepAll, visitor, stops, Verdict.delivers, Verdict.continues, walkOn_nil, Haul.add]

/-! ### Taking trees off -/

theorem pop_eq_walk (s : Stack) (v k : Nat) :
    s.pop v k = s.addHauls v (s.walk v () (visitor fun w => w.count == k)).2 := by
  have same : (fun (_ : Unit) (w : Walker) =>
      ((), if w.count = k then Verdict.deliver else Verdict.goOn)) =
        visitor fun w => w.count == k := by
    funext _ w
    simp [visitor]
  rw [pop, same]

/-- Taking trees off a line gives one version, with the trees that are taken off a single stack. -/
theorem Line.pop_eq {k : Nat} {trees : List Tree} (line : s.Line base (s.head v).cell frames)
    (popped : Plain.pop k frames = some (trees, left)) :
    ∃ m, s.Line base m left ∧ m ≤ (s.head v).cell ∧
      s.pop v k = (s.addVersion v m, [⟨s.count, [trees]⟩]) := by
  obtain ⟨taken, rfl, rfl, count, before⟩ := pop_spec popped
  obtain ⟨m, upper, lower⟩ := line.split
  have walks := upper.walk_eq (fun w => w.count == k)
    fun above f below k' split _ => beq_false_of_ne (Nat.ne_of_lt (before above f below split))
  refine ⟨m, lower, Nat.le_of_add_right_le upper.le, ?_⟩
  rw [pop_eq_walk, walks, walkOn_deliver (by simp [Walker.behind, count])]
  rfl

@[simp] theorem count_addVersion (s : Stack) (v n : Nat) :
    (s.addVersion v n).count = s.count + 1 := by
  simp [count, addVersion]

theorem walkOn_both {stop : Walker → Bool} {w u : Walker} (stops : stop w = true)
    (stops' : stop u = true) (ne : w.cell ≠ u.cell) (fuel : Nat) :
    s.walkOn (visitor stop) (fuel + 1) () [] [w, u] =
      ((), [⟨w.cell, [w.trees]⟩, ⟨u.cell, [u.trees]⟩]) := by
  rw [walkOn_cons]
  simp [stepAll, visitor, stops, stops', Verdict.delivers, Verdict.continues, walkOn_nil,
    Haul.add, ne]

/-- Where a line ends in a cell with two ways down, taking one tree more off gives two versions. -/
theorem Line.pop_fork {a b : Nat} {l : Tree} (line : s.Line base (s.head v).cell frames)
    (within : (s.head v).cell < s.cells.size) (positive : 0 < base)
    (links : (s.cell base).links = [⟨a, some l⟩, ⟨b, some l⟩]) (inside : l.isExtra = false)
    (ne : a ≠ b) :
    s.pop v (insideCount frames + 1) = ((s.addVersion v a).addVersion v b,
      [⟨s.count, [l :: (frames.map Frame.tree).reverse]⟩,
        ⟨s.count + 1, [l :: (frames.map Frame.tree).reverse]⟩]) := by
  have walks := line.walk_eq (fun w => w.count == insideCount frames + 1) <| by
    intro upper f lower k split _
    have : insideCount upper ≤ insideCount frames := by
      rw [split, insideCount, insideCount, List.countP_append]
      omega
    exact beq_false_of_ne (Nat.ne_of_lt (Nat.lt_succ_of_le this))
  obtain ⟨fuel, enough⟩ : ∃ fuel, s.cells.size - frames.length = fuel + 1 := by
    have := line.le
    exact ⟨s.cells.size - frames.length - 1, by omega⟩
  let below (n : Nat) : Walker :=
    ⟨n, l :: (frames.map Frame.tree).reverse, insideCount frames + 1⟩
  have forks : s.walkOn (visitor fun w => w.count == insideCount frames + 1) (fuel + 1 + 1) () []
      [.behind frames base] = s.walkOn (visitor fun w => w.count == insideCount frames + 1)
        (fuel + 1) () [] [below a, below b] := by
    rw [walkOn_cons]
    simp [stepAll, visitor, Walker.behind, links, Verdict.delivers, Verdict.continues,
      Walker.follow, inside, Walker.limit, below]
  rw [pop_eq_walk, walks, enough, forks, walkOn_both (by simp [below]) (by simp [below]) ne]
  simp [addHauls, below]

/-- Taking all trees off a line gives one version at the bottom. -/
theorem Line.popAll_eq (line : s.Line base (s.head v).cell frames)
    (bottom : (s.cell base).links = []) :
    s.popAll v =
      (s.addVersion v base, [⟨s.count, [(frames.map Frame.tree).reverse]⟩]) := by
  have walks := line.walk_eq (fun w => (s.cell w.cell).links.isEmpty) <| by
    intro upper f lower k _ line'
    cases line' with
    | upon _ _ _ here => rw [Walker.behind, here]; rfl
  change s.addHauls v (s.walk v () (visitor fun w => (s.cell w.cell).links.isEmpty)).2 = _
  rw [walks, walkOn_deliver (by rw [Walker.behind, bottom]; rfl)]
  rfl

/-! ### Versions over lines -/

/-- The version `v` is pursued over a line with these frames, down to the cell `base`. -/
structure Stands (s : Stack) (v base : Nat) (frames : List Frame) : Prop where
  active : (s.head v).status = .active
  inside : (s.head v).cell < s.cells.size
  line : s.Line base (s.head v).cell frames

/-- A stack differs from another one in the version `v` alone, and has more cells. -/
structure Alters (v : Nat) (s s' : Stack) : Prop where
  extends' : s.Extends s'
  count_eq : s'.count = s.count
  head_eq : ∀ u, u ≠ v → s'.head u = s.head u

theorem Alters.refl (v : Nat) (s : Stack) : Alters v s s :=
  ⟨.refl s, rfl, fun _ _ => rfl⟩

theorem Alters.trans (h : Alters v s s') (h' : Alters v s' s'') : Alters v s s'' :=
  ⟨h.extends'.trans h'.extends', h'.count_eq.trans h.count_eq, fun u ne =>
    (h'.head_eq u ne).trans (h.head_eq u ne)⟩

namespace Stands

variable {u : Nat} {q : State}

theorem lt_count (h : s.Stands v base frames) : v < s.count :=
  lt_count_of_not_halted (by rw [h.active]; rfl)

theorem within (h : s.Stands v base frames) : base < s.cells.size :=
  Nat.lt_of_le_of_lt (Nat.le_of_add_right_le h.line.le) h.inside

theorem state_eq (h : s.Stands v base frames) :
    s.state v = stateOver (s.cell base).state frames :=
  h.line.state_eq

theorem pos_eq (h : s.Stands v base frames) :
    s.pos v = (s.cell base).pos + endOf frames :=
  h.line.pos_eq

/-- A version stands over the same line wherever it is put. -/
theorem of_head_eq (h : s.Stands v base frames) (ext : s.Extends s')
    (same : s'.head u = s.head v) : s'.Stands u base frames :=
  ⟨same ▸ h.active, same ▸ Nat.lt_of_lt_of_le h.inside ext.size_le, same ▸ h.line.extend ext⟩

theorem alters (h : s.Stands v base frames) (alters : Alters u s s') (ne : v ≠ u) :
    s'.Stands v base frames :=
  h.of_head_eq alters.extends' (alters.head_eq v ne)

/-- A tree that is pushed lies on the line. -/
theorem push (h : s.Stands v base frames) (t : Tree) (q : State) :
    (s.push v (some t) q).Stands v base (⟨t, q⟩ :: frames) ∧ Alters v s (s.push v (some t) q) := by
  have ext := extends_push s v (some t) q
  have size : (s.push v (some t) q).cells.size = s.cells.size + 1 := Array.size_push ..
  obtain ⟨mark, head⟩ := head_push (v := v) s (some t) q v
  rw [if_pos ⟨rfl, h.lt_count⟩] at head
  refine ⟨⟨?_, ?_, ?_⟩, ext, count_push .., fun u ne => ?_⟩
  · rw [head]
    exact h.active
  · rw [head, size]
    exact Nat.lt_succ_self _
  · rw [head]
    refine .upon (h.line.extend ext) h.inside (by rw [size]; exact Nat.lt_succ_self _) ?_
    rw [cell_push_size, cellOver, cellOver, ext.cell_eq _ h.inside]
  · obtain ⟨mark, head⟩ := head_push (v := v) s (some t) q u
    rw [head, if_neg fun both => ne both.1.symm]

theorem pushAll (h : s.Stands v base frames) (ts : List Tree) (q : State) :
    (s.pushAll v ts q).Stands v base (pushTrees q frames ts) ∧ Alters v s (s.pushAll v ts q) := by
  induction ts generalizing s frames with
  | nil => exact ⟨h, .refl v s⟩
  | cons t ts ih =>
    obtain ⟨pushed, alters⟩ := h.push t q
    obtain ⟨stands, alters'⟩ := ih pushed
    exact ⟨stands, alters.trans alters'⟩

end Stands

/-! ### Reductions -/

/-- No version before `w`, but for `v`, could be merged with one in this state at this place. -/
def Apart (s : Stack) (v w : Nat) (state : State) (pos : Extent) : Prop :=
  ∀ u < w, u ≠ v → s.isActive u = true →
    (s.head u).cell < s.cells.size ∧ (s.state u = state → (s.pos u).bytes ≠ pos.bytes)

variable {rule : Rule} {size layout : Nat} {trees : List Tree} {target : State}

theorem mergeInto?_eq_none {w : Nat} (ext : s.Extends s') (same : ∀ u < w, s'.head u = s.head u)
    (apart : s.Apart v w (s'.state w) (s'.pos w)) :
    s'.mergeInto? ((List.range w).filter (· != v)) w = none := by
  rw [mergeInto?, Option.map_eq_none_iff, List.find?_eq_none]
  intro u mem merges
  rw [List.mem_filter, List.mem_range, bne_iff_ne] at mem
  simp only [canMerge, Cell.agreesWith, Bool.and_eq_true, beq_iff_eq] at merges
  obtain ⟨⟨active, _⟩, ⟨states, places⟩, _⟩ := merges
  rw [isActive, same u mem.1] at active
  obtain ⟨within, ne⟩ := apart u mem.1 mem.2 active
  have top : s'.top u = s.top u := by
    rw [Stack.top, Stack.top, same u mem.1, ext.cell_eq _ within]
  rw [top] at states places
  exact ne states places

/-- The node of a rule is put on the version that is left when its children are taken off. -/
theorem Stands.exists_putNode {w : Nat} (h : s.Stands w base left) (layout : Nat)
    (trees : List Tree) (few : w ≤ 10)
    (goto : (stateOver (s.cell base).state left).row.goto? rule = some target)
    (apart : s.Apart v w target
      ((s.cell base).pos + endOf (Plain.putNode rule layout trees target left)))
    (bottom : base < s.cells.size) :
    ∃ s', Stack.putNode v rule layout (s, 0) ⟨w, [trees]⟩ = (s', 0) ∧
      s'.Stands w base (Plain.putNode rule layout trees target left) ∧ Alters w s s' := by
  have next : (s.state w).next (.rule rule) = target := by
    rw [h.state_eq]
    exact (State.next_of_goto? goto).1
  obtain ⟨node, alters⟩ := h.push (.ofChildren (.rule rule layout)
    (Tree.splitTrailingExtras trees).1) target
  obtain ⟨stands, alters'⟩ := node.pushAll (Tree.splitTrailingExtras trees).2 target
  have both := alters.trans alters'
  rw [← pushTrees_cons, ← putNode_eq] at stands
  refine ⟨_, ?_, stands, both⟩
  have alone := mergeInto?_eq_none (v := v) both.extends'
    (fun u lt => both.head_eq u (Nat.ne_of_lt lt)) <| by
      rwa [stands.state_eq, stands.pos_eq, both.extends'.cell_eq base bottom, stateOver_putNode]
  rw [Stack.putNode]
  split
  · rename_i many
    exact absurd few (Nat.not_le.mpr many)
  · dsimp only [Nat.sub_zero, bestReading, List.foldl_nil, Reading.ofTrees]
    rw [next, alone]

/-- A reduction of a version over a line adds a version over the line that comes of it. -/
theorem Stands.exists_reduce (h : s.Stands v base frames) (layout : Nat) (few : s.count ≤ 10)
    (popped : Plain.pop size frames = some (trees, left))
    (goto : (stateOver (s.cell base).state left).row.goto? rule = some target)
    (apart : s.Apart v s.count target (s.pos v)) :
    ∃ s', s.reduce v rule size layout = (s', some s.count) ∧
      s'.Stands s.count base (Plain.putNode rule layout trees target left) ∧ s.Extends s' ∧
      s'.count = s.count + 1 ∧ ∀ u < s.count, s'.head u = s.head u := by
  obtain ⟨m, line, le, pops⟩ := h.line.pop_eq popped
  have ext : s.Extends (s.addVersion v m) := .of_cells rfl
  have old : ∀ u < s.count, (s.addVersion v m).head u = s.head u :=
    fun u before => head_append s _ before
  have new : (s.addVersion v m).head s.count = ⟨m, (s.head v).mark, [], .active⟩ := by
    rw [addVersion, head, count, List.getElem?_concat_length]
    rfl
  have stands : (s.addVersion v m).Stands s.count base left := by
    refine ⟨by rw [new], ?_, ?_⟩
    · rw [new]
      exact Nat.lt_of_le_of_lt le h.inside
    · rw [new]
      exact line.extend ext
  have apart' : (s.addVersion v m).Apart v s.count target
      (((s.addVersion v m).cell base).pos +
        endOf (Plain.putNode rule layout trees target left)) := by
    intro u before ne active
    rw [endOf_putNode popped]
    rw [isActive, old u before] at active
    obtain ⟨within, differs⟩ := apart u before ne active
    rw [old u before]
    rw [h.pos_eq] at differs
    rw [Stack.state, Stack.pos, Stack.top, old u before]
    exact ⟨within, differs⟩
  obtain ⟨s', puts, node, alters⟩ := stands.exists_putNode layout trees few goto apart' h.within
  have count : s'.count = s.count + 1 := alters.count_eq.trans (count_addVersion s v m)
  refine ⟨s', ?_, node, ext.trans alters.extends', count, fun u before => ?_⟩
  · rw [Stack.reduce, pops]
    dsimp only
    rw [List.foldl_cons, puts, List.foldl_nil]
    dsimp only
    rw [count, if_pos (Nat.lt_succ_self _)]
  · rw [alters.head_eq u (Nat.ne_of_lt before), old u before]

/-- The cell `fork` stands over an opening bracket behind two lines, from the cells `a` and `b`. -/
structure Forks (s : Stack) (fork a b : Nat) (l : Tree) (first second : List Frame) : Prop where
  within : fork < s.cells.size
  state_eq : (s.cell fork).state = State.bracket
  pos_eq : (s.cell fork).pos = endOf first + l.extent
  cost_eq : (s.cell fork).cost = 0
  links_eq : (s.cell fork).links = [⟨a, some l⟩, ⟨b, some l⟩]
  inside : l.isExtra = false
  free : l.IsFree
  bottom : s.cell 0 = .bottom
  first : s.Line 0 a first
  second : s.Line 0 b second
  first_lt : a < fork
  second_lt : b < s.cells.size
  ne : a ≠ b

theorem Forks.extend {fork a b : Nat} {l : Tree} {first second : List Frame}
    (h : s.Forks fork a b l first second) (ext : s.Extends s') :
    s'.Forks fork a b l first second where
  within := Nat.lt_of_lt_of_le h.within ext.size_le
  state_eq := by rw [ext.cell_eq fork h.within, h.state_eq]
  pos_eq := by rw [ext.cell_eq fork h.within, h.pos_eq]
  cost_eq := by rw [ext.cell_eq fork h.within, h.cost_eq]
  links_eq := by rw [ext.cell_eq fork h.within, h.links_eq]
  inside := h.inside
  free := h.free
  bottom := by rw [ext.cell_eq 0 (Nat.zero_lt_of_lt h.within), h.bottom]
  first := h.first.extend ext
  second := h.second.extend ext
  first_lt := h.first_lt
  second_lt := Nat.lt_of_lt_of_le h.second_lt ext.size_le
  ne := h.ne

/-- Taking the bracket over a fork off as well gives a version over each of the two lines. -/
theorem Stands.pop_fork {fork a b : Nat} {l : Tree} {first second : List Frame}
    (h : s.Stands 0 fork frames) (alone : s.count = 1)
    (forks : s.Forks fork a b l first second) :
    ∃ s', s.pop 0 (insideCount frames + 1) = (s',
        [⟨1, [l :: (frames.map Frame.tree).reverse]⟩,
          ⟨2, [l :: (frames.map Frame.tree).reverse]⟩]) ∧
      s'.Stands 1 0 first ∧ s'.Stands 2 0 second ∧ s.Extends s' ∧ s'.count = 3 := by
  have pops := h.line.pop_fork h.inside (Nat.zero_lt_of_lt forks.first_lt) forks.links_eq
    forks.inside forks.ne
  rw [alone] at pops
  have ext : s.Extends ((s.addVersion 0 a).addVersion 0 b) := .of_cells rfl
  have length : s.heads.length = 1 := alone
  obtain ⟨mark, mark', heads⟩ : ∃ mark mark', ((s.addVersion 0 a).addVersion 0 b).heads =
      s.heads ++ [⟨a, mark, [], .active⟩, ⟨b, mark', [], .active⟩] :=
    ⟨_, _, by simp [addVersion]; exact ⟨rfl, rfl⟩⟩
  have one : ((s.addVersion 0 a).addVersion 0 b).head 1 = ⟨a, mark, [], .active⟩ := by
    rw [Stack.head, heads, List.getElem?_append_right (by omega), length]
    rfl
  have two : ((s.addVersion 0 a).addVersion 0 b).head 2 = ⟨b, mark', [], .active⟩ := by
    rw [Stack.head, heads, List.getElem?_append_right (by omega), length]
    rfl
  refine ⟨_, pops, ⟨by rw [one], ?_, ?_⟩, ⟨by rw [two], ?_, ?_⟩, ext, ?_⟩
  · rw [one]
    exact Nat.lt_trans forks.first_lt forks.within
  · rw [one]
    exact forks.first.extend ext
  · rw [two]
    exact forks.second_lt
  · rw [two]
    exact forks.second.extend ext
  · rw [count_addVersion, count_addVersion, alone]

/-- A reduction over a fork that takes the bracket off adds a version for each of the two lines. -/
theorem Stands.exists_reduce_fork {fork a b : Nat} {l : Tree} {first second : List Frame}
    {n n' : State} (h : s.Stands 0 fork frames) (layout : Nat) (alone : s.count = 1)
    (forks : s.Forks fork a b l first second)
    (goto : (stateOver startState first).row.goto? rule = some n)
    (goto' : (stateOver startState second).row.goto? rule = some n') (ne : n ≠ n') :
    ∃ s', s.reduce 0 rule (insideCount frames + 1) layout = (s', some 1) ∧
      s'.Stands 1 0 (Plain.putNode rule layout (l :: (frames.map Frame.tree).reverse) n first) ∧
      s'.Stands 2 0 (Plain.putNode rule layout (l :: (frames.map Frame.tree).reverse) n' second) ∧
      s.Extends s' ∧ s'.count = 3 := by
  obtain ⟨s₁, pops, one, two, ext, count⟩ := h.pop_fork alone forks
  generalize l :: (frames.map Frame.tree).reverse = trees at *
  have positive : 0 < s.cells.size := Nat.zero_lt_of_lt h.inside
  have state (s' : Stack) (ext : s.Extends s') : (s'.cell 0).state = startState := by
    rw [ext.cell_eq 0 positive, forks.bottom]
    rfl
  obtain ⟨s₂, puts, node, alters⟩ := one.exists_putNode (v := 0) layout trees
    (by omega) (state s₁ ext ▸ goto) (fun u lt ne => absurd (by omega) ne)
    (Nat.lt_of_lt_of_le positive ext.size_le)
  have ext' := ext.trans alters.extends'
  have apart : s₂.Apart 0 2 n'
      ((s₂.cell 0).pos + endOf (Plain.putNode rule layout trees n' second)) := by
    intro u lt ne' _
    obtain rfl : u = 1 := by omega
    refine ⟨node.inside, fun same => ?_⟩
    rw [node.state_eq, stateOver_putNode] at same
    exact absurd same ne
  obtain ⟨s₃, puts', node', alters'⟩ := (two.alters alters (by omega)).exists_putNode (v := 0)
    layout trees (by omega) (state s₂ ext' ▸ goto') apart
    (Nat.lt_of_lt_of_le positive ext'.size_le)
  have count' : s₃.count = 3 := alters'.count_eq.trans (alters.count_eq.trans count)
  refine ⟨s₃, ?_, node.alters alters' (by omega), node', ext'.trans alters'.extends', count'⟩
  rw [Stack.reduce, pops, alone]
  dsimp only
  rw [List.foldl_cons, puts, List.foldl_cons, puts', List.foldl_nil]
  dsimp only
  rw [count', if_pos (by omega)]

/-! ### Putting versions in place -/

/-- A version takes the place of an earlier one; those behind it move up. -/
theorem Stands.replace {w : Nat} (h : s.Stands w base frames) (before : v < w) :
    (s.replace v w).Stands v base frames ∧ s.Extends (s.replace v w) ∧
      (s.replace v w).count + 1 = s.count ∧
      ∀ u, u ≠ v → (s.replace v w).head u = if u < w then s.head u else s.head (u + 1) := by
  obtain ⟨passed, heads⟩ := head_replace before h.lt_count
  have ext : s.Extends (s.replace v w) := .of_cells (cells_replace s v w)
  have there : (s.replace v w).head v = { s.head w with passed := passed } := by
    rw [heads, if_pos rfl]
  refine ⟨⟨?_, ?_, ?_⟩, ext, count_replace before h.lt_count, fun u ne => ?_⟩
  · rw [there]
    exact h.active
  · rw [there, cells_replace]
    exact h.inside
  · rw [there]
    exact h.line.extend ext
  · rw [heads, if_neg ne]

/-- A version that was added last takes the place of the one that it came of. -/
theorem Stands.replace_last (h : s'.Stands s.count base frames) (before : v < s.count)
    (count : s'.count = s.count + 1) (ext : s.Extends s')
    (same : ∀ u < s.count, s'.head u = s.head u) :
    (s'.replace v s.count).Stands v base frames ∧ Alters v s (s'.replace v s.count) := by
  obtain ⟨stands, ext', count', heads⟩ := h.replace before
  refine ⟨stands, ext.trans ext', by omega, fun u ne => ?_⟩
  rw [heads u ne]
  split
  · rename_i before
    exact same u before
  · rename_i beyond
    rw [head_of_count_le (by omega), head_of_count_le (by omega)]

end Stack

end SusSyntax
