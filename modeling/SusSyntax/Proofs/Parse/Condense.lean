import SusSyntax.Proofs.Parse.Advance

/-!
Sorting out one or two versions.

A version that is pursued in no error over trees that cost nothing is kept. A version that waits
goes where there is one that does not, whichever of the two stands first; two that stand behind the
same bracket become one over a fork (`condense_both`). So after every round there is one version
again.
-/

namespace SusSyntax

open Grammar Lexical Plain

namespace Stack

variable {s s' : Stack} {v base : Nat} {frames : List Frame} {states : List State} {q : State}

/-- A version that is pursued, outside the error state, at no cost. -/
structure IsSafe (s : Stack) (v : Nat) : Prop where
  active : (s.head v).status = .active
  cost_eq : (s.top v).cost = 0
  ne_errorState : s.state v ≠ errorState

theorem Bears.isSafe (h : s.Bears v base frames (q :: states)) (cost : (s.cell base).cost = 0)
    (ne : (s.cell base).state ≠ errorState) : s.IsSafe v :=
  ⟨h.active, h.line.cost_eq h.free ▸ cost, h.state_eq ▸ h.carries.ne_errorState ne⟩

theorem IsSafe.standing (h : s.IsSafe v) :
    (s.standing v).cost = 0 ∧ (s.standing v).inError = false := by
  have waits : s.waitingFor? v = none := by
    rw [waitingFor?, h.active]
    rfl
  have gap : s.atGap v = false := by
    rw [atGap, beq_false_of_ne h.ne_errorState, Bool.false_and]
  simp [Stack.standing, cost, waits, gap, h.cost_eq, h.ne_errorState]

/-- A version that waits has an error, and costs something. -/
theorem standing_of_waitingFor? {x : Lexeme} (h : s.waitingFor? v = some x) :
    0 < (s.standing v).cost ∧ (s.standing v).inError = true := by
  simp [Stack.standing, cost, h, Cost.skippedTree]

/-- Two stacks differ at most in the marks of their versions. -/
structure Settles (s s' : Stack) : Prop where
  cells_eq : s'.cells = s.cells
  count_eq : s'.count = s.count
  cell_eq : ∀ u, (s'.head u).cell = (s.head u).cell
  status_eq : ∀ u, (s'.head u).status = (s.head u).status

theorem settles_settle (s : Stack) (v : Nat) : s.Settles (s.settle v) := by
  refine ⟨rfl, count_modifyHead .., fun u => ?_, fun u => ?_⟩
  · rw [settle, head_modifyHead]
    split <;> rfl
  · rw [settle, head_modifyHead]
    split <;> rfl

theorem Settles.trans {s'' : Stack} (h : s.Settles s') (h' : s'.Settles s'') : s.Settles s'' :=
  ⟨h'.cells_eq.trans h.cells_eq, h'.count_eq.trans h.count_eq, fun u =>
    (h'.cell_eq u).trans (h.cell_eq u), fun u => (h'.status_eq u).trans (h.status_eq u)⟩

theorem Settles.extends (h : s.Settles s') : s.Extends s' :=
  .of_cells h.cells_eq

theorem Settles.top_eq (h : s.Settles s') (v : Nat) : s'.top v = s.top v := by
  rw [top, top, h.cell_eq, Stack.cell, Stack.cell, h.cells_eq]

theorem Settles.isSafe (h : s.Settles s') (safe : s.IsSafe v) : s'.IsSafe v :=
  ⟨(h.status_eq v).trans safe.active, by rw [h.top_eq]; exact safe.cost_eq, by
    rw [Stack.state, h.top_eq]
    exact safe.ne_errorState⟩

theorem Settles.waitingFor? (h : s.Settles s') (v : Nat) : s'.waitingFor? v = s.waitingFor? v := by
  rw [Stack.waitingFor?, Stack.waitingFor?, h.status_eq]

theorem Settles.bears (h : s.Settles s') (bears : s.Bears v base frames states) :
    s'.Bears v base frames states :=
  ⟨⟨(h.status_eq v).trans bears.active, by rw [h.cell_eq, h.cells_eq]; exact bears.inside, by
    rw [h.cell_eq]
    exact bears.line.extend h.extends⟩,
    by rw [h.extends.cell_eq base bears.within]; exact bears.carries, bears.free⟩

/-! ### Two versions behind one bracket -/

theorem addLink_of_isNew {n : Nat} {l : Link} (fuel : Nat) (isNew : s.joining n l = .isNew) :
    addLink (fuel + 1) s n l = s.appendLink n l := by
  rw [addLink, isNew]

theorem joining_of_differs {n a b : Nat} {t : Tree} (links : (s.cell n).links = [⟨a, some t⟩])
    (above : b ≠ n) (differs : (s.cell a).state ≠ (s.cell b).state) :
    s.joining n ⟨b, some t⟩ = .isNew := by
  have ne : a ≠ b := by
    rintro rfl
    exact differs rfl
  have disagree : (s.cell a).agreesWith (s.cell b) = false := by
    rw [Cell.agreesWith, beq_false_of_ne differs]
    rfl
  rw [joining, if_neg above, links]
  simp [ne, disagree]

theorem count_appendLink (s : Stack) (n : Nat) (l : Link) : (s.appendLink n l).count = s.count :=
  congrArg List.length (relinks_appendLink s n l).1

theorem cell_appendLink_of_ne {n k : Nat} (l : Link) (ne : k ≠ n) :
    (s.appendLink n l).cell k = s.cell k := by
  rw [appendLink]
  dsimp only
  split
  · rfl
  · rw [Stack.cell, Array.getElem?_setIfInBounds_ne (Ne.symm ne)]
    rfl

theorem links_appendLink_of_one {n : Nat} {a l : Link} (within : n < s.cells.size)
    (links : (s.cell n).links = [a]) : ((s.appendLink n l).cell n).links = [a, l] := by
  have room : ¬maxLinks ≤ (s.cell n).links.length := by
    simp [links, maxLinks]
  rw [appendLink]
  dsimp only
  rw [if_neg room, Stack.cell, Array.getElem?_setIfInBounds_self_of_lt within, links]
  rfl

/-- A line from the bottom ends at the spot to which its trees lead. -/
theorem Line.spot_eq {n : Nat} (line : s.Line 0 n frames) (bottom : s.cell 0 = .bottom)
    (free : ∀ f ∈ frames, f.tree.IsFree) :
    (s.cell n).spot = ⟨stateOver startState frames, endOf frames, 0⟩ := by
  simp [Cell.spot, line.state_eq, line.pos_eq, line.cost_eq free, bottom, Cell.bottom]

/-- One more link for a cell leaves the lines to the cells that stand before it. -/
theorem Line.appendLink {n k : Nat} (line : s.Line base k frames)
    (before : (s.cell k).pos.bytes < (s.cell n).pos.bytes) (l : Link) :
    (s.appendLink n l).Line base k frames := by
  refine line.congr (Nat.le_of_eq (size_appendLink ..).symm) fun i le => ?_
  refine cell_appendLink_of_ne l ?_
  rintro rfl
  exact Nat.not_le.mpr before le

/-- A cell over an opening bracket becomes a fork by a link to a second line. -/
theorem forks_appendLink {n a b : Nat} {l : Tree} {first second : List Frame}
    (bottom : s.cell 0 = .bottom) (within : n < s.cells.size)
    (links : (s.cell n).links = [⟨a, some l⟩])
    (spot : (s.cell n).spot = ⟨State.bracket, endOf first + l.extent, 0⟩)
    (line : s.Line 0 a first) (line' : s.Line 0 b second) (places : endOf first = endOf second)
    (inside : l.isExtra = false) (free : l.IsFree) (covers : 0 < l.extent.bytes)
    (lt : a < n) (lt' : b < s.cells.size) (ne : a ≠ b) :
    (s.appendLink n ⟨b, some l⟩).Forks n a b l first second := by
  have spot' : ((s.appendLink n ⟨b, some l⟩).cell n).spot = _ :=
    ((relinks_appendLink s n _).2 n).trans spot
  have behind {k : Nat} {frames : List Frame} (line : s.Line 0 k frames)
      (place : endOf frames = endOf first) : (s.cell k).pos.bytes < (s.cell n).pos.bytes := by
    rw [line.pos_eq, bottom, Cell.bottom, Extent.zero_add, place,
      show (s.cell n).pos = _ from congrArg Spot.pos spot]
    exact Nat.lt_add_of_pos_right covers
  exact {
    within := by rwa [size_appendLink]
    state_eq := congrArg Spot.state spot'
    pos_eq := congrArg Spot.pos spot'
    cost_eq := congrArg Spot.cost spot'
    links_eq := links_appendLink_of_one within links
    inside := inside
    free := free
    bottom := by rw [cell_appendLink_of_ne _ (Nat.ne_of_lt (Nat.zero_lt_of_lt lt)), bottom]
    first := line.appendLink (behind line rfl) _
    second := line'.appendLink (behind line' places.symm) _
    first_lt := lt
    second_lt := by rwa [size_appendLink]
    ne := ne }

/-- Versions that are pursued at one spot can be merged. -/
theorem canMerge_of_spot_eq {w : Nat} (active : (s.head v).status = .active)
    (active' : (s.head w).status = .active) (same : (s.top v).spot = (s.top w).spot) :
    s.canMerge v w = true := by
  obtain ⟨state, pos, cost⟩ := Spot.mk.inj same
  simp [canMerge, isActive, Status.isActive, active, active', Cell.agreesWith, state, pos, cost]

theorem join_eq_of_isNew {n : Nat} {l : Link} (head : (s.head 0).cell = n)
    (links : (s.top 1).links = [l]) (isNew : s.joining n l = .isNew)
    (ne : (s.cell n).state ≠ errorState) : s.join 0 1 = (s.appendLink n l).remove 1 := by
  have relinks := relinks_appendLink s n l
  have state : (s.appendLink n l).state 0 = (s.cell n).state := by
    rw [Stack.state, Stack.top, relinks.head_eq, head]
    exact congrArg Spot.state (relinks.2 n)
  rw [Stack.join, links, head]
  dsimp only
  rw [List.foldl_cons, List.foldl_nil, addLink_of_isNew _ isNew, if_neg (by rwa [state])]

/-- Two versions behind the same bracket over lines that end in different states can be merged, and
become one version over a fork. -/
theorem join_spec {l : Tree} {first second : List Frame} {below below' : List State}
    (two : s.count = 2) (bottom : s.cell 0 = .bottom)
    (bears : s.Bears 0 0 (⟨l, State.bracket⟩ :: first) (State.bracket :: below))
    (bears' : s.Bears 1 0 (⟨l, State.bracket⟩ :: second) (State.bracket :: below'))
    (inside : l.isExtra = false) (covers : 0 < l.extent.bytes) (places : endOf first = endOf second)
    (differs : stateOver startState first ≠ stateOver startState second) :
    s.canMerge 0 1 = true ∧ (s.join 0 1).count = 1 ∧
      ∃ fork a b, (s.join 0 1).Forks fork a b l first second ∧
        (s.join 0 1).Bears 0 fork [] [State.bracket] := by
  obtain ⟨⟨active, within, line⟩, -, free⟩ := bears
  obtain ⟨⟨active', within', line'⟩, -, free'⟩ := bears'
  have spot : (s.top 0).spot = ⟨State.bracket, endOf first + l.extent, 0⟩ :=
    line.spot_eq bottom free
  have spot' : (s.top 1).spot = ⟨State.bracket, endOf second + l.extent, 0⟩ :=
    line'.spot_eq bottom free'
  have merges : s.canMerge 0 1 = true :=
    canMerge_of_spot_eq active active' (by rw [spot, spot', places])
  rw [top] at spot
  generalize number : (s.head 0).cell = n at *
  generalize number' : (s.head 1).cell = n' at *
  obtain ⟨freeBracket, free⟩ := List.forall_mem_cons.mp free
  obtain ⟨-, free'⟩ := List.forall_mem_cons.mp free'
  cases line with
  | @upon a _ _ _ line lt _ here =>
    cases line' with
    | @upon b _ _ _ line' lt' _ here' =>
      have apart : (s.cell a).state ≠ (s.cell b).state := by
        rw [line.state_eq, line'.state_eq, bottom]
        exact differs
      have ne : a ≠ b := by
        rintro rfl
        exact apart rfl
      have links : (s.cell n).links = [⟨a, some l⟩] := by rw [here]; rfl
      have links' : (s.top 1).links = [⟨b, some l⟩] := by rw [Stack.top, number', here']; rfl
      have above : b ≠ n := by
        rintro rfl
        have place : endOf first + l.extent = endOf first :=
          (congrArg Spot.pos (spot.symm.trans (line'.spot_eq bottom free'))).trans places.symm
        have bytes := congrArg Extent.bytes place
        rw [Extent.bytes_add] at bytes
        omega
      have forks := forks_appendLink bottom within links spot line line' places inside freeBracket
        covers lt (Nat.lt_trans lt' within') ne
      have joins : s.join 0 1 = (s.appendLink n ⟨b, some l⟩).remove 1 := by
        refine join_eq_of_isNew number links' (joining_of_differs links above apart) ?_
        rw [show (s.cell n).state = State.bracket from congrArg Spot.state spot]
        decide
      have forks' : (s.join 0 1).Forks n a b l first second :=
        joins ▸ forks.extend (.of_cells rfl)
      have head : (s.join 0 1).head 0 = s.head 0 := by
        rw [joins, head_remove, if_pos Nat.zero_lt_one, (relinks_appendLink ..).head_eq]
      have count : (s.join 0 1).count = 1 := by
        have two' := (count_appendLink s n ⟨b, some l⟩).trans two
        have drops := drops_remove (s := s.appendLink n ⟨b, some l⟩) (w := 1) (by omega)
        rw [joins]
        exact Nat.succ.inj (drops.count.trans two')
      refine ⟨merges, count, n, a, b, forks', ⟨⟨?_, ?_, ?_⟩, ?_, List.forall_mem_nil _⟩⟩
      · rw [head, active]
      · rw [head, number]
        exact forks'.within
      · rw [head, number]
        exact .start
      · rw [forks'.state_eq]
        exact .start

end Stack

namespace Parse

variable {s s' : Stack} {fuel v : Nat} {least? : Option Nat}

/-! ### Steps of sorting out -/

theorem sortOut_done (fuel : Nat) (least? : Option Nat) (h : s.count ≤ v) :
    sortOut fuel v least? s = (s, least?) := by
  cases fuel with
  | zero => rfl
  | succ fuel => rw [sortOut, if_pos h]

theorem sortOut_halted (inside : v < s.count) (halted : (s.head v).status.isHalted = true) :
    sortOut (fuel + 1) v least? s = sortOut fuel v least? (s.remove v) := by
  rw [sortOut, if_neg (Nat.not_le.mpr inside), if_pos halted]

theorem sortOut_live (inside : v < s.count) (live : (s.head v).status.isHalted = false) :
    sortOut (fuel + 1) v least? s =
      let least? := if ((s.settle v).standing v).inError then least?
        else minCost least? ((s.settle v).standing v).cost
      match settleAgainst ((s.settle v).standing v) (v + 1) 0 v (s.settle v) with
      | .stays s v => sortOut fuel (v + 1) least? s
      | .gone s v => sortOut fuel v least? s :=
  (if_neg (Nat.not_le.mpr inside)).trans (if_neg (Bool.eq_false_iff.mp live))

theorem settleAgainst_self (standing : Standing) (fuel v : Nat) (s : Stack) :
    settleAgainst standing fuel v v s = .stays s v := by
  cases fuel with
  | zero => rfl
  | succ fuel => rw [settleAgainst, if_pos (Nat.le_refl v)]

/-- The first version stays where it is. -/
theorem sortOut_first (inside : 0 < s.count) (live : (s.head 0).status.isHalted = false) :
    sortOut (fuel + 1) 0 none s = sortOut fuel 1
      (if ((s.settle 0).standing 0).inError then none else some ((s.settle 0).standing 0).cost)
      (s.settle 0) := by
  rw [sortOut_live inside live, settleAgainst_self]
  rfl

theorem settleAgainst_second (standing : Standing) (s : Stack) :
    settleAgainst standing 2 0 1 s =
      match ((s.settle 0).standing 0).compare standing with
      | .takeLeft => .gone ((s.settle 0).remove 1) 1
      | .preferLeft | .neither =>
        match (s.settle 0).merge? 0 1 with
        | some s => .gone s 1
        | none => settleAgainst standing 1 1 1 (s.settle 0)
      | .preferRight =>
        match (s.settle 0).merge? 0 1 with
        | some s => .gone s 1
        | none => settleAgainst standing 1 1 1 ((s.settle 0).swap 1 0)
      | .takeRight => settleAgainst standing 1 0 0 ((s.settle 0).remove 0) :=
  if_neg (by decide)

/-- Before one that waits, a version that is pursued is kept alone. -/
theorem compare_eq_takeLeft {a b : Standing} (safe : a.cost = 0 ∧ a.inError = false)
    (waits : 0 < b.cost ∧ b.inError = true) : a.compare b = .takeLeft := by
  simp [Standing.compare, Standing.soundness, safe, waits]

theorem compare_eq_neither {a b : Standing} (safe : a.cost = 0 ∧ a.inError = false)
    (safe' : b.cost = 0 ∧ b.inError = false) : a.compare b = .neither := by
  simp [Standing.compare, safe, safe']

variable {x : Lexeme}

theorem not_halted_of_waitingFor? (h : s.waitingFor? v = some x) :
    (s.head v).status.isHalted = false := by
  rw [Stack.waitingFor?] at h
  cases status : (s.head v).status with
  | active | paused => rfl
  | halted =>
    rw [status] at h
    cases h

theorem sortOut_lone (one : s.count = 1) (safe : s.IsSafe 0) :
    ∃ s', sortOut 3 0 none s = (s', some 0) ∧ s.Settles s' := by
  have settles := Stack.settles_settle s 0
  refine ⟨s.settle 0, ?_, settles⟩
  rw [sortOut_first (by omega) (by rw [safe.active]; rfl),
    sortOut_done _ _ (by rw [settles.count_eq]; omega)]
  simp [(settles.isSafe safe).standing]

/-- The versions are settled one after the other, and then the first one once more. -/
theorem settles_both (s : Stack) : s.Settles (s.settle 0) ∧ s.Settles ((s.settle 0).settle 1) ∧
    s.Settles (((s.settle 0).settle 1).settle 0) := by
  have first := Stack.settles_settle s 0
  have second := first.trans (Stack.settles_settle (s.settle 0) 1)
  exact ⟨first, second, second.trans (Stack.settles_settle ((s.settle 0).settle 1) 0)⟩

/-- A version that waits goes where the one before it does not. -/
theorem sortOut_first_safe (two : s.count = 2) (safe : s.IsSafe 0)
    (waits : s.waitingFor? 1 = some x) :
    ∃ s', sortOut 5 0 none s = (s'.remove 1, some 0) ∧ s.Settles s' := by
  obtain ⟨first, second, third⟩ := settles_both s
  have waits' (s' : Stack) (settles : s.Settles s') : s'.waitingFor? 1 = some x :=
    (settles.waitingFor? 1).trans waits
  have live := not_halted_of_waitingFor? (waits' _ first)
  have standing := Stack.standing_of_waitingFor? (waits' _ second)
  refine ⟨((s.settle 0).settle 1).settle 0, ?_, third⟩
  rw [sortOut_first (by omega) (by rw [safe.active]; rfl),
    sortOut_live (by rw [first.count_eq]; omega) live, settleAgainst_second,
    compare_eq_takeLeft (third.isSafe safe).standing standing]
  dsimp only
  rw [sortOut_done]
  · simp [(first.isSafe safe).standing, standing.2]
  · have := (Stack.drops_remove (s := ((s.settle 0).settle 1).settle 0) (w := 1)
      (by rw [third.count_eq]; omega)).count
    rw [third.count_eq] at this
    omega

/-- A version that waits goes also where the one behind it does not. -/
theorem sortOut_second_safe (two : s.count = 2) (waits : s.waitingFor? 0 = some x)
    (safe : s.IsSafe 1) :
    ∃ s', sortOut 5 0 none s = (s'.remove 0, some 0) ∧ s.Settles s' := by
  obtain ⟨first, second, third⟩ := settles_both s
  have waits' (s' : Stack) (settles : s.Settles s') : s'.waitingFor? 0 = some x :=
    (settles.waitingFor? 0).trans waits
  have standing := Stack.standing_of_waitingFor? (waits' _ third)
  have takes : (Stack.standing (((s.settle 0).settle 1).settle 0) 0).compare
      (((s.settle 0).settle 1).standing 1) = .takeRight := by
    rw [← Standing.compare_flip, compare_eq_takeLeft (second.isSafe safe).standing standing]
    rfl
  refine ⟨((s.settle 0).settle 1).settle 0, ?_, third⟩
  rw [sortOut_first (by omega) (not_halted_of_waitingFor? waits),
    sortOut_live (by rw [first.count_eq]; omega) (by rw [first.status_eq, safe.active]; rfl),
    settleAgainst_second, takes]
  dsimp only
  rw [settleAgainst_self]
  dsimp only
  rw [sortOut_done]
  · simp [(second.isSafe safe).standing, Stack.standing_of_waitingFor? (waits' _ first), minCost]
  · have := (Stack.drops_remove (s := ((s.settle 0).settle 1).settle 0) (w := 0)
      (by rw [third.count_eq]; omega)).count
    rw [third.count_eq] at this
    omega

/-- Two versions that can be merged become one. -/
theorem sortOut_both_safe (two : s.count = 2) (safe : s.IsSafe 0) (safe' : s.IsSafe 1)
    (merges : ∀ s', s.Settles s' → s'.canMerge 0 1 = true ∧ (s'.join 0 1).count = 1) :
    ∃ s', sortOut 5 0 none s = (s'.join 0 1, some 0) ∧ s.Settles s' := by
  obtain ⟨first, second, third⟩ := settles_both s
  refine ⟨((s.settle 0).settle 1).settle 0, ?_, third⟩
  rw [sortOut_first (by omega) (by rw [safe.active]; rfl),
    sortOut_live (by rw [first.count_eq]; omega) (by rw [first.status_eq, safe'.active]; rfl),
    settleAgainst_second,
    compare_eq_neither (third.isSafe safe).standing (second.isSafe safe').standing]
  dsimp only
  rw [Stack.merge?, if_pos (merges _ third).1]
  dsimp only
  rw [sortOut_done]
  · simp [(first.isSafe safe).standing, (second.isSafe safe').standing, minCost]
  · exact Nat.le_of_eq (merges _ third).2

/-! ### One version is left -/

variable {p : Parse} {base : Nat} {frames : List Frame} {states : List State} {q : State}

theorem condense_of_sortOut (sorted : sortOut (2 * p.stack.count + 1) 0 none p.stack = (s, some 0))
    (one : s.count = 1) (safe : s.IsSafe 0) : p.condense = (p.withStack s, some 0) := by
  have all : (⟨s.cells, s.heads.take Stack.maxVersions⟩ : Stack) = s := by
    rw [List.take_of_length_le (Nat.le_trans (Nat.le_of_eq one) (by decide))]
  have waits : s.waitingFor? 0 = none := by
    rw [Stack.waitingFor?, safe.active]
    rfl
  rw [condense, sorted]
  dsimp only
  rw [all, one, resumeFirst, if_neg (by decide), show (p.withStack s).stack.waitingFor? 0 = none
    from waits]
  dsimp only
  rw [resumeFirst, if_pos (by decide)]

theorem condense_lone (one : p.stack.count = 1) (safe : p.stack.IsSafe 0) :
    ∃ s, p.condense = (p.withStack s, some 0) ∧ p.stack.Settles s := by
  obtain ⟨s, sorted, settles⟩ := sortOut_lone one safe
  rw [← show 2 * p.stack.count + 1 = 3 by omega] at sorted
  exact ⟨s, condense_of_sortOut sorted (settles.count_eq.trans one) (settles.isSafe safe), settles⟩

/-- One version takes the place of two, and stands where one of them stood. -/
structure Remains (s : Stack) (v : Nat) (s' : Stack) : Prop where
  extends' : s.Extends s'
  count_eq : s'.count = 1
  bears : ∀ {base frames states}, s.Bears v base frames states → s'.Bears 0 base frames states

theorem remains_remove {w : Nat} (two : s.count = 2) (settles : s.Settles s') (which : v = 1 - w)
    (le : w ≤ 1) : Remains s v (s'.remove w) where
  extends' := settles.extends.trans (.of_cells rfl)
  count_eq := by
    have := (Stack.drops_remove (s := s') (w := w) (by rw [settles.count_eq]; omega)).count
    rw [settles.count_eq] at this
    omega
  bears bears := by
    refine (settles.bears bears).of_head_eq (.of_cells rfl) ?_
    rw [Stack.head_remove]
    split
    · rw [show v = 0 by omega]
    · rw [show v = 1 by omega]

/-- The safe version. -/
theorem condense_first (two : p.stack.count = 2)
    (bears : p.stack.Bears 0 base frames (q :: states)) (cost : (p.stack.cell base).cost = 0)
    (ne : (p.stack.cell base).state ≠ errorState) (waits : p.stack.waitingFor? 1 = some x) :
    ∃ s, p.condense = (p.withStack s, some 0) ∧ Remains p.stack 0 s := by
  have safe := bears.isSafe cost ne
  obtain ⟨s, sorted, settles⟩ := sortOut_first_safe two safe waits
  have remains : Remains p.stack 0 (s.remove 1) := remains_remove two settles rfl (Nat.le_refl 1)
  have cell : (s.remove 1).cell base = p.stack.cell base :=
    remains.extends'.cell_eq base bears.within
  rw [← show 2 * p.stack.count + 1 = 5 by omega] at sorted
  exact ⟨_, condense_of_sortOut sorted remains.count_eq
    ((remains.bears bears).isSafe (cell ▸ cost) (cell ▸ ne)), remains⟩

theorem condense_second (two : p.stack.count = 2) (waits : p.stack.waitingFor? 0 = some x)
    (bears : p.stack.Bears 1 base frames (q :: states)) (cost : (p.stack.cell base).cost = 0)
    (ne : (p.stack.cell base).state ≠ errorState) :
    ∃ s, p.condense = (p.withStack s, some 0) ∧ Remains p.stack 1 s := by
  have safe := bears.isSafe cost ne
  obtain ⟨s, sorted, settles⟩ := sortOut_second_safe two waits safe
  have remains : Remains p.stack 1 (s.remove 0) := remains_remove two settles rfl (Nat.zero_le 1)
  have cell : (s.remove 0).cell base = p.stack.cell base :=
    remains.extends'.cell_eq base bears.within
  rw [← show 2 * p.stack.count + 1 = 5 by omega] at sorted
  exact ⟨_, condense_of_sortOut sorted remains.count_eq
    ((remains.bears bears).isSafe (cell ▸ cost) (cell ▸ ne)), remains⟩

/-- Two versions behind the same bracket become one over a fork. -/
theorem condense_both {l : Tree} {first second : List Frame} {below below' : List State}
    (two : p.stack.count = 2) (bottom : p.stack.cell 0 = .bottom)
    (bears : p.stack.Bears 0 0 (⟨l, State.bracket⟩ :: first) (State.bracket :: below))
    (bears' : p.stack.Bears 1 0 (⟨l, State.bracket⟩ :: second) (State.bracket :: below'))
    (inside : l.isExtra = false) (covers : 0 < l.extent.bytes) (places : endOf first = endOf second)
    (differs : stateOver startState first ≠ stateOver startState second) :
    ∃ s fork a b, p.condense = (p.withStack s, some 0) ∧ s.count = 1 ∧
      s.Forks fork a b l first second ∧ s.Bears 0 fork [] [State.bracket] := by
  have safe {v : Nat} {frames : List Frame} {states : List State}
      (bears : p.stack.Bears v 0 frames (State.bracket :: states)) : p.stack.IsSafe v := by
    refine bears.isSafe (by rw [bottom]; rfl) ?_
    rw [bottom]
    decide
  have joins {s : Stack} (settles : p.stack.Settles s) :=
    Stack.join_spec (settles.count_eq.trans two)
      (bears.bottom_eq settles.extends bottom) (settles.bears bears)
      (settles.bears bears') inside covers places differs
  obtain ⟨s, sorted, settles⟩ := sortOut_both_safe two (safe bears) (safe bears')
    fun s settles => ⟨(joins settles).1, (joins settles).2.1⟩
  obtain ⟨-, one, fork, a, b, forks, stands⟩ := joins settles
  rw [← show 2 * p.stack.count + 1 = 5 by omega] at sorted
  refine ⟨_, fork, a, b, condense_of_sortOut sorted one ?_, one, forks, stands⟩
  refine stands.isSafe forks.cost_eq ?_
  rw [forks.state_eq]
  decide

/-- A version that has ended goes, and nothing is left. -/
theorem condense_halted (one : p.stack.count = 1)
    (halted : (p.stack.head 0).status.isHalted = true) :
    ∃ s, p.condense = (p.withStack s, none) := by
  have count : (p.stack.remove 0).count = 0 := by
    have := (Stack.drops_remove (s := p.stack) (w := 0) (by omega)).count
    omega
  have sorted : sortOut (2 * p.stack.count + 1) 0 none p.stack = (p.stack.remove 0, none) := by
    rw [sortOut_halted (by omega) halted, sortOut_done _ _ (Nat.le_of_eq count)]
  have none : (p.stack.remove 0).heads = [] := List.length_eq_zero_iff.mp count
  refine ⟨⟨(p.stack.remove 0).cells, []⟩, ?_⟩
  rw [condense, sorted]
  dsimp only
  rw [none]
  rfl

end Parse

end SusSyntax
