/-!
Sets of characters, as ranges of code points in increasing order.
-/

namespace SusSyntax

/-- A set of code points: ranges with both ends included, in increasing order. -/
structure CharSet where
  ranges : List (Nat × Nat)

namespace CharSet

/-- Whether the code point `c` is in one of the ranges; the search ends at the first range that
begins beyond `c`. -/
def rangesContain (c : Nat) : List (Nat × Nat) → Bool
  | [] => false
  | (lo, hi) :: rest => if c < lo then false else if c ≤ hi then true else rangesContain c rest

/-- Whether a code point is in the set. -/
def contains (s : CharSet) (c : Nat) : Bool :=
  rangesContain c s.ranges

/-- Ranges that are not empty and follow one another. -/
def Increasing : List (Nat × Nat) → Prop
  | [] => True
  | (lo, hi) :: rest => lo ≤ hi ∧ (∀ r ∈ rest, hi < r.1) ∧ Increasing rest

/-- On increasing ranges the search finds just the members. -/
theorem rangesContain_iff {c : Nat} {ranges : List (Nat × Nat)} (h : Increasing ranges) :
    rangesContain c ranges = true ↔ ∃ r ∈ ranges, r.1 ≤ c ∧ c ≤ r.2 := by
  induction ranges with
  | nil => simp [rangesContain]
  | cons range rest ih =>
    obtain ⟨lo, hi⟩ := range
    obtain ⟨le, beyond, tail⟩ := h
    rw [rangesContain]
    by_cases below : c < lo
    · rw [if_pos below]
      constructor
      · intro absurdity
        exact absurd absurdity (by decide)
      · rintro ⟨r, mem, from_le, _⟩
        rcases List.mem_cons.mp mem with rfl | mem
        · exact absurd from_le (Nat.not_le.mpr below)
        · have := beyond r mem
          omega
    · rw [if_neg below]
      by_cases within : c ≤ hi
      · rw [if_pos within]
        exact ⟨fun _ => ⟨_, List.mem_cons_self, Nat.not_lt.mp below, within⟩, fun _ => rfl⟩
      · rw [if_neg within, ih tail]
        constructor
        · rintro ⟨r, mem, bounds⟩
          exact ⟨r, List.mem_cons_of_mem _ mem, bounds⟩
        · rintro ⟨r, mem, bounds⟩
          rcases List.mem_cons.mp mem with rfl | mem
          · exact absurd bounds.2 within
          · exact ⟨r, mem, bounds⟩

/-- Whether ranges from `n` on are not empty and follow one another. -/
def increasesFrom (n : Nat) : List (Nat × Nat) → Bool
  | [] => true
  | (lo, hi) :: rest => n ≤ lo && lo ≤ hi && increasesFrom (hi + 1) rest

theorem increasing_of_increasesFrom {n : Nat} {ranges : List (Nat × Nat)}
    (h : increasesFrom n ranges = true) : Increasing ranges ∧ ∀ r ∈ ranges, n ≤ r.1 := by
  induction ranges generalizing n with
  | nil => exact ⟨trivial, List.forall_mem_nil _⟩
  | cons range rest ih =>
    obtain ⟨lo, hi⟩ := range
    simp only [increasesFrom, Bool.and_eq_true, decide_eq_true_eq] at h
    obtain ⟨⟨from_le, le⟩, tail⟩ := h
    obtain ⟨increasing, beyond⟩ := ih tail
    refine ⟨⟨le, beyond, increasing⟩, List.forall_mem_cons.mpr ⟨from_le, fun r mem => ?_⟩⟩
    have := beyond r mem
    omega

/-- A set whose ranges increase has just the members that its ranges have. -/
theorem contains_iff {s : CharSet} (h : increasesFrom 0 s.ranges = true) {c : Nat} :
    s.contains c = true ↔ ∃ r ∈ s.ranges, r.1 ≤ c ∧ c ≤ r.2 :=
  rangesContain_iff (increasing_of_increasesFrom h).1

end CharSet

end SusSyntax
