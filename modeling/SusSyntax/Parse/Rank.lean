import SusSyntax.Stack.Basic

/-!
Which of two readings is better.

A reading that is not in error is preferred to one that is; otherwise the cheaper one is. The better
one is kept alone if the difference is large for the progress that it has made.
-/

namespace SusSyntax

open Grammar

/-- What counts when readings are compared: the cost, the progress since the last error, and whether
the reading is in an error. -/
structure Standing where
  cost : Nat
  progress : Nat
  inError : Bool
deriving DecidableEq, Repr

/-- What comes of a comparison: one side is kept alone, or goes first, or neither. -/
inductive Preference where
  | takeLeft | preferLeft | neither | preferRight | takeRight
deriving DecidableEq, Repr

namespace Preference

/-- The preference with the sides exchanged. -/
def flip : Preference → Preference
  | .takeLeft => .takeRight
  | .preferLeft => .preferRight
  | .neither => .neither
  | .preferRight => .preferLeft
  | .takeRight => .takeLeft

@[simp] theorem flip_flip (p : Preference) : p.flip.flip = p := by
  cases p <;> rfl

@[simp] theorem flip_neither : neither.flip = neither := rfl

end Preference

namespace Standing

/-- The preference for `a` where it is cheaper than `b`. -/
def advantage (a b : Standing) : Preference :=
  if Cost.giveUp < (b.cost - a.cost) * (1 + a.progress) then .takeLeft else .preferLeft

/-- The preference for `a`, which is not in error, before `b`, which is. -/
def soundness (a b : Standing) : Preference :=
  if a.cost < b.cost then .takeLeft else .preferLeft

/-- Compares two standings. -/
def compare (a b : Standing) : Preference :=
  if !a.inError && b.inError then a.soundness b
  else if a.inError && !b.inError then (b.soundness a).flip
  else if a.cost < b.cost then a.advantage b
  else if b.cost < a.cost then (b.advantage a).flip
  else .neither

/-- Comparing in the other order exchanges the sides. -/
theorem compare_flip (a b : Standing) : (a.compare b).flip = b.compare a := by
  obtain ⟨ca, pa, ea⟩ := a
  obtain ⟨cb, pb, eb⟩ := b
  rcases Nat.lt_trichotomy ca cb with lt | rfl | gt
  · cases ea <;> cases eb <;> simp [compare, lt, Nat.not_lt.mpr (Nat.le_of_lt lt)]
  · cases ea <;> cases eb <;> simp [compare]
  · cases ea <;> cases eb <;> simp [compare, gt, Nat.not_lt.mpr (Nat.le_of_lt gt)]

end Standing

namespace Stack

/-- The standing of a version. -/
def standing (s : Stack) (v : Nat) : Standing :=
  let waits := (s.waitingFor? v).isSome
  { cost := s.cost v + if waits then Cost.skippedTree else 0
    progress := s.progressSinceError v
    inError := waits || s.state v == errorState }

end Stack

end SusSyntax
