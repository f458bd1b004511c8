/-!
Extents: how far a piece of text reaches, in bytes and in rows and columns.

A column counts the bytes after the last line break, so an extent that contains a line break
replaces the column of what stands before it. Positions are the extents of the text before them.
-/

namespace SusSyntax

/-- The extent of a piece of text: its bytes, its line breaks, and the bytes after the last one. -/
structure Extent where
  bytes : Nat
  rows : Nat
  columns : Nat
deriving DecidableEq, Repr, Inhabited

namespace Extent

/-- The extent of no text. -/
def zero : Extent :=
  ⟨0, 0, 0⟩

/-- The extent of one piece of text after another. -/
def add (a b : Extent) : Extent :=
  { bytes := a.bytes + b.bytes
    rows := a.rows + b.rows
    columns := if b.rows = 0 then a.columns + b.columns else b.columns }

/-- The extent of what is left of the text `a` after its first part `b`. -/
def sub (a b : Extent) : Extent :=
  { bytes := a.bytes - b.bytes
    rows := a.rows - b.rows
    columns := if b.rows < a.rows then a.columns else a.columns - b.columns }

instance : Add Extent := ⟨add⟩

instance : Sub Extent := ⟨sub⟩

/-! ### The laws of concatenation -/

@[simp] theorem bytes_add (a b : Extent) : (a + b).bytes = a.bytes + b.bytes := rfl

@[simp] theorem rows_add (a b : Extent) : (a + b).rows = a.rows + b.rows := rfl

theorem columns_add (a b : Extent) :
    (a + b).columns = if b.rows = 0 then a.columns + b.columns else b.columns := rfl

theorem ext_iff' {a b : Extent} :
    a = b ↔ a.bytes = b.bytes ∧ a.rows = b.rows ∧ a.columns = b.columns := by
  cases a
  cases b
  simp

@[simp] theorem zero_add (a : Extent) : zero + a = a := by
  simp [ext_iff', columns_add, zero]

@[simp] theorem add_zero (a : Extent) : a + zero = a := by
  simp [ext_iff', columns_add, zero]

theorem add_assoc (a b c : Extent) : a + b + c = a + (b + c) := by
  refine ext_iff'.mpr ⟨Nat.add_assoc .., Nat.add_assoc .., ?_⟩
  simp only [columns_add, rows_add]
  by_cases hc : c.rows = 0
  · by_cases hb : b.rows = 0 <;> simp [hb, hc, Nat.add_assoc]
  · simp [hc]

/-- Taking the first part of a text away leaves the second. -/
theorem add_sub_self (a b : Extent) : a + b - a = b := by
  refine ext_iff'.mpr ⟨Nat.add_sub_cancel_left .., Nat.add_sub_cancel_left .., ?_⟩
  change (if a.rows < (a + b).rows then (a + b).columns else (a + b).columns - a.columns) = _
  simp only [columns_add, rows_add]
  by_cases hb : b.rows = 0
  · simp [hb]
  · simp [hb, Nat.pos_of_ne_zero hb]

end Extent

end SusSyntax
