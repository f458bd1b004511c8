import SusSyntax.Proofs.Text.Place

/-!
Characters of one byte.

All bytes of a longer character are beyond the ones that are characters alone. So where such a byte
stands in a source, its character stands in the text that is read from it (`exists_char_at`).
-/

namespace SusSyntax.Text

/-- A byte that is a character alone is in no other glyph of a text. -/
def KeepsAscii (text : Text) : Prop :=
  ∀ g ∈ text, ∀ b ∈ g.bytes, b < 0x80 → g = .char b.toNat

theorem keepsAscii_append {a b : Text} : KeepsAscii (a ++ b) ↔ a.KeepsAscii ∧ b.KeepsAscii := by
  simp only [KeepsAscii, List.forall_mem_append]

theorem keepsAscii_cons {g : Glyph} {rest : Text} :
    KeepsAscii (g :: rest) ↔ (∀ b ∈ g.bytes, b < 0x80 → g = .char b.toNat) ∧ rest.KeepsAscii := by
  simp only [KeepsAscii, List.forall_mem_cons]

theorem le_of_isContinuation {b : UInt8} (h : Utf8.isContinuation b = true) : 0x80 ≤ b :=
  UInt8.le_iff_toNat_le.mpr (Utf8.lt_of_isContinuation h).1

theorem keepsAscii_cons_of_bytes {g : Glyph} {bytes : List UInt8} {rest : Text}
    (same : g.bytes = bytes) (high : ∀ b ∈ bytes, 0x80 ≤ b) (h : rest.KeepsAscii) :
    KeepsAscii (g :: rest) := by
  refine keepsAscii_cons.mpr ⟨fun b mem low => ?_, h⟩
  rw [same] at mem
  exact absurd low (UInt8.not_lt.mpr (high b mem))

theorem keepsAscii_cons_malformed {b : UInt8} {rest : Text} (high : ¬b < 0x80)
    (h : rest.KeepsAscii) : KeepsAscii (.malformed b :: rest) :=
  keepsAscii_cons_of_bytes rfl (by simpa [Glyph.bytes] using high) h

/-- What is read from bytes keeps those apart that are characters alone. -/
theorem keepsAscii_decode (source : List UInt8) : (decode source).KeepsAscii := by
  have nothing : KeepsAscii [] := by simp [KeepsAscii]
  fun_induction decode source with
  | case1 => exact nothing
  | case2 a rest isAscii ih =>
    have small : a.toNat < 0x80 := UInt8.lt_iff_toNat_lt.mp isAscii
    refine keepsAscii_cons.mpr ⟨fun b mem _ => ?_, ih⟩
    rw [Glyph.bytes, if_pos small] at mem
    obtain rfl := List.mem_singleton.mp mem
    simp
  | case3 a high => exact keepsAscii_cons_malformed high nothing
  | case4 a high b rest isPair ih =>
    refine keepsAscii_cons_of_bytes (Utf8.bytes_pairCode isPair) ?_ ih
    simp only [Utf8.isPair, Bool.and_eq_true] at isPair
    simp [UInt8.not_lt.mp high, le_of_isContinuation isPair.2]
  | case5 a high b _ ih => exact keepsAscii_cons_malformed high ih
  | case6 a high b _ c rest isTriple ih =>
    refine keepsAscii_cons_of_bytes (Utf8.bytes_tripleCode isTriple) ?_ ih
    simp only [Utf8.isTriple, Bool.and_eq_true] at isTriple
    obtain ⟨⟨⟨⟨_, tail⟩, tail'⟩, _⟩, _⟩ := isTriple
    simp [UInt8.not_lt.mp high, le_of_isContinuation tail, le_of_isContinuation tail']
  | case7 a high b _ c _ ih => exact keepsAscii_cons_malformed high ih
  | case8 a high b _ c _ d rest isQuadruple ih =>
    refine keepsAscii_cons_of_bytes (Utf8.bytes_quadrupleCode isQuadruple) ?_ ih
    simp only [Utf8.isQuadruple, Bool.and_eq_true] at isQuadruple
    obtain ⟨⟨⟨⟨⟨_, tail⟩, tail'⟩, tail''⟩, _⟩, _⟩ := isQuadruple
    simp [UInt8.not_lt.mp high, le_of_isContinuation tail, le_of_isContinuation tail',
      le_of_isContinuation tail'']
  | case9 a high b _ c _ d rest _ ih =>
    exact keepsAscii_cons_malformed high ih

/-- Where such a byte stands, there is its character. -/
theorem exists_char_at {text : Text} (keeps : text.KeepsAscii) {i : Nat} {b : UInt8}
    (found : text.bytes[i]? = some b) (low : b < 0x80) :
    ∃ before after, text = before ++ .char b.toNat :: after ∧ i = (extent before).bytes := by
  induction text generalizing i with
  | nil => cases found
  | cons g rest ih =>
    obtain ⟨first, keeps⟩ := keepsAscii_cons.mp keeps
    rw [bytes_cons] at found
    by_cases inside : i < g.bytes.length
    · rw [List.getElem?_append_left inside] at found
      obtain rfl := first b (List.mem_of_getElem? found) low
      have small : b.toNat < 0x80 := UInt8.lt_iff_toNat_lt.mp low
      have first : i = 0 := by simpa [Glyph.bytes, small] using inside
      exact ⟨[], rest, rfl, first⟩
    · rw [List.getElem?_append_right (Nat.le_of_not_lt inside)] at found
      obtain ⟨before, after, rfl, same⟩ := ih keeps found
      refine ⟨g :: before, after, rfl, ?_⟩
      rw [Glyph.length_bytes] at inside same
      simp
      omega

/-- Where a byte is ahead that is a character alone, its character is ahead. -/
theorem exists_char_ahead {rest : Text} (keeps : rest.KeepsAscii) {b : UInt8}
    (found : rest.bytes[0]? = some b) (low : b < 0x80) :
    ∃ after, rest = .char b.toNat :: after := by
  obtain ⟨before, after, rfl, start⟩ := exists_char_at keeps found low
  obtain rfl := eq_nil_of_bytes_eq_zero start.symm
  exact ⟨after, rfl⟩

theorem getElem?_bytes_append (before rest : Text) (k : Nat) :
    (bytes (before ++ rest))[before.extent.bytes + k]? = rest.bytes[k]? := by
  rw [bytes_append, ← length_bytes, List.getElem?_append_right (Nat.le_add_right ..),
    Nat.add_sub_cancel_left]

end SusSyntax.Text
