import SusSyntax.Text.Cursor

/-!
Places in a text, and the bytes of a text.

The extent of a text is that of its parts one after another (`extent_append`), so a place is the
extent of what stands before it, and its bytes alone determine it (`IsPlace.unique`). Decoding
loses nothing: the bytes of the glyphs are the bytes that were read (`bytes_decode`).
-/

namespace SusSyntax

/-! ### The bytes of glyphs -/

namespace Utf8

theorem lt_of_isContinuation {b : UInt8} (h : isContinuation b = true) :
    0x80 ≤ b.toNat ∧ b.toNat ≤ 0xBF := by
  simp only [isContinuation, Bool.and_eq_true, decide_eq_true_eq, UInt8.le_iff_toNat_le] at h
  exact h

theorem bytes_pairCode {a b : UInt8} (h : isPair a b = true) :
    (Glyph.char (pairCode a b)).bytes = [a, b] := by
  simp only [isPair, Bool.and_eq_true, decide_eq_true_eq, UInt8.le_iff_toNat_le] at h
  obtain ⟨⟨low, high⟩, tail⟩ := h
  have bounds := lt_of_isContinuation tail
  simp only [UInt8.toNat_ofNat] at low high
  have code : pairCode a b = (a.toNat - 0xC0) * 0x40 + (b.toNat - 0x80) := rfl
  have first : 0xC0 + pairCode a b / 0x40 = a.toNat := by omega
  have second : 0x80 + pairCode a b % 0x40 = b.toNat := by omega
  rw [Glyph.bytes, if_neg (by omega), if_pos (by omega), first, second]
  simp

theorem bytes_tripleCode {a b c : UInt8} (h : isTriple a b c = true) :
    (Glyph.char (tripleCode a b c)).bytes = [a, b, c] := by
  simp only [isTriple, Bool.and_eq_true, Bool.or_eq_true, bne_iff_ne, decide_eq_true_eq,
    UInt8.le_iff_toNat_le, ne_eq, ← UInt8.toNat_inj] at h
  obtain ⟨⟨⟨⟨⟨low, high⟩, tail⟩, tail'⟩, notShort⟩, _⟩ := h
  have bounds := lt_of_isContinuation tail
  have bounds' := lt_of_isContinuation tail'
  simp only [UInt8.toNat_ofNat] at low high notShort
  have code : tripleCode a b c =
      ((a.toNat - 0xE0) * 0x40 + (b.toNat - 0x80)) * 0x40 + (c.toNat - 0x80) := rfl
  have first : 0xE0 + tripleCode a b c / 0x1000 = a.toNat := by omega
  have second : 0x80 + tripleCode a b c / 0x40 % 0x40 = b.toNat := by omega
  have third : 0x80 + tripleCode a b c % 0x40 = c.toNat := by omega
  rw [Glyph.bytes, if_neg (by omega), if_neg (by omega), if_pos (by omega), first, second, third]
  simp

theorem bytes_quadrupleCode {a b c d : UInt8} (h : isQuadruple a b c d = true) :
    (Glyph.char (quadrupleCode a b c d)).bytes = [a, b, c, d] := by
  simp only [isQuadruple, Bool.and_eq_true, Bool.or_eq_true, bne_iff_ne, decide_eq_true_eq,
    UInt8.le_iff_toNat_le, ne_eq, ← UInt8.toNat_inj] at h
  obtain ⟨⟨⟨⟨⟨⟨low, high⟩, tail⟩, tail'⟩, tail''⟩, notShort⟩, _⟩ := h
  have bounds := lt_of_isContinuation tail
  have bounds' := lt_of_isContinuation tail'
  have bounds'' := lt_of_isContinuation tail''
  simp only [UInt8.toNat_ofNat] at low high notShort
  have code : quadrupleCode a b c d =
      (((a.toNat - 0xF0) * 0x40 + (b.toNat - 0x80)) * 0x40 + (c.toNat - 0x80)) * 0x40 +
        (d.toNat - 0x80) := rfl
  have first : 0xF0 + quadrupleCode a b c d / 0x40000 = a.toNat := by omega
  have second : 0x80 + quadrupleCode a b c d / 0x1000 % 0x40 = b.toNat := by omega
  have third : 0x80 + quadrupleCode a b c d / 0x40 % 0x40 = c.toNat := by omega
  have fourth : 0x80 + quadrupleCode a b c d % 0x40 = d.toNat := by omega
  rw [Glyph.bytes, if_neg (by omega), if_neg (by omega), if_neg (by omega), first, second, third,
    fourth]
  simp

end Utf8

namespace Glyph

@[simp] theorem bytes_extent (g : Glyph) : g.extent.bytes = g.width := by
  unfold extent
  split
  · rename_i isBreak
    obtain rfl := eq_of_beq isBreak
    rfl
  · rfl

end Glyph

namespace Text

/-- The bytes that a text was read from. -/
def bytes (text : Text) : List UInt8 :=
  text.flatMap Glyph.bytes

@[simp] theorem bytes_nil : bytes [] = [] := rfl

@[simp] theorem bytes_cons (g : Glyph) (text : Text) : bytes (g :: text) = g.bytes ++ bytes text :=
  List.flatMap_cons

@[simp] theorem bytes_append (a b : Text) : bytes (a ++ b) = bytes a ++ bytes b :=
  List.flatMap_append

/-- Decoding loses nothing. -/
theorem bytes_decode (source : List UInt8) : (decode source).bytes = source := by
  fun_induction decode source with
  | case1 => rfl
  | case2 a rest isAscii ih =>
    have small : a.toNat < 0x80 := UInt8.lt_iff_toNat_lt.mp isAscii
    rw [bytes_cons, ih, Glyph.bytes, if_pos small]
    simp
  | case3 a _ => rfl
  | case4 a _ b rest isPair ih => rw [bytes_cons, ih, Utf8.bytes_pairCode isPair]; rfl
  | case5 a _ b _ ih => rw [bytes_cons, ih]; rfl
  | case6 a _ b _ c rest isTriple ih => rw [bytes_cons, ih, Utf8.bytes_tripleCode isTriple]; rfl
  | case7 a _ b _ c _ ih => rw [bytes_cons, ih]; rfl
  | case8 a _ b _ c _ d rest isQuadruple ih =>
    rw [bytes_cons, ih, Utf8.bytes_quadrupleCode isQuadruple]
    rfl
  | case9 a _ b _ c _ d rest _ ih => rw [bytes_cons, ih]; rfl

/-! ### The extent of a text -/

@[simp] theorem extent_nil : extent [] = .zero := rfl

theorem foldl_extent (e : Extent) (text : Text) :
    text.foldl (fun e g => e + g.extent) e = e + extent text := by
  induction text generalizing e with
  | nil => simp
  | cons g rest ih =>
    have first : extent (g :: rest) = g.extent + extent rest := by
      change rest.foldl _ (.zero + g.extent) = _
      rw [Extent.zero_add, ih]
    rw [List.foldl_cons, ih, first, Extent.add_assoc]

@[simp] theorem extent_cons (g : Glyph) (text : Text) :
    extent (g :: text) = g.extent + extent text := by
  rw [extent, List.foldl_cons, foldl_extent, Extent.zero_add]

@[simp] theorem extent_append (a b : Text) : extent (a ++ b) = extent a + extent b := by
  rw [extent, List.foldl_append, foldl_extent]
  rfl

/-- The extent of a text counts its bytes. -/
theorem length_bytes (text : Text) : text.bytes.length = text.extent.bytes := by
  induction text with
  | nil => rfl
  | cons g rest ih => simp [ih, Glyph.length_bytes]

/-- A text has as many bytes as glyphs, or more. -/
theorem length_le_bytes (text : Text) : text.length ≤ text.bytes.length := by
  induction text with
  | nil => exact Nat.le_refl _
  | cons g text ih =>
    have := g.width_pos
    rw [bytes_cons, List.length_append, Glyph.length_bytes, List.length_cons]
    omega

theorem eq_nil_of_bytes_eq_zero {text : Text} (h : text.extent.bytes = 0) : text = [] := by
  cases text with
  | nil => rfl
  | cons g rest =>
    have := g.width_pos
    simp at h
    omega

/-- Of two beginnings of a text the one with as many bytes is the other. -/
theorem prefix_unique {a b c d : Text} (same : a ++ b = c ++ d)
    (bytes : a.extent.bytes = c.extent.bytes) : a = c ∧ b = d := by
  induction a generalizing c with
  | nil =>
    have : c = [] := eq_nil_of_bytes_eq_zero bytes.symm
    subst this
    exact ⟨rfl, same⟩
  | cons g a ih =>
    cases c with
    | nil =>
      have : g :: a = [] := eq_nil_of_bytes_eq_zero bytes
      contradiction
    | cons g' c =>
      obtain ⟨rfl, rest⟩ := List.cons.inj same
      obtain ⟨rfl, rfl⟩ := ih rest (by simpa using bytes)
      exact ⟨rfl, rfl⟩

theorem dropBytes_append (a b : Text) : dropBytes (a ++ b) a.extent.bytes = b := by
  induction a with
  | nil =>
    cases b with
    | nil => rfl
    | cons g rest => rfl
  | cons g a ih =>
    have := g.width_pos
    rw [List.cons_append, extent_cons, Extent.bytes_add, Glyph.bytes_extent, dropBytes,
      if_neg (by omega), Nat.add_sub_cancel_left, ih]

/-! ### Places -/

/-- A place of a text: the extent of a first part of it. -/
def IsPlace (text : Text) (p : Extent) : Prop :=
  ∃ before after, text = before ++ after ∧ p = before.extent

theorem isPlace_zero (text : Text) : text.IsPlace .zero :=
  ⟨[], text, rfl, rfl⟩

/-- The bytes before a place determine it. -/
theorem IsPlace.unique {text : Text} {p q : Extent} (hp : text.IsPlace p) (hq : text.IsPlace q)
    (same : p.bytes = q.bytes) : p = q := by
  obtain ⟨before, after, split, rfl⟩ := hp
  obtain ⟨before', after', split', rfl⟩ := hq
  rw [(prefix_unique (split.symm.trans split') same).1]

end Text

namespace Cursor

/-- The cursor `d` stands behind the text `between` that is ahead of `c`. -/
def Reaches (c : Cursor) (between : Text) (d : Cursor) : Prop :=
  c.rest = between ++ d.rest ∧ d.pos = c.pos + between.extent

theorem Reaches.refl (c : Cursor) : c.Reaches [] c :=
  ⟨rfl, by simp⟩

/-- One glyph further. -/
theorem Reaches.glyph (pos : Extent) (g : Glyph) (rest : Text) :
    Reaches ⟨pos, g :: rest⟩ [g] ⟨pos + g.extent, rest⟩ :=
  ⟨rfl, by simp⟩

theorem Reaches.trans {c d e : Cursor} {a b : Text} (h : c.Reaches a d) (h' : d.Reaches b e) :
    c.Reaches (a ++ b) e := by
  refine ⟨?_, ?_⟩
  · rw [h.1, h'.1, List.append_assoc]
  · rw [h'.2, h.2, Text.extent_append, Extent.add_assoc]

/-- What was reached first lies on the way to what was reached later. -/
theorem Reaches.sub {c d : Cursor} {a : Text} (h : c.Reaches a d) : d.pos - c.pos = a.extent := by
  rw [h.2]
  exact Extent.add_sub_self _ _

theorem Reaches.bytes_le {c d : Cursor} {a : Text} (h : c.Reaches a d) :
    c.pos.bytes ≤ d.pos.bytes := by
  rw [h.2]
  exact Nat.le_add_right ..

/-- How far a place is from a cursor determines what is ahead there. -/
theorem Reaches.unique {c d e : Cursor} {a b : Text} (h : c.Reaches a d) (h' : c.Reaches b e)
    (same : d.pos.bytes = e.pos.bytes) : d = e := by
  obtain ⟨pos, rest⟩ := d
  obtain ⟨pos', rest'⟩ := e
  obtain ⟨split, rfl⟩ := h
  obtain ⟨split', rfl⟩ := h'
  obtain ⟨rfl, rfl⟩ := Text.prefix_unique (split.symm.trans split') (Nat.add_left_cancel same)
  rfl

/-- Further on there is less ahead. -/
theorem Reaches.length_lt {c d : Cursor} {a : Text} (h : c.Reaches a d)
    (further : c.pos.bytes < d.pos.bytes) : d.rest.length < c.rest.length := by
  cases a with
  | nil =>
    rw [h.2, Text.extent_nil, Extent.add_zero] at further
    exact absurd further (Nat.lt_irrefl _)
  | cons g a =>
    rw [h.1, List.length_append, List.length_cons]
    omega

theorem reaches_advance (c : Cursor) : ∃ between, c.Reaches between c.advance := by
  obtain ⟨pos, rest⟩ := c
  cases rest with
  | nil => exact ⟨[], .refl _⟩
  | cons g rest => exact ⟨[g], .glyph pos g rest⟩

theorem ofPosition_extent (before after : Text) :
    ofPosition (before ++ after) before.extent = ⟨before.extent, after⟩ := by
  rw [ofPosition, Text.dropBytes_append]

end Cursor

end SusSyntax
