import SusSyntax.Proofs.Text.Place

/-!
Reading bytes that are put together.

A glyph is read from the bytes that are ahead, but only as far as they go on a character
(`decode_eq_cons`). So a text is read piece by piece, if no piece begins with a byte that could go on
what stands before it (`decode_append`), and wherever a text is taken apart, other characters can be
put in between.
-/

namespace SusSyntax

namespace Utf8

/-- The bytes of a character, with its code point. -/
inductive IsCode : List UInt8 → Nat → Prop where
  | single {a : UInt8} : a < 0x80 → IsCode [a] a.toNat
  | pair {a b : UInt8} : isPair a b = true → IsCode [a, b] (pairCode a b)
  | triple {a b c : UInt8} : isTriple a b c = true → IsCode [a, b, c] (tripleCode a b c)
  | quadruple {a b c d : UInt8} :
      isQuadruple a b c d = true → IsCode [a, b, c, d] (quadrupleCode a b c d)

theorem IsCode.bytes {bytes : List UInt8} {code : Nat} (h : IsCode bytes code) :
    (Glyph.char code).bytes = bytes := by
  cases h with
  | @single a small =>
    have small : a.toNat < 0x80 := UInt8.lt_iff_toNat_lt.mp small
    simp [Glyph.bytes, small]
  | pair isPair => exact bytes_pairCode isPair
  | triple isTriple => exact bytes_tripleCode isTriple
  | quadruple isQuadruple => exact bytes_quadrupleCode isQuadruple

/-- A character begins with a byte that goes on none, and all others go on the character. -/
theorem IsCode.parts {bytes : List UInt8} {code : Nat} (h : IsCode bytes code) :
    ∃ a rest, bytes = a :: rest ∧ isContinuation a = false ∧
      ∀ b ∈ rest, isContinuation b = true := by
  have lead {a : UInt8} (low : 0xC2 ≤ a) : isContinuation a = false := by
    rw [← Bool.not_eq_true]
    intro tail
    have bound := (Bool.and_eq_true_iff.mp tail).2
    simp only [decide_eq_true_eq, UInt8.le_iff_toNat_le, UInt8.toNat_ofNat] at low bound
    omega
  cases h with
  | @single a small =>
    refine ⟨a, [], rfl, ?_, nofun⟩
    rw [isContinuation, decide_eq_false (UInt8.not_le.mpr small), Bool.false_and]
  | @pair a b isPair =>
    simp only [Utf8.isPair, Bool.and_eq_true, decide_eq_true_eq] at isPair
    exact ⟨a, [b], rfl, lead isPair.1.1, by simp [isPair.2]⟩
  | @triple a b c isTriple =>
    simp only [Utf8.isTriple, Bool.and_eq_true, decide_eq_true_eq] at isTriple
    obtain ⟨⟨⟨⟨⟨low, _⟩, tail⟩, tail'⟩, _⟩, _⟩ := isTriple
    exact ⟨a, [b, c], rfl, lead (UInt8.le_trans (by decide) low), by simp [tail, tail']⟩
  | @quadruple a b c d isQuadruple =>
    simp only [Utf8.isQuadruple, Bool.and_eq_true, decide_eq_true_eq] at isQuadruple
    obtain ⟨⟨⟨⟨⟨⟨low, _⟩, tail⟩, tail'⟩, tail''⟩, _⟩, _⟩ := isQuadruple
    exact ⟨a, [b, c, d], rfl, lead (UInt8.le_trans (by decide) low), by simp [tail, tail', tail'']⟩

end Utf8

namespace Text

open Utf8

/-- What is ahead is a character, or a byte that begins none. -/
theorem decode_cases (a : UInt8) (rest : List UInt8) :
    (∃ bytes code others, IsCode bytes code ∧ a :: rest = bytes ++ others ∧
        decode (a :: rest) = .char code :: decode others) ∨
      (∀ bytes code, IsCode bytes code → ¬bytes <+: a :: rest) ∧
        decode (a :: rest) = .malformed a :: decode rest := by
  generalize same : a :: rest = source
  fun_cases decode source with
  | case1 => cases same
  | case2 a' rest' isAscii => exact .inl ⟨[a'], _, rest', .single isAscii, rfl, rfl⟩
  | case4 a' _ b rest' isPair => exact .inl ⟨[a', b], _, rest', .pair isPair, rfl, rfl⟩
  | case6 a' _ b _ c rest' isTriple =>
    exact .inl ⟨[a', b, c], _, rest', .triple isTriple, rfl, rfl⟩
  | case8 a' _ b _ c _ d rest' isQuadruple =>
    exact .inl ⟨[a', b, c, d], _, rest', .quadruple isQuadruple, rfl, rfl⟩
  | case3 | case5 | case7 | case9 =>
    obtain ⟨rfl, rfl⟩ := List.cons.inj same
    refine .inr ⟨fun bytes code isCode ahead => ?_, rfl⟩
    cases isCode with
    | single small =>
      obtain ⟨rfl, -⟩ := List.cons_prefix_cons.mp ahead
      contradiction
    | pair | triple | quadruple => simp_all [List.cons_prefix_cons]

/-- A character is read from its bytes, whatever comes behind them. -/
theorem decode_code {bytes : List UInt8} {code : Nat} (h : IsCode bytes code)
    (rest : List UInt8) : decode (bytes ++ rest) = .char code :: decode rest := by
  have high {a b : UInt8} (low : b ≤ a) (beyond : 0x80 ≤ b) : ¬a < 0x80 :=
    UInt8.not_lt.mpr (UInt8.le_trans beyond low)
  have notPair {a : UInt8} (b : UInt8) (low : 0xE0 ≤ a) : isPair a b = false := by
    have above : ¬a ≤ 0xDF := UInt8.not_le.mpr (UInt8.lt_of_lt_of_le (by decide) low)
    simp [isPair, above]
  cases h with
  | @single a small => simp [decode.eq_def (a :: rest), small]
  | @pair a b isPair =>
    have bounds := isPair
    simp only [Utf8.isPair, Bool.and_eq_true, decide_eq_true_eq] at bounds
    rw [decode.eq_def]
    simp [high bounds.1.1 (by decide), isPair]
  | @triple a b c isTriple =>
    have bounds := isTriple
    simp only [Utf8.isTriple, Bool.and_eq_true, decide_eq_true_eq] at bounds
    obtain ⟨⟨⟨⟨⟨low, _⟩, _⟩, _⟩, _⟩, _⟩ := bounds
    rw [decode.eq_def]
    simp [high low (by decide), notPair b low, isTriple]
  | @quadruple a b c d isQuadruple =>
    have bounds := isQuadruple
    simp only [Utf8.isQuadruple, Bool.and_eq_true, decide_eq_true_eq] at bounds
    obtain ⟨⟨⟨⟨⟨⟨low, _⟩, _⟩, _⟩, _⟩, _⟩, _⟩ := bounds
    have above : ¬a ≤ 0xEF := UInt8.not_le.mpr (UInt8.lt_of_lt_of_le (by decide) low)
    have notTriple : isTriple a b c = false := by simp [isTriple, above]
    rw [decode.eq_def]
    simp [high low (by decide), notPair b (UInt8.le_trans (by decide) low), notTriple, isQuadruple]

/-- Where no character is ahead, a byte is read alone. -/
theorem decode_malformed {a : UInt8} {rest : List UInt8}
    (none : ∀ bytes code, IsCode bytes code → ¬bytes <+: a :: rest) :
    decode (a :: rest) = .malformed a :: decode rest := by
  rcases decode_cases a rest with ⟨bytes, code, others, isCode, split, -⟩ | ⟨-, read⟩
  · exact absurd (split ▸ List.prefix_append _ _) (none bytes code isCode)
  · exact read

/-- What is read first from bytes, and how. -/
theorem decode_eq_cons {source : List UInt8} {g : Glyph} {text : Text}
    (h : decode source = g :: text) : ∃ rest, source = g.bytes ++ rest ∧ decode rest = text ∧
      ((∃ code, g = .char code ∧ IsCode g.bytes code) ∨ ∃ a, g = .malformed a ∧
        ∀ bytes code, IsCode bytes code → ¬bytes <+: a :: rest) := by
  cases source with
  | nil => cases h
  | cons a rest =>
    rcases decode_cases a rest with ⟨bytes, code, others, isCode, split, read⟩ | ⟨none, read⟩
    · obtain ⟨rfl, rfl⟩ := List.cons.inj (read.symm.trans h)
      exact ⟨others, by rw [isCode.bytes, split], rfl,
        .inl ⟨code, rfl, isCode.bytes.symm ▸ isCode⟩⟩
    · obtain ⟨rfl, rfl⟩ := List.cons.inj (read.symm.trans h)
      exact ⟨rest, rfl, rfl, .inr ⟨a, rfl, none⟩⟩

/-! ### Pieces of a text -/

/-- A text can be read from the bytes of its second part alone. -/
theorem decode_bytes_of_append {source : List UInt8} {u v : Text} (h : decode source = u ++ v) :
    decode v.bytes = v := by
  induction u generalizing source with
  | nil =>
    have whole := bytes_decode source
    rw [h, List.nil_append] at whole
    rw [whole]
    exact h
  | cons g u ih =>
    obtain ⟨rest, -, read, -⟩ := decode_eq_cons h
    exact ih read

/-- Bytes that go on a character do not reach to where another one begins. -/
theorem prefix_of_continuations {bytes front other : List UInt8} (ahead : bytes <+: front ++ other)
    (tails : ∀ b ∈ bytes, isContinuation b = true)
    (starts : ∀ b ∈ other.head?, isContinuation b = false) : bytes <+: front := by
  induction front generalizing bytes with
  | nil =>
    cases bytes with
    | nil => exact List.nil_prefix
    | cons b bytes =>
      obtain ⟨rest, rfl⟩ := ahead
      have first := starts b rfl
      rw [tails b List.mem_cons_self] at first
      cases first
  | cons c front ih =>
    cases bytes with
    | nil => exact List.nil_prefix
    | cons b bytes =>
      obtain ⟨rfl, others⟩ := List.cons_prefix_cons.mp ahead
      exact List.cons_prefix_cons.mpr ⟨rfl, ih others (List.forall_mem_cons.mp tails).2⟩

/-- What is read first from bytes is read in the same way where something else comes behind it, if
that does not go on what stands before it, or if what stands before it is in characters. -/
theorem decode_append {source other : List UInt8} {u v : Text} (h : decode source = u ++ v)
    (apart : (∀ b ∈ other.head?, isContinuation b = false) ∨ ∀ g ∈ u, ∃ code, g = .char code) :
    decode (u.bytes ++ other) = u ++ decode other := by
  induction u generalizing source with
  | nil => rfl
  | cons g u ih =>
    obtain ⟨rest, -, read, kind⟩ := decode_eq_cons h
    have later := ih read (apart.imp id fun chars => (List.forall_mem_cons.mp chars).2)
    have split : bytes u ++ v.bytes = rest := by
      rw [← bytes_append, ← bytes_decode rest, read]
      rfl
    rw [bytes_cons, List.append_assoc]
    rcases kind with ⟨code, rfl, isCode⟩ | ⟨a, rfl, none⟩
    · rw [decode_code isCode, later, List.cons_append]
    · have starts := apart.resolve_right fun chars => by
        obtain ⟨code, same⟩ := chars _ List.mem_cons_self
        cases same
      rw [List.cons_append, ← later]
      refine decode_malformed fun bytes code isCode ahead => none bytes code isCode ?_
      obtain ⟨b, others, rfl, -, tails⟩ := isCode.parts
      obtain ⟨rfl, behind⟩ := List.cons_prefix_cons.mp ahead
      have behind : others <+: bytes u ++ other := behind
      rw [← split]
      exact List.cons_prefix_cons.mpr ⟨rfl,
        (prefix_of_continuations behind tails starts).trans (List.prefix_append _ _)⟩

/-- Bytes that are characters alone are read one by one. -/
theorem decode_ascii {ascii : List UInt8} (low : ∀ b ∈ ascii, b < 0x80) (rest : List UInt8) :
    decode (ascii ++ rest) = ascii.map (fun b => .char b.toNat) ++ decode rest := by
  induction ascii with
  | nil => rfl
  | cons b ascii ih =>
    obtain ⟨first, others⟩ := List.forall_mem_cons.mp low
    rw [List.cons_append, ← List.singleton_append, decode_code (.single first), ih others]
    rfl

theorem isContinuation_of_lt {b : UInt8} (low : b < 0x80) : isContinuation b = false := by
  rw [isContinuation, decide_eq_false (UInt8.not_le.mpr low), Bool.false_and]

/-! ### Putting in -/

/-- What stands before and behind a place of a source. -/
theorem take_drop_of_decode {source : List UInt8} {u v : Text} (h : decode source = u ++ v) :
    source.take u.extent.bytes = u.bytes ∧ source.drop u.extent.bytes = v.bytes := by
  have whole := bytes_decode source
  rw [h, bytes_append] at whole
  rw [← whole, ← length_bytes]
  exact ⟨List.take_left .., List.drop_left ..⟩

/-- Where other bytes are put in between the parts of a text, it is these that are read there, if they
do not go on what stands before them, nor are gone on by what stands behind them. -/
theorem decode_insert {source new : List UInt8} {u m v : Text} (h : decode source = u ++ v)
    (starts : ∀ b ∈ new.head?, isContinuation b = false)
    (ends : decode (new ++ v.bytes) = m ++ decode v.bytes) :
    decode (source.take u.extent.bytes ++ new ++ source.drop u.extent.bytes) = u ++ (m ++ v) := by
  have known := decode_bytes_of_append h
  obtain ⟨front, back⟩ := take_drop_of_decode h
  rw [front, back, List.append_assoc]
  cases new with
  | nil =>
    rw [List.nil_append] at ends ⊢
    have whole := bytes_decode source
    rw [h, bytes_append] at whole
    rw [whole, h, ← known, ← ends, known]
  | cons b new =>
    have apart : ∀ c ∈ (b :: new ++ v.bytes).head?, isContinuation c = false := starts
    rw [decode_append h (.inl apart), ends, known]

end Text

end SusSyntax
