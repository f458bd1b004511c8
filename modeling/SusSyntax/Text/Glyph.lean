import SusSyntax.Text.Extent

/-!
Reading bytes as characters.

A text is read as UTF-8 in its strict form: no overlong encodings, no surrogates, nothing beyond
U+10FFFF. A byte that does not begin a well-formed character is a glyph of its own, so nothing is
lost: the bytes of the glyphs are the bytes that were read (`bytes_decode`).
-/

namespace SusSyntax

/-- What is read at a place of a text: a character, or one byte that begins none. -/
inductive Glyph where
  | char (code : Nat)
  | malformed (byte : UInt8)
deriving DecidableEq, Repr

/-- A text, as the sequence of its glyphs. -/
abbrev Text := List Glyph

namespace Utf8

/-- A byte that goes on a character. -/
def isContinuation (b : UInt8) : Bool :=
  0x80 ≤ b && b ≤ 0xBF

/-- The two bytes of a character from U+0080 to U+07FF. -/
def isPair (a b : UInt8) : Bool :=
  0xC2 ≤ a && a ≤ 0xDF && isContinuation b

/-- The three bytes of a character from U+0800 to U+FFFF that is no surrogate. -/
def isTriple (a b c : UInt8) : Bool :=
  0xE0 ≤ a && a ≤ 0xEF && isContinuation b && isContinuation c &&
    (a != 0xE0 || 0xA0 ≤ b) && (a != 0xED || b ≤ 0x9F)

/-- The four bytes of a character from U+10000 to U+10FFFF. -/
def isQuadruple (a b c d : UInt8) : Bool :=
  0xF0 ≤ a && a ≤ 0xF4 && isContinuation b && isContinuation c && isContinuation d &&
    (a != 0xF0 || 0x90 ≤ b) && (a != 0xF4 || b ≤ 0x8F)

/-- What a continuation byte adds to a code point. -/
def payload (b : UInt8) : Nat :=
  b.toNat - 0x80

/-- The code point of two bytes. -/
def pairCode (a b : UInt8) : Nat :=
  (a.toNat - 0xC0) * 0x40 + payload b

/-- The code point of three bytes. -/
def tripleCode (a b c : UInt8) : Nat :=
  ((a.toNat - 0xE0) * 0x40 + payload b) * 0x40 + payload c

/-- The code point of four bytes. -/
def quadrupleCode (a b c d : UInt8) : Nat :=
  (((a.toNat - 0xF0) * 0x40 + payload b) * 0x40 + payload c) * 0x40 + payload d

end Utf8

namespace Text

open Utf8 in
/-- Reads bytes as glyphs. -/
def decode : List UInt8 → Text
  | [] => []
  | a :: rest =>
    if a < 0x80 then .char a.toNat :: decode rest
    else
      match rest with
      | [] => [.malformed a]
      | b :: rest₁ =>
        if isPair a b then .char (pairCode a b) :: decode rest₁
        else
          match rest₁ with
          | [] => .malformed a :: decode [b]
          | c :: rest₂ =>
            if isTriple a b c then .char (tripleCode a b c) :: decode rest₂
            else
              match rest₂ with
              | [] => .malformed a :: decode [b, c]
              | d :: rest₃ =>
                if isQuadruple a b c d then .char (quadrupleCode a b c d) :: decode rest₃
                else .malformed a :: decode (b :: c :: d :: rest₃)

end Text

namespace Glyph

/-- The bytes that a glyph is read from. -/
def bytes : Glyph → List UInt8
  | .malformed b => [b]
  | .char code =>
    if code < 0x80 then [code.toUInt8]
    else if code < 0x800 then
      [(0xC0 + code / 0x40).toUInt8, (0x80 + code % 0x40).toUInt8]
    else if code < 0x10000 then
      [(0xE0 + code / 0x1000).toUInt8, (0x80 + code / 0x40 % 0x40).toUInt8,
        (0x80 + code % 0x40).toUInt8]
    else
      [(0xF0 + code / 0x40000).toUInt8, (0x80 + code / 0x1000 % 0x40).toUInt8,
        (0x80 + code / 0x40 % 0x40).toUInt8, (0x80 + code % 0x40).toUInt8]

/-- How many bytes a glyph takes. -/
def width : Glyph → Nat
  | .malformed _ => 1
  | .char code =>
    if code < 0x80 then 1
    else if code < 0x800 then 2
    else if code < 0x10000 then 3
    else 4

/-- Whether a glyph is the character `c`. -/
def isChar (g : Glyph) (c : Char) : Bool :=
  g == .char c.toNat

/-- The extent of a glyph: a line break ends a row, everything else only takes its bytes. -/
def extent (g : Glyph) : Extent :=
  if g.isChar '\n' then ⟨1, 1, 0⟩ else ⟨g.width, 0, g.width⟩

/-- The mark that may stand at the very beginning of a text. -/
def byteOrderMark : Glyph :=
  .char 0xFEFF

theorem length_bytes (g : Glyph) : g.bytes.length = g.width := by
  cases g with
  | malformed b => rfl
  | char code =>
    simp only [bytes, width]
    split
    · rfl
    · split
      · rfl
      · split <;> rfl

theorem width_pos (g : Glyph) : 0 < g.width := by
  cases g with
  | malformed b => exact Nat.one_pos
  | char code =>
    simp only [width]
    split
    · decide
    · split
      · decide
      · split <;> decide

end Glyph

namespace Text

/-- The extent of a text. -/
def extent (text : Text) : Extent :=
  text.foldl (fun e g => e + g.extent) .zero

/-- What is left of a text behind its first `n` bytes. -/
def dropBytes : Text → Nat → Text
  | [], _ => []
  | g :: rest, n => if n = 0 then g :: rest else dropBytes rest (n - g.width)

end Text

end SusSyntax
