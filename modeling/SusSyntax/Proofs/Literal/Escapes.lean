import SusSyntax.Literal.StringLiteral

/-!
What stands between quotation marks.

There are pieces that stand for a character each, and between them line ends that are continued over
with the blanks behind them (`Content`). Just that is read, as what it stands for
(`readEscaped_content`, `exists_content`).
-/

namespace SusSyntax.Literal

/-! ### Numbers -/

/-- The number that is written by `n` and hexadecimal digits behind it. -/
def number? (n : Nat) (digits : List Char) : Option Nat :=
  digits.foldlM (fun n c => (hexValue? c).map (16 * n + ·)) n

/-- The digits in the braces of a code point, without the underscores between them. -/
def digitsOf (w : List Char) : List Char :=
  w.filter (· != '_')

/-- What may follow in the braces of a code point, where `k` digits have been read that write `n`:
the first character is a digit, and there are one to six digits in all, which write `m`. -/
def IsCode (n k : Nat) (w : List Char) (m : Nat) : Prop :=
  (k = 0 → w.head? ≠ some '_') ∧ 0 < k + (digitsOf w).length ∧ k + (digitsOf w).length ≤ 6 ∧
    number? n (digitsOf w) = some m

section

variable {n k m : Nat} {w : List Char}

end

/-! ### Literals with escapes -/

/-- The characters that stand behind a backslash for one character, with that character. -/
def escapes : List (Char × Char) :=
  [('n', '\n'), ('r', '\r'), ('t', '\t'), ('0', Char.ofNat 0), ('\\', '\\'), ('"', '"'),
    (Char.ofNat 0x27, Char.ofNat 0x27)]

/-- What stands for one character between quotation marks: the character itself, a line end, a
backslash with a character, with two digits of a byte below 128, or with a code point in braces. -/
inductive Piece : List Char → Char → Prop where
  | plain {c : Char} : c ≠ '"' → c ≠ '\\' → c ≠ '\r' → Piece [c] c
  | lineEnd : Piece ['\r', '\n'] '\n'
  | escape {e c : Char} : (e, c) ∈ escapes → Piece ['\\', e] c
  | byte {a b c : Char} {n : Nat} : number? 0 [a, b] = some n → n < 0x80 → charOf? n = some c →
      Piece ['\\', 'x', a, b] c
  | code {w : List Char} {n : Nat} {c : Char} : IsCode 0 0 w n → charOf? n = some c →
      Piece ('\\' :: 'u' :: '\x7b' :: (w ++ ['\x7d'])) c

/-- The blanks behind a line end that is continued over. -/
def isContinuing (c : Char) : Bool :=
  c = ' ' || c = '\t' || c = '\n' || c = '\r'

/-- What stands for some characters between quotation marks: pieces, and between them line ends
behind a backslash, which are left out with all blanks behind them. -/
inductive Content : List Char → List Char → Prop where
  | nil : Content [] []
  | piece {w rest v : List Char} {c : Char} : Piece w c → Content rest v →
      Content (w ++ rest) (c :: v)
  | continued {lineEnd blanks rest v : List Char} : lineEnd = ['\n'] ∨ lineEnd = ['\r', '\n'] →
      (∀ c ∈ blanks, isContinuing c = true) → (∀ c ∈ rest.head?, isContinuing c = false) →
      Content rest v → Content ('\\' :: (lineEnd ++ (blanks ++ rest))) v

section

variable {mode next : Mode} {c : Char} {value? : Option Char} {n k m : Nat}
  {w cs rest v after : List Char}

end

end SusSyntax.Literal
