import SusSyntax.Literal.Suffix

/-!
Reading a text that has to be one string literal.

A literal is written between quotation marks with escapes, or raw: behind an `r` and at most 255 hash
signs, with as many of them behind the closing mark. But for the blanks behind a continued line, a
carriage return only stands before a line feed. A suffix may follow at once. Blanks and comments
around the literal do not count; documentation comments do.
-/

namespace SusSyntax.Literal

/-- Why a text is not one string literal. -/
inductive Problem where
  | endOfInput
  | notAString
  | trailingToken
deriving DecidableEq, Repr

namespace Problem

/-- The problem as a sentence. -/
def message : Problem → String
  | .endOfInput => "unexpected end of input, expected string literal"
  | .notAString => "expected string literal"
  | .trailingToken => "unexpected token"

end Problem

/-! ### Blanks and comments -/

/-- The characters that count as blanks. -/
def isBlank (c : Char) : Bool :=
  let n := c.toNat
  n == 0x20 || (0x09 ≤ n && n ≤ 0x0D) || n == 0x85 || n == 0xA0 || n == 0x1680 ||
    (0x2000 ≤ n && n ≤ 0x200A) || n == 0x200E || n == 0x200F || n == 0x2028 || n == 0x2029 ||
    n == 0x202F || n == 0x205F || n == 0x3000

/-- Whether characters begin with a text. -/
def beginsWith (cs : List Char) (text : String) : Bool :=
  text.toList.isPrefixOf cs

/-- A line comment that is not documentation. -/
def beginsLineComment (cs : List Char) : Bool :=
  beginsWith cs "//" && (!beginsWith cs "///" || beginsWith cs "////") && !beginsWith cs "//!"

/-- A block comment that is not documentation. -/
def beginsBlockComment (cs : List Char) : Bool :=
  beginsWith cs "/*" &&
    (!beginsWith cs "/**" || beginsWith cs "/***" || beginsWith cs "/**/") && !beginsWith cs "/*!"

/-- What follows a block comment that is open `depth` times; none if it is not closed. -/
def afterBlockComment : Nat → List Char → Option (List Char)
  | depth, '*' :: '/' :: rest =>
    if depth ≤ 1 then some rest else afterBlockComment (depth - 1) rest
  | depth, '/' :: '*' :: rest => afterBlockComment (depth + 1) rest
  | depth, _ :: rest => afterBlockComment depth rest
  | _, [] => none

/-- What follows the blanks and comments at the beginning; the fuel bounds their number. -/
def skipTriviaFrom : Nat → List Char → List Char
  | 0, cs => cs
  | fuel + 1, cs =>
    match cs with
    | [] => []
    | c :: rest =>
      if isBlank c then skipTriviaFrom fuel rest
      else if beginsLineComment cs then skipTriviaFrom fuel (cs.dropWhile (· != '\n'))
      else if beginsBlockComment cs then
        match afterBlockComment 1 (cs.drop 2) with
        | some rest => skipTriviaFrom fuel rest
        | none => cs
      else cs

/-- What follows the blanks and comments at the beginning. -/
def skipTrivia (cs : List Char) : List Char :=
  skipTriviaFrom cs.length cs

/-! ### Literals with escapes -/

/-- The value of a hexadecimal digit. -/
def hexValue? (c : Char) : Option Nat :=
  if '0' ≤ c ∧ c ≤ '9' then some (c.toNat - '0'.toNat)
  else if 'a' ≤ c ∧ c ≤ 'f' then some (c.toNat - 'a'.toNat + 10)
  else if 'A' ≤ c ∧ c ≤ 'F' then some (c.toNat - 'A'.toNat + 10)
  else none

/-- The character of a code point. -/
def charOf? (n : Nat) : Option Char :=
  if n.isValidChar then some (Char.ofNat n) else none

/-- Where in a literal the reader is: in plain text, behind a backslash, before the first or the
second digit of a byte, before or in a code point, behind the carriage return of a line that is
continued, in the blanks behind such a line, or behind another carriage return. -/
inductive Mode where
  | plain
  | escape
  | byteHigh
  | byteLow (high : Nat)
  | codeOpen
  | code (value digits : Nat)
  | continuedReturn
  | continued
  | carriageReturn

/-- What a character does in a literal: it ends it, or stands for a character or none, or is
wrong. -/
inductive Step where
  | close
  | go (next : Mode) (value? : Option Char)
  | wrong

/-- What a character stands for in plain text. -/
def stepPlain (c : Char) : Step :=
  if c = '"' then .close
  else if c = '\\' then .go .escape none
  else if c = '\r' then .go .carriageReturn none
  else .go .plain (some c)

/-- What a character stands for behind a backslash. -/
def stepEscape (c : Char) : Step :=
  match c with
  | 'n' => .go .plain (some '\n')
  | 'r' => .go .plain (some '\r')
  | 't' => .go .plain (some '\t')
  | '0' => .go .plain (some (Char.ofNat 0))
  | '\\' => .go .plain (some '\\')
  | '"' => .go .plain (some '"')
  | 'x' => .go .byteHigh none
  | 'u' => .go .codeOpen none
  | '\n' => .go .continued none
  | '\r' => .go .continuedReturn none
  | _ => if c.toNat = 0x27 then .go .plain (some c) else .wrong

/-- What a character does where the reader is. -/
def step : Mode → Char → Step
  | .plain, c => stepPlain c
  | .escape, c => stepEscape c
  | .byteHigh, c =>
    match hexValue? c with
    | some d => if d < 8 then .go (.byteLow d) none else .wrong
    | none => .wrong
  | .byteLow high, c =>
    match hexValue? c with
    | some d => .go .plain (charOf? (16 * high + d))
    | none => .wrong
  | .codeOpen, c => if c = '\x7b' then .go (.code 0 0) none else .wrong
  | .code value digits, c =>
    if c = '\x7d' then
      match charOf? value with
      | some v => if digits = 0 then .wrong else .go .plain (some v)
      | none => .wrong
    else if c = '_' then if digits = 0 then .wrong else .go (.code value digits) none
    else
      match hexValue? c with
      | some d => if digits < 6 then .go (.code (16 * value + d) (digits + 1)) none else .wrong
      | none => .wrong
  | .continuedReturn, c => if c = '\n' then .go .continued none else .wrong
  | .continued, c =>
    if c = ' ' || c = '\t' || c = '\n' || c = '\r' then .go .continued none else stepPlain c
  | .carriageReturn, c => if c = '\n' then .go .plain (some '\n') else .wrong

/-- Reads up to the closing mark: the value, and what follows. -/
def readEscaped : Mode → List Char → Option (List Char × List Char)
  | _, [] => none
  | mode, c :: rest =>
    match step mode c with
    | .close => some ([], rest)
    | .go next value? =>
      (readEscaped next rest).map fun (value, rest) => (value?.toList ++ value, rest)
    | .wrong => none

/-! ### Raw literals -/

/-- Reads up to a mark with `n` hash signs behind it: the value, and what follows. -/
def readRaw (n : Nat) : List Char → Option (List Char × List Char)
  | [] => none
  | c :: rest =>
    if c = '"' && (List.replicate n '#').isPrefixOf rest then some ([], rest.drop n)
    else if c = '\r' && rest.head? != some '\n' then none
    else (readRaw n rest).map fun (value, rest) => (c :: value, rest)

/-! ### The whole text -/

/-- Reads a string literal at the beginning: its value, and what follows. -/
def readString (cs : List Char) : Option (List Char × List Char) :=
  match cs with
  | '"' :: rest => readEscaped .plain rest
  | 'r' :: rest =>
    let n := (rest.takeWhile (· == '#')).length
    match rest.drop n with
    | '"' :: rest => if n ≤ 255 then readRaw n rest else none
    | _ => none
  | _ => none

/-- What follows the suffix of a literal. -/
def dropSuffix : List Char → List Char
  | [] => []
  | c :: rest =>
    if suffixStart.contains c.toNat then rest.dropWhile (suffixContinue.contains ·.toNat)
    else c :: rest

/-- The characters of a text without the byte order mark that it may begin with. -/
def charsOf (text : String) : List Char :=
  match text.toList with
  | c :: rest => if c.toNat = 0xFEFF then rest else c :: rest
  | [] => []

/-- The value of a text that has to be one string literal. -/
def value (text : String) : Except Problem String :=
  match skipTrivia (charsOf text) with
  | [] => .error .endOfInput
  | cs =>
    match readString cs with
    | none => .error .notAString
    | some (value, rest) =>
      if (skipTrivia (dropSuffix rest)).isEmpty then .ok (String.ofList value)
      else .error .trailingToken

end SusSyntax.Literal
