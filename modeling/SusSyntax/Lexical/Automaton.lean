import SusSyntax.Lexical.Identifiers
import SusSyntax.Text.Cursor
import SusSyntax.Vocabulary.Token

/-!
Lexical automata: deterministic automata over glyphs that accept the longest token.

A run passes from state to state as long as a move admits the next glyph, and remembers the last
place where it could have accepted. Blanks are passed over by moves that put off the beginning of
the token.
-/

namespace SusSyntax.Lexical

/-- What a move asks of the next glyph. No guard admits the end of the text. -/
inductive Guard where
  | char (c : Char)
  | blank
  | digit
  | identifierStart
  | identifierContinue
  | anyBut (cs : List Char)
deriving Repr

/-- Whether a guard admits a glyph. `anyBut` also shuts out the character NUL, and is the only
guard that lets malformed bytes pass. -/
def Guard.admits : Guard → Glyph → Bool
  | .char c, g => g.isChar c
  | .blank, g => g.isChar ' ' || g.isChar '\t' || g.isChar '\r'
  | .digit, .char code => '0'.toNat ≤ code && code ≤ '9'.toNat
  | .identifierStart, .char code => Lexical.identifierStart.contains code
  | .identifierContinue, .char code => Lexical.identifierContinue.contains code
  | .anyBut cs, .char code => code != 0 && cs.all (·.toNat != code)
  | .anyBut _, .malformed _ => true
  | _, .malformed _ => false

/-- A move to another state; `skips` says that the token begins behind the glyph. -/
structure Move where
  guard : Guard
  skips : Bool
  target : Nat
deriving Repr

namespace Move

/-- A move over one character. -/
def on (c : Char) (target : Nat) : Move :=
  ⟨.char c, false, target⟩

/-- A move over a class of glyphs. -/
def via (guard : Guard) (target : Nat) : Move :=
  ⟨guard, false, target⟩

/-- A move over a glyph that is not part of the token. -/
def skip (guard : Guard) (target : Nat) : Move :=
  ⟨guard, true, target⟩

end Move

/-- A state: the token that may end here, the state to go to at the end of the text, and the moves,
of which the first that admits the next glyph is taken. -/
structure LexState where
  accepts : Option Token
  atEnd : Option Nat
  moves : List Move
deriving Repr

namespace LexState

/-- A state where no token ends. -/
def inner (moves : List Move) : LexState :=
  ⟨none, none, moves⟩

/-- A state where the token `t` ends. -/
def final (t : Token) (moves : List Move) : LexState :=
  ⟨some t, none, moves⟩

/-- A state that also knows the end of the text. -/
def ending (target : Nat) (moves : List Move) : LexState :=
  ⟨none, some target, moves⟩

/-- The move for a glyph. -/
def move? (s : LexState) (g : Glyph) : Option Move :=
  s.moves.find? (·.guard.admits g)

end LexState

/-- An automaton: its states, by number. -/
structure Automaton where
  states : Array LexState

/-- How a run ended: the last token that could be accepted with the place behind it, where the token
begins, and the place where no move went on. -/
structure Run where
  accepted : Option (Token × Cursor)
  start : Extent
  stop : Cursor
deriving Repr

namespace Automaton

/-- The state of a number; there are no moves from a number that is not used. -/
def state (a : Automaton) (n : Nat) : LexState :=
  a.states[n]?.getD (.inner [])

/-- What is accepted at the place `c` in the state `n`, where `found` was accepted before. -/
def accepted (a : Automaton) (n : Nat) (c : Cursor) (found : Option (Token × Cursor)) :
    Option (Token × Cursor) :=
  match (a.state n).accepts with
  | some t => some (t, c)
  | none => found

/-- Runs from the state `n` with the text `rest` ahead at `pos`, in a token that began at `start`.
The state that is entered at the end of the text is the last one. -/
def runFrom (a : Automaton) (n : Nat) (found : Option (Token × Cursor)) (start pos : Extent) :
    Text → Run
  | [] =>
    let found := a.accepted n ⟨pos, []⟩ found
    match (a.state n).atEnd with
    | none => ⟨found, start, ⟨pos, []⟩⟩
    | some m => ⟨a.accepted m ⟨pos, []⟩ found, start, ⟨pos, []⟩⟩
  | g :: rest =>
    let found := a.accepted n ⟨pos, g :: rest⟩ found
    match (a.state n).move? g with
    | none => ⟨found, start, ⟨pos, g :: rest⟩⟩
    | some move =>
      let next := pos + g.extent
      a.runFrom move.target found (if move.skips then next else start) next rest

/-- A run that is entered in the state `n` at the place `c`. -/
def run (a : Automaton) (n : Nat) (c : Cursor) : Run :=
  let c := c.passByteOrderMark
  a.runFrom n none c.pos c.pos c.rest

end Automaton

end SusSyntax.Lexical
