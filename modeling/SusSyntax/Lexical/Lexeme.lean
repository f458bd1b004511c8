import SusSyntax.Grammar.Table
import SusSyntax.Lexical.KeywordTable
import SusSyntax.Lexical.TokenTable
import SusSyntax.Tree.Basic

/-!
Reading the next lexeme of a text in a state of the parser.

The lexer first reads as the state asks for, then as where anything may stand. Where that fails as
well, text is left out until something can be read again: it becomes a lexeme of unreadable text,
and what stands behind it is read later. An identifier that is spelled like a keyword of the state
is that keyword.
-/

namespace SusSyntax.Lexical

open Grammar

/-- A piece of text that was read: what it is, the blanks before it, its extent, whether it is an
identifier that begins like a keyword, and the state that it was read for. -/
structure Lexeme where
  leaf : Leaf
  padding : Extent
  size : Extent
  isKeyword : Bool
  state : State
deriving Repr

namespace Lexeme

/-- What labels a lexeme. -/
def symbol (x : Lexeme) : Symbol :=
  x.leaf.symbol

/-- Whether nothing is left to read. -/
def isEnd (x : Lexeme) : Bool :=
  x.leaf == .read .eof

/-- The extent of a lexeme with the blanks before it. -/
def extent (x : Lexeme) : Extent :=
  x.padding + x.size

/-- The lexeme as a tree; the end of the text is an extra. -/
def toTree (x : Lexeme) : Tree :=
  .leaf x.leaf x.padding x.size x.isEnd

/-- The same text, read as a name. -/
def asIdentifier (x : Lexeme) : Lexeme :=
  { x with leaf := .read .identifier }

end Lexeme

/-- Runs the token automaton in a lex mode. -/
def runMode (mode : LexMode) (c : Cursor) : Run :=
  tokenAutomaton.run mode.entry c

/-- Where a stretch of unreadable text ends: reading is tried at one place after another, from `c`
on, each time where the last attempt got stuck, or one glyph further. -/
def unreadableEnd : Nat → Cursor → Extent
  | 0, c => c.pos
  | fuel + 1, c =>
    let run := runMode .anything c
    if run.accepted.isSome then c.pos
    else if run.stop.pos.bytes = c.pos.bytes then
      if c.atEnd then c.pos else unreadableEnd fuel c.advance
    else unreadableEnd fuel run.stop

/-- The lexeme of unreadable text, from the place `c` on, where reading failed by `failed`. -/
def unreadable (s : State) (c : Cursor) (failed : Run) : Lexeme :=
  let fuel := failed.stop.rest.length + 1
  let stop :=
    if failed.stop.pos.bytes = failed.start.bytes then
      if failed.stop.atEnd then failed.start else unreadableEnd fuel failed.stop.advance
    else unreadableEnd fuel failed.stop
  { leaf := .unread failed.stop.rest.head?
    padding := failed.start - c.pos
    size := stop - failed.start
    isKeyword := false
    state := s }

/-- The keyword that an identifier is read as in the state `s`, from the run of the keyword
automaton and the place where the identifier ends: it has to end there too, and the state has to
know it. -/
def keyword? (s : State) (run : Run) (stop : Extent) : Option Token :=
  match run.accepted with
  | some (k, c) => if c.pos.bytes = stop.bytes && s.knows (.token k) then some k else none
  | none => none

/-- The lexeme of a token that was read in the state `s` from the place `c` on. -/
def readable (text : Text) (s : State) (c : Cursor) (start : Extent) (t : Token) (stop : Extent) :
    Lexeme :=
  let padding := start - c.pos
  let size := stop - start
  if t = .identifier then
    let run := keywordAutomaton.run 0 (.ofPosition text start)
    let k := (keyword? s run stop).getD .identifier
    ⟨.read k, padding, size, run.accepted.isSome, s⟩
  else ⟨.read t, padding, size, false, s⟩

/-- Reads the next lexeme behind the position `pos` of a text, in the state `s`. -/
def scan (text : Text) (s : State) (pos : Extent) : Lexeme :=
  let c := Cursor.ofPosition text pos
  let asAsked := runMode s.lexMode c
  match asAsked.accepted with
  | some (t, stop) => readable text s c asAsked.start t stop.pos
  | none =>
    let asAny := runMode .anything c
    match asAny.accepted with
    | some (t, stop) => readable text s c asAny.start t stop.pos
    | none => unreadable s c asAny

end SusSyntax.Lexical
