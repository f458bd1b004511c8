import SusSyntax.Parse.Rank
import SusSyntax.Parse.Reduce

/-!
The state of a parse, and how a reading is brought to its end.
-/

namespace SusSyntax

open Grammar Lexical

/-- A parse under way: the text, the versions, the lexeme that was read last with the place where it
was read, the best finished tree, and how many trees were finished. -/
structure Parse where
  text : Text
  stack : Stack
  lastRead? : Option (Nat × Lexeme)
  finished? : Option Tree
  finishedCount : Nat

namespace Parse

/-- The parse of a text at its beginning. -/
def start (text : Text) : Parse :=
  ⟨text, .initial, none, none, 0⟩

/-- The same parse with another stack. -/
def withStack (p : Parse) (s : Stack) : Parse :=
  { p with stack := s }

/-! ### The next lexeme -/

/-- Whether a lexeme can be used again in the state `s`: where it would be read in the same way, and
where the table says that it does not matter. -/
def canReuse (s : State) (x : Lexeme) : Bool :=
  let e := s.entry x.symbol
  if !e.isEmpty && x.state.lexMode == s.lexMode &&
      (x.leaf != .read .identifier || (!x.isKeyword && x.state == s)) then true
  else if x.size.bytes = 0 && !x.isEnd then false
  else e.reusable

/-- The lexeme that was read last, if the version `v` can use it. -/
def reused? (p : Parse) (v : Nat) : Option Lexeme :=
  match p.lastRead? with
  | some (place, x) =>
    if place = (p.stack.pos v).bytes && canReuse (p.stack.state v) x then some x else none
  | none => none

/-- The next lexeme of the version `v`. -/
def nextLexeme (p : Parse) (v : Nat) : Parse × Lexeme :=
  match p.reused? v with
  | some x => (p, x)
  | none =>
    let pos := p.stack.pos v
    let x := scan p.text (p.stack.state v) pos
    ({ p with lastRead? := some (pos.bytes, x) }, x)

/-! ### Finishing -/

/-- The root over all trees of a reading: the last one that is no extra gives the label, and its
children stand among the others. -/
def rootOf? (trees : List Tree) : Option Tree :=
  let (front, extras) := Tree.splitTrailingExtras trees
  match front.getLast? with
  | some (.node label _ _ children) =>
    some (.ofChildren label (front.dropLast ++ children ++ extras))
  | _ => none

/-- Takes a finished tree into account: the better one is kept. -/
def finish (p : Parse) (root : Tree) : Parse :=
  let best := match p.finished? with
    | some old => if old.isReplacedBy root then root else old
    | none => root
  { p with finished? := some best, finishedCount := p.finishedCount + 1 }

/-- Ends the version `v` with the last lexeme `x`: each way down the stack gives a finished tree. -/
def accept (p : Parse) (v : Nat) (x : Lexeme) : Parse :=
  let (s, slices) := (p.stack.push v (some x.toTree) startState).popAll v
  let roots := (slices.flatMap Stack.Slice.ways).filterMap rootOf?
  let s := match slices.head? with
    | some slice => s.remove slice.version
    | none => s
  roots.foldl finish (p.withStack (s.halt v))

end Parse

end SusSyntax
