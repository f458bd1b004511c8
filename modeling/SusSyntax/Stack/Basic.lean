import SusSyntax.Lexical.Lexeme

/-!
The stack of a parser that pursues several readings at once.

The readings (versions) share what they have in common: the stack is a graph of cells, each with
links to the cells below it, and a version is a head that points to its topmost cell. A version is
active, waits with the lexeme it could not use (paused), or is given up (halted). Versions are
numbered by their place in the list of heads, the more promising ones first.
-/

namespace SusSyntax

open Grammar Lexical

/-- A link of the stack to the cell below; it carries the tree in between, or none where text was
left out. -/
structure Link where
  below : Nat
  tree? : Option Tree
deriving Repr

/-- A cell of the stack: the state, the position in the text, and the cost and the progress of all
trees below, with links to the cells below. -/
structure Cell where
  state : State
  pos : Extent
  cost : Nat
  progress : Nat
  links : List Link
deriving Repr

/-- The cell at the bottom of every stack. -/
def Cell.bottom : Cell :=
  ⟨startState, .zero, 0, 0, []⟩

/-- A state that was passed on the way to a place: how many trees lie above it, and where it was. -/
structure Waypoint where
  depth : Nat
  state : State
  pos : Extent
deriving DecidableEq, Repr

/-- Whether a version is pursued, waits with a lexeme, or is given up. -/
inductive Status where
  | active
  | paused (x : Lexeme)
  | halted
deriving Repr

namespace Status

/-- Whether a version is pursued. -/
def isActive : Status → Bool
  | .active => true
  | _ => false

/-- The lexeme that a version waits with. -/
def waitingFor? : Status → Option Lexeme
  | .paused x => some x
  | _ => none

/-- Whether a version is given up. -/
def isHalted : Status → Bool
  | .halted => true
  | _ => false

end Status

/-- A version: its topmost cell, the progress at its last error, the states passed on the way to
that error, and its status. -/
structure Head where
  cell : Nat
  mark : Nat
  passed : List Waypoint
  status : Status
deriving Repr

/-- The versions of a parse, and the cells that they share. -/
structure Stack where
  cells : Array Cell
  heads : List Head
deriving Repr

namespace Stack

/-- How many versions may be pursued. -/
def maxVersions : Nat := 6

/-- How many versions beyond `maxVersions` there may be for the moment. -/
def overflow : Nat := 4

/-- How many links a cell may have. -/
def maxLinks : Nat := 8

/-- The stack that a parse begins with. -/
def initial : Stack :=
  ⟨#[.bottom], [⟨0, 0, [], .active⟩]⟩

/-- The cell of a number. -/
def cell (s : Stack) (n : Nat) : Cell :=
  s.cells[n]?.getD .bottom

/-- The version of a number. -/
def head (s : Stack) (v : Nat) : Head :=
  s.heads[v]?.getD ⟨0, 0, [], .halted⟩

/-- The topmost cell of a version. -/
def top (s : Stack) (v : Nat) : Cell :=
  s.cell (s.head v).cell

/-- The state of a version. -/
def state (s : Stack) (v : Nat) : State :=
  (s.top v).state

/-- The position of a version in the text. -/
def pos (s : Stack) (v : Nat) : Extent :=
  (s.top v).pos

/-- How many versions there are. -/
def count (s : Stack) : Nat :=
  s.heads.length

/-- Whether a version is pursued. -/
def isActive (s : Stack) (v : Nat) : Bool :=
  (s.head v).status.isActive

/-- The lexeme that a version waits with. -/
def waitingFor? (s : Stack) (v : Nat) : Option Lexeme :=
  (s.head v).status.waitingFor?

/-- A bound on the steps that one lexeme may take. -/
def patience (s : Stack) : Nat :=
  16 * (s.cells.size + 16)

/-! ### Versions -/

/-- Changes a version. -/
def modifyHead (s : Stack) (v : Nat) (f : Head → Head) : Stack :=
  ⟨s.cells, s.heads.modify v f⟩

/-- Removes a version. -/
def remove (s : Stack) (v : Nat) : Stack :=
  ⟨s.cells, s.heads.eraseIdx v⟩

/-- Gives up a version. -/
def halt (s : Stack) (v : Nat) : Stack :=
  s.modifyHead v fun h => { h with status := .halted }

/-- Lets a version wait with a lexeme; this is an error, so its progress is marked. -/
def pause (s : Stack) (v : Nat) (x : Lexeme) : Stack :=
  let progress := (s.top v).progress
  s.modifyHead v fun h => { h with status := .paused x, mark := progress }

/-- Pursues a version again. -/
def resume (s : Stack) (v : Nat) : Stack :=
  s.modifyHead v fun h => { h with status := .active }

/-- Adds a version that stands where `v` stands; it has passed no states yet. -/
def copy (s : Stack) (v : Nat) : Stack :=
  ⟨s.cells, s.heads ++ [{ s.head v with passed := [] }]⟩

/-- Adds an active version at a cell, with the mark of the version `v`. -/
def addVersion (s : Stack) (v cell : Nat) : Stack :=
  ⟨s.cells, s.heads ++ [⟨cell, (s.head v).mark, [], .active⟩]⟩

/-- Puts the version `w` in the place of the version `v`, and removes it from its own. The states
passed by `v` are kept if `w` has none. -/
def replace (s : Stack) (v w : Nat) : Stack :=
  if v = w then s
  else
    let new := s.head w
    let passed := if new.passed.isEmpty then (s.head v).passed else new.passed
    ⟨s.cells, (s.heads.set v { new with passed := passed }).eraseIdx w⟩

/-- Exchanges two versions. -/
def swap (s : Stack) (v w : Nat) : Stack :=
  ⟨s.cells, (s.heads.set v (s.head w)).set w (s.head v)⟩

/-! ### Pushing -/

/-- The cell over the cell number `n`, with a tree in between. -/
def cellOver (s : Stack) (n : Nat) (state : State) (tree? : Option Tree) : Cell :=
  let below := s.cell n
  match tree? with
  | none => ⟨state, below.pos, below.cost, below.progress, [⟨n, none⟩]⟩
  | some t =>
    ⟨state, below.pos + t.extent, below.cost + t.cost, below.progress + t.progress,
      [⟨n, some t⟩]⟩

/-- Pushes a tree on a version. Where there is none, text is going to be left out: this is an
error, so the progress is marked. -/
def push (s : Stack) (v : Nat) (tree? : Option Tree) (state : State) : Stack :=
  let cell := s.cellOver (s.head v).cell state tree?
  let number := s.cells.size
  let heads := s.heads.modify v fun h =>
    { h with cell := number, mark := if tree?.isNone then cell.progress else h.mark }
  ⟨s.cells.push cell, heads⟩

/-- Pushes trees on a version, all with the same state. -/
def pushAll (s : Stack) (v : Nat) (trees : List Tree) (state : State) : Stack :=
  trees.foldl (fun s t => s.push v (some t) state) s

/-! ### Cost and progress -/

/-- Whether a version has just begun to leave text out. -/
def atGap (s : Stack) (v : Nat) : Bool :=
  s.state v == errorState &&
    match (s.top v).links.head? with
    | some link => link.tree?.isNone
    | none => true

/-- What a version costs: its trees, and a recovery if it waits or has just begun to leave text
out. -/
def cost (s : Stack) (v : Nat) : Nat :=
  (s.top v).cost + if (s.waitingFor? v).isSome || s.atGap v then Cost.recovery else 0

/-- The progress of a version since its last error. -/
def progressSinceError (s : Stack) (v : Nat) : Nat :=
  (s.top v).progress - (s.head v).mark

/-- Lowers the mark of a version to its progress, if it lies above. -/
def settle (s : Stack) (v : Nat) : Stack :=
  let progress := (s.top v).progress
  s.modifyHead v fun h => { h with mark := min h.mark progress }

end Stack

end SusSyntax
