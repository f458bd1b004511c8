import SusSyntax.Parse.Basic

/-!
Going on after an error.

A version that cannot use the next lexeme makes all reductions that are possible at all, tries
whether one token put in would help, and then leaves text out. For every lexeme that follows it
looks back for a state that can use it: what lies above that state becomes an error. Beside that
the lexeme itself is left out, unless another version is already doing better.
-/

namespace SusSyntax.Parse

open Grammar Lexical

/-! ### Whether it is worth the cost -/

/-- Whether one of the versions `others` is clearly better than the version `v` would be at this
cost. The versions that are looked at have their marks settled. -/
def isBeaten (v cost : Nat) : List Nat → Stack → Stack × Bool
  | [], s => (s, false)
  | w :: others, s =>
    if w = v || !s.isActive w || (s.pos w).bytes < (s.pos v).bytes then isBeaten v cost others s
    else
      let mine : Standing := ⟨cost, s.progressSinceError v, false⟩
      let s := s.settle w
      match mine.compare (s.standing w) with
      | .takeRight => (s, true)
      | .preferRight => if s.canMerge w v then (s, true) else isBeaten v cost others s
      | _ => isBeaten v cost others s

/-- Whether there is something better than what the version `v` would be at this cost: a finished
tree, or another version. -/
def hasBetter (p : Parse) (v cost : Nat) : Parse × Bool :=
  let finishedIsBetter : Bool := match p.finished? with
    | some t => t.cost ≤ cost
    | none => false
  if finishedIsBetter then (p, true)
  else
    let (s, beaten) := isBeaten v cost (List.range p.stack.count) (p.stack.settle v)
    (p.withStack s, beaten)

/-! ### Going back -/

/-- Puts trees, as one error, on the version `w`, which has gone back to the state `goal`. An
error that lies on top there is taken in, and comments at the end stay behind. -/
def putError (s : Stack) (w : Nat) (goal : State) (trees : List Tree) : Stack :=
  let (s, error?) := s.popError w
  let (left, extras) :=
    Tree.splitTrailingExtras ((error?.map Tree.children).getD [] ++ trees)
  let s :=
    if left.isEmpty then s
    else s.push w (some ((Tree.ofChildren .error left).withExtra true)) goal
  s.pushAll w extras goal

/-- Goes back by `depth` trees from the version `v`, to the state `goal`; versions that come out
elsewhere are given up. Says whether there is one that does not. -/
def goBack (s : Stack) (v depth : Nat) (goal : State) : Stack × Bool :=
  let (s, slices) := s.pop v depth
  slices.foldl
    (fun (s, found) slice =>
      if s.state slice.version = goal then
        (putError s slice.version goal (slice.ways.headD []), true)
      else (s.halt slice.version, found)) (s, false)

/-- What it costs to leave out everything since a state that was passed, for a version at `pos`. -/
def costSince (passed : Waypoint) (pos : Extent) : Nat :=
  passed.depth * Cost.skippedTree + (pos.bytes - passed.pos.bytes) * Cost.skippedByte +
    (pos.rows - passed.pos.rows) * Cost.skippedLine

/-- Whether one of the first `count` versions is in a state at a place. -/
def isReached (s : Stack) (count : Nat) (state : State) (place : Nat) : Bool :=
  (List.range count).any fun v => s.state v == state && (s.pos v).bytes == place

/-- Tries the states that the version `v` has passed, the nearest first, and goes back to one that
can use the symbol. `cost` is what the version costs and `progress` the progress since its error;
`count` is the number of versions to compare with. Says whether there was such a state. -/
def goBackToUse (symbol : Symbol) (v cost progress count : Nat) :
    List Waypoint → Parse → Parse × Bool
  | [], p => (p, false)
  | passed :: others, p =>
    let pos := p.stack.pos v
    if passed.state = errorState || passed.pos.bytes = pos.bytes ||
        isReached p.stack count passed.state pos.bytes then
      goBackToUse symbol v cost progress count others p
    else
      let (p, better) := p.hasBetter v (cost + costSince passed pos)
      if better then (p, false)
      else if passed.state.knows symbol then
        let depth := if 0 < progress then passed.depth + 1 else passed.depth
        let (s, found) := goBack p.stack v depth passed.state
        if found then (p.withStack s, true)
        else goBackToUse symbol v cost progress count others (p.withStack s)
      else goBackToUse symbol v cost progress count others p

/-- Removes the versions from the number `first` on that are not pursued. -/
def dropInactive (s : Stack) (first : Nat) : Stack :=
  ⟨s.cells, s.heads.take first ++ (s.heads.drop first).filter (·.status.isActive)⟩

/-! ### Leaving text out -/

/-- Gathers a lexeme with what the version `v` has already left out. If there is more than one way
down, the first is taken, and the versions beyond it are removed. -/
def gather (s : Stack) (v : Nat) (skipped : Tree) : Stack × Tree :=
  if 0 < s.progressSinceError v then
    let (s, slices) := s.pop v 1
    match slices.head? with
    | none => (s, skipped)
    | some slice =>
      let s : Stack := ⟨s.cells, s.heads.take (slice.version + 1)⟩
      (s.replace v slice.version, .ofChildren .skipped (slice.ways.headD [] ++ [skipped]))
  else (s, skipped)

/-- Leaves a lexeme out; comments are extras here too. -/
def skip (s : Stack) (v : Nat) (x : Lexeme) : Stack :=
  let t := if (startState.entry x.symbol).takesExtra then x.toTree.withExtra true else x.toTree
  let (s, skipped) := gather s v (.ofChildren .skipped [t])
  s.push v (some skipped) errorState

/-- Ends the version `v` in the error: the whole text becomes one. -/
def acceptError (p : Parse) (v : Nat) (x : Lexeme) : Parse :=
  (p.withStack (p.stack.push v (some (.ofChildren .error [])) startState)).accept v x

/-- Goes on with the version `v`, which is in an error, at the lexeme `x`. -/
def recover (p : Parse) (v : Nat) (x : Lexeme) : Parse :=
  let count := p.stack.count
  let p := p.withStack (p.stack.settle v)
  let cost := p.stack.cost v
  let passed := if x.symbol = .error then [] else (p.stack.head v).passed
  let (p, found) :=
    goBackToUse x.symbol v cost (p.stack.progressSinceError v) count passed p
  let p := p.withStack (dropInactive p.stack count)
  if found && Stack.maxVersions < p.stack.count then p.withStack (p.stack.halt v)
  else if x.isEnd then p.acceptError v x
  else
    let (p, better) := p.hasBetter v (cost + Cost.skippedTree + Tree.textCost x.extent)
    if better then p.withStack (p.stack.halt v) else p.withStack (skip p.stack v x)

/-! ### The error itself -/

/-- Tries to put the token `t` in: it has to lead to another state, where something can be reduced
before the symbol that is ahead. The version that was made is the answer, if it can then take that
symbol. -/
def putIn? (s : Stack) (v : Nat) (ahead : Symbol) (t : Token) : Option (Stack × Bool) :=
  let state := s.state v
  let next := state.next (.token t)
  if next = errorState || next = state || !(next.entry ahead).reducesFirst then none
  else
    let w := s.count
    let s := (s.copy v).push w (some (.leaf (.missing t) .zero .zero false)) next
    some (s.reduceAll w (some ahead))

/-- Tries to put one of the tokens in, until it helps. -/
def putInOne (v : Nat) (ahead : Symbol) : List Token → Stack → Stack × Bool
  | [], s => (s, false)
  | t :: others, s =>
    match putIn? s v ahead t with
    | none => putInOne v ahead others s
    | some (s, true) => (s, true)
    | some (s, false) => putInOne v ahead others s

/-- Opens a gap on each of these versions, and tries to put a token in before it until that has
helped once. -/
def openGaps (ahead : Symbol) : List Nat → Stack × Bool → Stack × Bool
  | [], result => result
  | v :: others, (s, helped) =>
    let (s, helped) := if helped then (s, true) else putInOne v ahead Token.all.tail s
    openGaps ahead others (s.push v none errorState, helped)

/-- Handles the error of the version `v`, which cannot use the lexeme `x`. -/
def handleError (p : Parse) (v : Nat) (x : Lexeme) : Parse :=
  let before := p.stack.count
  let (s, _) := p.stack.reduceAll v none
  let made := s.count - before
  let (s, _) := openGaps x.symbol (v :: (List.range made).map (before + ·)) (s, false)
  let s := (List.range made).foldl (fun s _ => (s.merge? v before).getD s) s
  (p.withStack (s.recordPassed v)).recover v x

end SusSyntax.Parse
