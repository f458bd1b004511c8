import SusSyntax.Parse.Recover

/-!
Parsing a text.

The versions are advanced in turn, each until it has got further in the text than the others. Then
the versions are sorted out: what is clearly worse than another version is removed, versions that
agree are merged, and if the best version waits with an error, recovery begins. The parse ends
when a finished tree is cheaper than all versions that are left, or when none are left.
-/

namespace SusSyntax.Parse

open Grammar Lexical

/-! ### Advancing a version -/

/-- What came of the actions of an entry: they were carried out to the end, or they made a version
that is to be looked at again, or nothing. -/
inductive Outcome where
  | done (p : Parse)
  | reduced (p : Parse) (new? : Option Nat)

/-- Carries out the actions of an entry in turn, until the lexeme is used up. A superfluous shift
is passed over. -/
def act (v : Nat) (x : Lexeme) : List Action → Parse → Option Nat → Outcome
  | [], p, new? => .reduced p new?
  | .shift target :: _, p, _ =>
    .done (p.withStack (p.stack.push v (some (x.toTree.withExtra false)) target))
  | .shiftExtra :: _, p, _ =>
    .done (p.withStack (p.stack.push v (some (x.toTree.withExtra true)) (p.stack.state v)))
  | .shiftRepeat _ :: others, p, new? => act v x others p new?
  | .reduce rule size layout :: others, p, new? =>
    let (s, made?) := p.stack.reduce v rule size layout
    act v x others (p.withStack s) (made?.or new?)
  | .accept :: _, p, _ => .done (p.accept v x)
  | .recover :: _, p, _ => .done (p.recover v x)

/-- Advances the version `v` by the lexeme `x`: reduces as long as the table says so, and then
takes the lexeme in. A keyword that has no place here is read as a name; a lexeme that has none at
all is an error, and the version waits. -/
def advanceBy (v : Nat) : Nat → Lexeme → Parse → Parse
  | 0, x, p => p.withStack (p.stack.pause v x)
  | fuel + 1, x, p =>
    let state := p.stack.state v
    match act v x (state.entry x.symbol).actions p none with
    | .done p => p
    | .reduced p (some new) => advanceBy v fuel x (p.withStack (p.stack.replace v new))
    | .reduced p none =>
      if x.isKeyword && x.leaf != .read .identifier &&
          !(state.entry (.token .identifier)).isEmpty then
        advanceBy v fuel x.asIdentifier p
      else if state = errorState then p.recover v x
      else p.withStack (p.stack.pause v x)

/-- Advances the version `v` by one lexeme. -/
def advance (p : Parse) (v : Nat) : Parse :=
  let (p, x) := p.nextLexeme v
  advanceBy v p.stack.patience x p

/-- Advances the version `v` until it is further than `furthest` or has ended; versions after the
first only have to be as far. The answer holds the place that is the furthest now. -/
def advanceBeyond (v : Nat) : Nat → Parse × Nat → Parse × Nat
  | 0, result => result
  | fuel + 1, (p, furthest) =>
    if p.stack.isActive v then
      let p := p.advance v
      let place := (p.stack.pos v).bytes
      if furthest < place || (0 < v && place = furthest) then (p, place)
      else advanceBeyond v fuel (p, furthest)
    else (p, furthest)

/-- Advances the versions from `v` on, also those that are made meanwhile. -/
def advanceFrom (limit : Nat) : Nat → Nat → Parse × Nat → Parse × Nat
  | 0, _, result => result
  | fuel + 1, v, (p, furthest) =>
    if v < p.stack.count then
      advanceFrom limit fuel (v + 1) (advanceBeyond v limit (p, furthest))
    else (p, furthest)

/-! ### Sorting out -/

/-- What comes of comparing a version with those before it: it stays, or it is gone. -/
inductive Place where
  | stays (s : Stack) (v : Nat)
  | gone (s : Stack) (v : Nat)

/-- Compares the version `v`, of this standing, with the versions from `w` on that stand before
it. -/
def settleAgainst (standing : Standing) : Nat → Nat → Nat → Stack → Place
  | 0, _, v, s => .stays s v
  | fuel + 1, w, v, s =>
    if v ≤ w then .stays s v
    else
      let s := s.settle w
      match (s.standing w).compare standing with
      | .takeLeft => .gone (s.remove v) v
      | .preferLeft | .neither =>
        match s.merge? w v with
        | some s => .gone s v
        | none => settleAgainst standing fuel (w + 1) v s
      | .preferRight =>
        match s.merge? w v with
        | some s => .gone s v
        | none => settleAgainst standing fuel (w + 1) v (s.swap v w)
      | .takeRight => settleAgainst standing fuel w (v - 1) (s.remove w)

/-- The smaller of two costs, where none is larger than any. -/
def minCost (a? : Option Nat) (b : Nat) : Option Nat :=
  match a? with
  | some a => some (min a b)
  | none => some b

/-- Sorts out the versions from `v` on; the answer holds the least cost of a version that is not in
error. -/
def sortOut : Nat → Nat → Option Nat → Stack → Stack × Option Nat
  | 0, _, least?, s => (s, least?)
  | fuel + 1, v, least?, s =>
    if s.count ≤ v then (s, least?)
    else if (s.head v).status.isHalted then sortOut fuel v least? (s.remove v)
    else
      let s := s.settle v
      let standing := s.standing v
      let least? := if standing.inError then least? else minCost least? standing.cost
      match settleAgainst standing (v + 1) 0 v s with
      | .stays s v => sortOut fuel (v + 1) least? s
      | .gone s v => sortOut fuel v least? s

/-- Goes through the versions from `v` on, up to `count`: the first one begins its recovery if it
waits and no version before it is pursued; other versions that wait are removed. -/
def resumeFirst : Nat → Nat → Nat → Bool → Option Nat → Parse → Parse × Option Nat
  | 0, _, _, _, least?, p => (p, least?)
  | fuel + 1, v, count, isPursued, least?, p =>
    if count ≤ v then (p, least?)
    else
      match p.stack.waitingFor? v with
      | none => resumeFirst fuel (v + 1) count true least? p
      | some x =>
        if !isPursued && p.finishedCount < Stack.maxVersions then
          let cost := p.stack.cost v
          let p := (p.withStack (p.stack.resume v)).handleError v x
          resumeFirst fuel (v + 1) count true (some cost) p
        else resumeFirst fuel v (count - 1) isPursued least? (p.withStack (p.stack.remove v))

/-- Sorts out the versions and keeps no more than there may be. The answer holds the least cost of a
version that goes on. -/
def condense (p : Parse) : Parse × Option Nat :=
  let count := p.stack.count
  let (s, least?) := sortOut (2 * count + 1) 0 none p.stack
  let s : Stack := ⟨s.cells, s.heads.take Stack.maxVersions⟩
  resumeFirst (s.count + 1) 0 s.count false least? (p.withStack s)

/-! ### The whole parse -/

/-- Whether the finished tree is cheaper than all versions that go on. -/
def isDecided (p : Parse) (least? : Option Nat) : Bool :=
  match p.finished?, least? with
  | some t, some least => t.cost < least
  | some _, none => true
  | none, _ => false

/-- Advances the versions and sorts them out, round by round, to the end. -/
def rounds (limit : Nat) : Nat → Nat → Parse → Parse
  | 0, _, p => p
  | fuel + 1, furthest, p =>
    if p.stack.count = 0 then p
    else
      let (p, furthest) := advanceFrom limit limit 0 (p, furthest)
      let (p, least?) := p.condense
      if p.isDecided least? then p else rounds limit fuel furthest p

/-- The tree of a text that could not be parsed to the end: all of it is one error. -/
def unparsed (text : Text) : Tree :=
  .ofChildren .error [.leaf (.unread text.head?) .zero text.extent false]

/-- Parses a text. -/
def run (text : Text) : Tree :=
  let limit := 16 * (text.length + 16)
  ((start text).rounds limit limit 0).finished?.getD (unparsed text)

end SusSyntax.Parse

namespace SusSyntax

/-- Parses a source, given as bytes. -/
def parse (source : List UInt8) : Tree :=
  Parse.run (Text.decode source)

end SusSyntax
