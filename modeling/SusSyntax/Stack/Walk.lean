import SusSyntax.Stack.Basic

/-!
Walking down the stack, and taking trees off it.

Where a cell has several links, a walker follows the first one and a further walker sets out for
each of the others, as long as there are not too many. All walkers take a step in turn. A walker
can be told to stop, and to bring up what it has collected on the way.
-/

namespace SusSyntax

open Grammar

/-- A walker: the cell that it has reached, the trees that it has passed, in the order of the
text, and how many of them were no extras; a gap counts as a tree. -/
structure Walker where
  cell : Nat
  trees : List Tree
  count : Nat

/-- What a walker is told at a cell. -/
inductive Verdict where
  | goOn
  | stop
  | deliver

namespace Verdict

/-- Whether what was collected is brought up. -/
def delivers : Verdict → Bool
  | .deliver => true
  | _ => false

/-- Whether the walk goes on, if there is a link. -/
def continues : Verdict → Bool
  | .goOn => true
  | _ => false

end Verdict

namespace Walker

/-- The walker behind a link. -/
def follow (w : Walker) (l : Link) : Walker :=
  match l.tree? with
  | none => ⟨l.below, w.trees, w.count + 1⟩
  | some t => ⟨l.below, t :: w.trees, if t.isExtra then w.count else w.count + 1⟩

/-- How many walkers there may be. -/
def limit : Nat := 64

end Walker

/-- What walkers have brought up from one cell. -/
structure Haul where
  cell : Nat
  hauls : List (List Tree)

namespace Haul

/-- Adds what was brought up from a cell: to what came from there before, or as a new haul. -/
def add (cell : Nat) (trees : List Tree) : List Haul → List Haul
  | [] => [⟨cell, [trees]⟩]
  | h :: rest =>
    if h.cell = cell then ⟨cell, h.hauls ++ [trees]⟩ :: rest else h :: add cell trees rest

end Haul

namespace Stack

/-- A walk under way: what the visitor knows, what was brought up, the walkers that have taken their
step, and those that have just set out. -/
structure Walk (σ : Type) where
  known : σ
  hauls : List Haul
  walkers : List Walker
  fresh : List Walker

/-- Lets each of the walkers take one step. -/
def stepAll {σ : Type} (s : Stack) (visit : σ → Walker → σ × Verdict) :
    Walk σ → List Walker → Walk σ
  | walk, [] => walk
  | walk, w :: waiting =>
    let (known, verdict) := visit walk.known w
    let hauls := if verdict.delivers then Haul.add w.cell w.trees walk.hauls else walk.hauls
    match verdict.continues, (s.cell w.cell).links with
    | true, first :: others =>
      let room := Walker.limit - (walk.walkers.length + 1 + waiting.length + walk.fresh.length)
      s.stepAll visit
        ⟨known, hauls, walk.walkers ++ [w.follow first],
          walk.fresh ++ (others.take room).map w.follow⟩ waiting
    | _, _ => s.stepAll visit ⟨known, hauls, walk.walkers, walk.fresh⟩ waiting

/-- Steps until no walker is left; the fuel bounds the number of steps. -/
def walkOn {σ : Type} (s : Stack) (visit : σ → Walker → σ × Verdict) :
    Nat → σ → List Haul → List Walker → σ × List Haul
  | 0, known, hauls, _ => (known, hauls)
  | _, known, hauls, [] => (known, hauls)
  | fuel + 1, known, hauls, walkers =>
    let walk := s.stepAll visit ⟨known, hauls, [], []⟩ walkers
    s.walkOn visit fuel walk.known walk.hauls (walk.walkers ++ walk.fresh)

/-- Walks down from a version. -/
def walk {σ : Type} (s : Stack) (v : Nat) (start : σ) (visit : σ → Walker → σ × Verdict) :
    σ × List Haul :=
  s.walkOn visit (s.cells.size + 1) start [] [⟨(s.head v).cell, [], 0⟩]

/-! ### Taking trees off -/

/-- What was taken off in one version: the number of that version, and the trees, in as many ways as
there were paths. -/
structure Slice where
  version : Nat
  ways : List (List Tree)

/-- Adds a version for each haul, with the mark of the version `v`. -/
def addHauls (s : Stack) (v : Nat) (hauls : List Haul) : Stack × List Slice :=
  hauls.foldl
    (fun (s, slices) h => (s.addVersion v h.cell, slices ++ [⟨s.count, h.hauls⟩])) (s, [])

/-- Takes `k` trees off the version `v`, with the extras among them. -/
def pop (s : Stack) (v k : Nat) : Stack × List Slice :=
  s.addHauls v (s.walk v () fun _ w => ((), if w.count = k then .deliver else .goOn)).2

/-- Takes all trees off the version `v`. -/
def popAll (s : Stack) (v : Nat) : Stack × List Slice :=
  s.addHauls v (s.walk v () fun _ w =>
    ((), if (s.cell w.cell).links.isEmpty then .deliver else .goOn)).2

/-- Whether a link of a cell carries an error. -/
def hasErrorOnTop (c : Cell) : Bool :=
  c.links.any fun l => (l.tree?.map Tree.isError).getD false

/-- Takes the error that lies on top off the version `v`, if there is one. -/
def popError (s : Stack) (v : Nat) : Stack × Option Tree :=
  if hasErrorOnTop (s.top v) then
    let hauls := (s.walk v false fun found w =>
      match w.trees.getLast? with
      | none => (found, .goOn)
      | some t => if !found && t.isError then (true, .deliver) else (found, .stop)).2
    match hauls with
    | [] => (s, none)
    | _ =>
      let (s, slices) := s.addHauls v hauls
      let slice := slices.headD ⟨v, []⟩
      (s.replace v slice.version, (slice.ways.headD []).head?)
  else (s, none)

/-! ### Looking back -/

/-- How far back a version looks for a state to go on in. -/
def lookBack : Nat := 16

/-- Whether a state was already passed at a depth; the waypoints stand with the last one first. -/
def isPassed (depth : Nat) (state : State) (lastFirst : List Waypoint) : Bool :=
  (lastFirst.takeWhile fun p => depth ≤ p.depth).any fun p => p.depth == depth && p.state == state

/-- The states that the version `v` has passed, the nearest first. -/
def passedBy (s : Stack) (v : Nat) : List Waypoint :=
  (s.walk v [] fun lastFirst w =>
    let c := s.cell w.cell
    if lookBack < w.count then (lastFirst, .stop)
    else if isPassed w.count c.state lastFirst then (lastFirst, .goOn)
    else (⟨w.count, c.state, c.pos⟩ :: lastFirst, .goOn)).1.reverse

/-- Records the states that the version `v` has passed. -/
def recordPassed (s : Stack) (v : Nat) : Stack :=
  let passed := s.passedBy v
  s.modifyHead v fun h => { h with passed := passed }

end Stack

end SusSyntax
