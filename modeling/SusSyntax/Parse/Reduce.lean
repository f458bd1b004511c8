import SusSyntax.Stack.Merge
import SusSyntax.Stack.Walk
import SusSyntax.Tree.Choice

/-!
Reductions: taking the children of a rule off the stack and putting its node in their place.

Where versions have merged there are several ways down, and each place that is reached becomes a
version. If several ways lead to one place, the best reading is kept. Comments on top of the
children stay behind the new node. A new version that can be merged into an earlier one is.
-/

namespace SusSyntax.Stack

open Grammar

/-- The reading of a rule that was chosen so far, and the extras behind it. -/
structure Reading where
  node : Tree
  extras : List Tree

/-- The reading of a rule from the trees of one way. -/
def Reading.ofTrees (rule : Rule) (layout : Nat) (trees : List Tree) : Reading :=
  let (children, extras) := Tree.splitTrailingExtras trees
  ⟨.ofChildren (.rule rule layout) children, extras⟩

/-- The best of the readings of a rule; of equals without errors the first. -/
def bestReading (rule : Rule) (layout : Nat) : List (List Tree) → Reading
  | [] => .ofTrees rule layout []
  | first :: others =>
    others.foldl
      (fun best trees =>
        let new := Reading.ofTrees rule layout trees
        if best.node.isReplacedBy new.node then new else best)
      (.ofTrees rule layout first)

/-- Puts a node in the place of its children, in one of the versions that came of the version `v`
when the children were taken off. `removed` counts the versions that are gone since then. -/
def putNode (v : Nat) (rule : Rule) (layout : Nat) : Stack × Nat → Slice → Stack × Nat
  | (s, removed), slice =>
    let w := slice.version - removed
    if maxVersions + overflow < w then (s.remove w, removed + 1)
    else
      let best := bestReading rule layout slice.ways
      let next := (s.state w).next (.rule rule)
      let s := (s.push w (some best.node) next).pushAll w best.extras next
      let earlier := (List.range w).filter (· != v)
      match s.mergeInto? earlier w with
      | some merged => (merged, removed + 1)
      | none => (s, removed)

/-- Reduces the version `v` by a rule with `size` children. The version itself stays; the answer
is the first new version, if one is left. -/
def reduce (s : Stack) (v : Nat) (rule : Rule) (size layout : Nat) : Stack × Option Nat :=
  let before := s.count
  let (popped, slices) := s.pop v size
  let (s, _) := slices.foldl (putNode v rule layout) (popped, 0)
  (s, if before < s.count then some before else none)

/-! ### All reductions -/

/-- A reduction that a state admits. -/
structure Reduction where
  rule : Rule
  size : Nat
  layout : Nat
deriving DecidableEq, Repr

/-- Adds a reduction to those found so far, unless there is one of the rule with as many children.
-/
def Reduction.addTo (found : List Reduction) (r : Reduction) : List Reduction :=
  if found.any fun old => old.rule == r.rule && old.size == r.size then found else found ++ [r]

/-- The tokens that an error is looked at for: the one that is ahead or, at the end of the text and
where it does not matter, all of them. There are none for unreadable text. -/
def tokensAhead : Option Symbol → List Token
  | none | some (.token .eof) => Token.all.tail
  | some (.token t) => [t]
  | some _ => []

/-- The actions of a state for these tokens. -/
def actionsFor (state : State) (ahead : List Token) : List Action :=
  ahead.flatMap fun t => (state.row.entry t).actions

/-- Whether an action takes a token into the tree. -/
def takesToken : Action → Bool
  | .shift _ | .recover => true
  | _ => false

/-- The reductions of these actions that take children off. -/
def reductionsOf (actions : List Action) : List Reduction :=
  actions.foldl
    (fun found a =>
      match a with
      | .reduce rule (size + 1) layout => Reduction.addTo found ⟨rule, size + 1, layout⟩
      | _ => found) []

/-- Performs reductions on the version `v`, one beside the other. The answer is the version that the
last of them gave. -/
def reduceEach (s : Stack) (v : Nat) (reductions : List Reduction) : Stack × Option Nat :=
  reductions.foldl (fun (s, _) r => s.reduce v r.rule r.size r.layout) (s, none)

/-- Goes through the versions from `w` on and performs all reductions that are possible for the
tokens `ahead`; `v` is the version to begin with and `first` the number of the first version made
since. `round` counts the versions looked at, and `shifts` says whether one of them could take a
token. A version that can take none gives way to what was made of it or, unless `keeps`, is
removed. -/
def exhaust (ahead : List Token) (keeps : Bool) (v first : Nat) :
    Nat → Nat → Nat → Bool → Stack → Stack × Bool
  | 0, _, _, shifts, s => (s, shifts)
  | fuel + 1, round, w, shifts, s =>
    let count := s.count
    if count ≤ w then (s, shifts)
    else
      match s.mergeInto? ((List.range w).filter (first ≤ ·)) w with
      | some merged => exhaust ahead keeps v first fuel (round + 1) w shifts merged
      | none =>
        let actions := actionsFor (s.state w) ahead
        let (reduced, made) := s.reduceEach w (reductionsOf actions)
        let next := if w = v then count else w + 1
        if actions.any takesToken then
          exhaust ahead keeps v first fuel (round + 1) next true reduced
        else
          match made with
          | some new =>
            if round < maxVersions then
              exhaust ahead keeps v first fuel (round + 1) w shifts (reduced.replace w new)
            else
              exhaust ahead keeps v first fuel (round + 1) next shifts
                (if keeps then reduced else reduced.remove w)
          | none =>
            exhaust ahead keeps v first fuel (round + 1) next shifts
              (if keeps then reduced else reduced.remove w)

/-- Performs all reductions of the version `v` that are possible before a symbol, or before any;
says whether one of the versions that come of it could take the symbol. -/
def reduceAll (s : Stack) (v : Nat) (ahead : Option Symbol) : Stack × Bool :=
  let keeps := match ahead with
    | none | some (.token .eof) => true
    | _ => false
  exhaust (tokensAhead ahead) keeps v s.count (s.patience) 0 v false s

end SusSyntax.Stack
