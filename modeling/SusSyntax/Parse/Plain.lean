import SusSyntax.Parse.Basic

/-!
Parsing with a single stack.

The machine has one stack of trees with the states behind them. It reads a lexeme in the state on
top, keeps it through all reductions, takes comments in where they stand, and reads a keyword that
has no place as a name. Where the table has two reductions it may take either; there is no
recovery. `Step` says which steps there are, `Config.moves` lists them, and `mem_moves_iff` says
that the two agree.
-/

namespace SusSyntax.Plain

open Grammar Lexical

/-- A tree on the stack with the state behind it. -/
structure Frame where
  tree : Tree
  state : State
deriving Repr

/-- A configuration: the stack, the topmost frame first, and the lexeme that was read. -/
structure Config where
  frames : List Frame
  read? : Option Lexeme
deriving Repr

/-- What a step does: it reads, carries out an action, or takes a keyword for a name. -/
inductive Move where
  | read
  | act (a : Action)
  | rename
deriving DecidableEq, Repr

/-- The state on top of a stack. -/
def topState : List Frame → State
  | [] => startState
  | f :: _ => f.state

/-- The position behind the trees of a stack. -/
def endOf : List Frame → Extent
  | [] => .zero
  | f :: below => endOf below + f.tree.extent

/-- Takes `k` trees off a stack, with the extras among them: these trees, in the order of the
text, and what is left. -/
def pop : Nat → List Frame → Option (List Tree × List Frame)
  | 0, frames => some ([], frames)
  | _ + 1, [] => none
  | k + 1, f :: below =>
    (pop (if f.tree.isExtra then k + 1 else k) below).map fun (trees, left) =>
      (trees ++ [f.tree], left)

/-- Puts the node of a rule over trees on a stack, and the extras at their end behind it. -/
def putNode (rule : Rule) (layout : Nat) (trees : List Tree) (target : State)
    (frames : List Frame) : List Frame :=
  let (children, extras) := Tree.splitTrailingExtras trees
  (Tree.ofChildren (.rule rule layout) children :: extras).foldl
    (fun frames t => ⟨t, target⟩ :: frames) frames

namespace Config

/-- The configuration that a run begins with. -/
def initial : Config :=
  ⟨[], none⟩

/-- The entry of the table for a lexeme. -/
def entryFor (c : Config) (x : Lexeme) : Entry :=
  (topState c.frames).entry x.symbol

/-- Whether a lexeme is a keyword that has no place here, where a name would have one. -/
def renames (c : Config) (x : Lexeme) : Bool :=
  (c.entryFor x).isEmpty && x.isKeyword && x.leaf != .read .identifier &&
    !((topState c.frames).entry (.token .identifier)).isEmpty

/-- What an action makes of a configuration with the lexeme `x`, if it can be taken. -/
def apply (c : Config) (x : Lexeme) : Action → Option Config
  | .shift target => some ⟨⟨x.toTree.withExtra false, target⟩ :: c.frames, none⟩
  | .shiftExtra => some ⟨⟨x.toTree.withExtra true, topState c.frames⟩ :: c.frames, none⟩
  | .reduce rule size layout => do
    let (trees, left) ← pop size c.frames
    let target ← (topState left).row.goto? rule
    return ⟨putNode rule layout trees target left, some x⟩
  | _ => none

/-- The steps from a configuration on a text. -/
def moves (text : Text) (c : Config) : List (Move × Config) :=
  match c.read? with
  | none => [(.read, ⟨c.frames, some (scan text (topState c.frames) (endOf c.frames))⟩)]
  | some x =>
    if c.renames x then [(.rename, ⟨c.frames, some x.asIdentifier⟩)]
    else (c.entryFor x).actions.filterMap fun a => (c.apply x a).map fun next => (.act a, next)

/-- The tree that the machine accepts with in a configuration. -/
def accepted? (c : Config) : Option Tree :=
  match c.read? with
  | none => none
  | some x =>
    if (c.entryFor x).actions.contains .accept then
      Parse.rootOf? ((c.frames.map Frame.tree).reverse ++ [x.toTree])
    else none

end Config

/-- A step of the machine on a text. -/
inductive Step (text : Text) : Config → Move → Config → Prop where
  | read {frames : List Frame} :
      Step text ⟨frames, none⟩ .read
        ⟨frames, some (scan text (topState frames) (endOf frames))⟩
  | rename {c : Config} {x : Lexeme} : c.read? = some x → c.renames x = true →
      Step text c .rename ⟨c.frames, some x.asIdentifier⟩
  | act {c next : Config} {x : Lexeme} {a : Action} : c.read? = some x → c.renames x = false →
      a ∈ (c.entryFor x).actions → c.apply x a = some next → Step text c (.act a) next

/-- A run of the machine on a text. -/
inductive Run (text : Text) : Config → Config → Prop where
  | done {c : Config} : Run text c c
  | step {a b c : Config} {m : Move} : Step text a m b → Run text b c → Run text a c

/-- The trees that the machine can accept a text with. -/
def Accepts (text : Text) (t : Tree) : Prop :=
  ∃ c, Run text .initial c ∧ c.accepted? = some t

/-! ### The relation and the list of steps -/

theorem mem_moves_iff {text : Text} {c next : Config} {m : Move} :
    (m, next) ∈ c.moves text ↔ Step text c m next := by
  obtain ⟨frames, read?⟩ := c
  cases read? with
  | none =>
    constructor
    · intro mem
      obtain ⟨rfl, rfl⟩ := Prod.mk.inj (List.mem_singleton.mp mem)
      exact .read
    · intro step
      cases step with
      | read => exact List.mem_singleton.mpr rfl
      | rename isRead _ => cases isRead
      | act isRead _ _ _ => cases isRead
  | some x =>
    cases renames : Config.renames ⟨frames, some x⟩ x with
    | true =>
      constructor
      · intro mem
        simp only [Config.moves, renames, if_true] at mem
        obtain ⟨rfl, rfl⟩ := Prod.mk.inj (List.mem_singleton.mp mem)
        exact .rename rfl renames
      · intro step
        simp only [Config.moves, renames, if_true]
        cases step with
        | rename isRead _ =>
          obtain rfl := Option.some.inj isRead
          exact List.mem_singleton.mpr rfl
        | act isRead stays _ _ =>
          obtain rfl := Option.some.inj isRead
          rw [renames] at stays
          cases stays
    | false =>
      constructor
      · intro mem
        simp only [Config.moves, renames, Bool.false_eq_true, if_false] at mem
        obtain ⟨a, known, taken⟩ := List.mem_filterMap.mp mem
        obtain ⟨result, applies, same⟩ := Option.map_eq_some_iff.mp taken
        obtain ⟨rfl, rfl⟩ := Prod.mk.inj same
        exact .act rfl renames known applies
      · intro step
        simp only [Config.moves, renames, Bool.false_eq_true, if_false]
        cases step with
        | rename isRead does =>
          obtain rfl := Option.some.inj isRead
          rw [renames] at does
          cases does
        | act isRead _ known applies =>
          obtain rfl := Option.some.inj isRead
          exact List.mem_filterMap.mpr ⟨_, known, by rw [applies]; rfl⟩

end SusSyntax.Plain
