import SusSyntax.Grammar.Table

/-!
The LR machine of the parse table, on sequences of tokens.

A configuration is a stack of states and the tokens that are left. The machine shifts, passes over
comments, and reduces; a superfluous shift is never taken, and where the table has two reductions
the machine may take either. `Step` says which steps there are, `Config.moves` lists them, and
`mem_moves_iff` says that the two agree.
-/

namespace SusSyntax.Grammar.Machine

/-- A configuration: the states, the topmost first, and the tokens that are left. -/
structure Config where
  states : List State
  ahead : List Token
deriving DecidableEq, Repr

namespace Config

/-- The configuration that a run on these tokens begins with. -/
def initial (w : List Token) : Config :=
  ⟨[startState], w⟩

/-- The token that is ahead; behind the last one the end of the text. -/
def lookahead (c : Config) : Token :=
  c.ahead.headD .eof

/-- The actions that the table has for a configuration. -/
def actions (c : Config) : List Action :=
  match c.states with
  | [] => []
  | s :: _ => (s.row.entry c.lookahead).actions

/-- What an action makes of a configuration, if it can be taken. -/
def apply (c : Config) : Action → Option Config
  | .shift target =>
    match c.ahead with
    | [] => none
    | _ :: rest => some ⟨target :: c.states, rest⟩
  | .shiftExtra =>
    match c.ahead with
    | [] => none
    | _ :: rest => some ⟨c.states, rest⟩
  | .reduce rule size _ =>
    match c.states.drop size with
    | [] => none
    | s :: below => (s.row.goto? rule).map fun target => ⟨target :: s :: below, c.ahead⟩
  | _ => none

/-- The steps from a configuration. -/
def moves (c : Config) : List (Action × Config) :=
  c.actions.filterMap fun a => (c.apply a).map fun next => (a, next)

/-- Whether the machine accepts in a configuration. -/
def accepts (c : Config) : Bool :=
  c.ahead.isEmpty && c.actions.contains .accept

end Config

/-- A step of the machine, by an action of the table. -/
inductive Step : Config → Action → Config → Prop where
  | shift {s target : State} {below : List State} {t : Token} {rest : List Token} :
      .shift target ∈ (s.row.entry t).actions →
      Step ⟨s :: below, t :: rest⟩ (.shift target) ⟨target :: s :: below, rest⟩
  | shiftExtra {s : State} {below : List State} {t : Token} {rest : List Token} :
      .shiftExtra ∈ (s.row.entry t).actions →
      Step ⟨s :: below, t :: rest⟩ .shiftExtra ⟨s :: below, rest⟩
  | reduce {c : Config} {rule : Rule} {size layout : Nat} {s target : State} {below : List State} :
      .reduce rule size layout ∈ c.actions → c.states.drop size = s :: below →
      s.row.goto? rule = some target →
      Step c (.reduce rule size layout) ⟨target :: s :: below, c.ahead⟩

/-- A run of the machine, with the actions that it takes. -/
inductive Run : Config → List Action → Config → Prop where
  | done {c : Config} : Run c [] c
  | step {a b c : Config} {x : Action} {xs : List Action} :
      Step a x b → Run b xs c → Run a (x :: xs) c

/-- A run on these tokens that ends in acceptance, with the actions that it takes. -/
def AcceptsBy (w : List Token) (xs : List Action) : Prop :=
  ∃ c, Run (.initial w) xs c ∧ c.accepts = true

/-- Whether some run on these tokens ends in acceptance. -/
def Accepts (w : List Token) : Prop :=
  ∃ xs, AcceptsBy w xs

/-! ### The relation and the list of steps -/

theorem mem_moves_iff {c next : Config} {x : Action} : (x, next) ∈ c.moves ↔ Step c x next := by
  constructor
  · intro mem
    obtain ⟨a, known, taken⟩ := List.mem_filterMap.mp mem
    obtain ⟨result, applies, same⟩ := Option.map_eq_some_iff.mp taken
    obtain ⟨rfl, rfl⟩ := Prod.mk.inj same
    obtain ⟨states, ahead⟩ := c
    cases states with
    | nil => simp [Config.actions] at known
    | cons s below =>
      cases a with
      | shift target =>
        cases ahead with
        | nil => simp [Config.apply] at applies
        | cons t rest =>
          obtain rfl := Option.some.inj applies
          exact .shift known
      | shiftExtra =>
        cases ahead with
        | nil => simp [Config.apply] at applies
        | cons t rest =>
          obtain rfl := Option.some.inj applies
          exact .shiftExtra known
      | reduce rule size layout =>
        simp only [Config.apply] at applies
        split at applies
        · exact absurd applies (by simp)
        · rename_i s' below' dropped
          obtain ⟨target, found, rfl⟩ := Option.map_eq_some_iff.mp applies
          exact .reduce known dropped found
      | shiftRepeat target => simp [Config.apply] at applies
      | accept => simp [Config.apply] at applies
      | recover => simp [Config.apply] at applies
  · intro step
    refine List.mem_filterMap.mpr ⟨x, ?_⟩
    cases step with
    | shift known => exact ⟨known, rfl⟩
    | shiftExtra known => exact ⟨known, rfl⟩
    | reduce known dropped found =>
      refine ⟨known, ?_⟩
      simp only [Config.apply, dropped, found]
      rfl

end SusSyntax.Grammar.Machine
