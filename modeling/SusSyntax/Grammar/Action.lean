import SusSyntax.Vocabulary.Rule
import SusSyntax.Vocabulary.Token

/-!
What an LR automaton may do: the actions and rows of a parse table.
-/

namespace SusSyntax.Grammar

/-- A state of the automaton, by number. -/
abbrev State := Nat

/-- The state of a parser that looks for a place to go on. -/
def errorState : State := 0

/-- The state that a parse begins in. -/
def startState : State := 1

/-- How the lexer reads in a state: whatever there is, where an operand or a statement is expected,
or behind an operand. -/
inductive LexMode where
  | anything | operand | operator
deriving DecidableEq, Repr

/-- The state of the token automaton that a lex mode enters. -/
def LexMode.entry : LexMode → Nat
  | .anything => 0
  | .operand => 1
  | .operator => 2

/-- What the parser does with a token in a state. `shiftRepeat` is a shift that the reductions
beside it make superfluous; `shiftExtra` takes a comment and stays in the state. In `reduce` stand
the rule, the number of its children and the number of its layout. -/
inductive Action where
  | shift (target : State)
  | shiftRepeat (target : State)
  | shiftExtra
  | reduce (rule : Rule) (size : Nat) (layout : Nat)
  | accept
  | recover
deriving DecidableEq, Repr

/-- An entry of the table: the actions, tried in this order, and whether a token that was read for
another state may be used again in this one. -/
structure Entry where
  actions : List Action
  reusable : Bool
deriving DecidableEq, Repr

namespace Entry

/-- The entry of a token that a state has no use for. -/
def empty : Entry :=
  ⟨[], false⟩

/-- Whether a state can do anything with the token. -/
def isEmpty (e : Entry) : Bool :=
  e.actions.isEmpty

/-- Whether the first thing to do is a reduction. -/
def reducesFirst (e : Entry) : Bool :=
  match e.actions.head? with
  | some (.reduce ..) => true
  | _ => false

/-- Whether the token is taken as an extra, by the last action. -/
def takesExtra (e : Entry) : Bool :=
  e.actions.getLast? == some .shiftExtra

end Entry

/-- A row of the table: the lex mode of a state, the entries of the tokens, grouped, and the states
that follow a rule. -/
structure Row where
  mode : LexMode
  entries : List (Entry × List Token)
  gotos : List (Rule × State)
deriving Repr

namespace Row

/-- The entry of a token. -/
def entry (r : Row) (t : Token) : Entry :=
  ((r.entries.find? (·.2.contains t)).map Prod.fst).getD .empty

/-- The state that follows a rule. -/
def goto? (r : Row) (rule : Rule) : Option State :=
  r.gotos.lookup rule

end Row

/-! ### Spellings for the table -/

namespace Entry

/-- An entry with one action, for a token that may have been read for another state. -/
def shared (a : Action) : Entry :=
  ⟨[a], true⟩

/-- An entry with one action, for a token that has to be read for this state. -/
def exact (a : Action) : Entry :=
  ⟨[a], false⟩

/-- An entry with two actions, for a token that may have been read for another state. -/
def sharedPair (a b : Action) : Entry :=
  ⟨[a, b], true⟩

/-- An entry with two actions, for a token that has to be read for this state. -/
def exactPair (a b : Action) : Entry :=
  ⟨[a, b], false⟩

end Entry

end SusSyntax.Grammar
