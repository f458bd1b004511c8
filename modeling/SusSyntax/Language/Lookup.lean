import SusSyntax.Grammar.Table
import SusSyntax.Vocabulary.Field

/-!
Looking up node kinds by name, and what a state of the automaton knows.
-/

namespace SusSyntax

namespace Symbol

/-- A kind that counts as named has a name of its own and is shown in trees. -/
def isNamedKind (s : Symbol) : Bool :=
  s.isNamed && s.isVisible

/-- The first kind that is shown in trees, has this name and is named or not as asked. -/
def find? (name : String) (named : Bool) : Option Symbol :=
  all.find? fun s => s.isVisible && s.isNamed == named && s.name == name

/-- The number that a name stands for: every beginning of the name of the error kind means the
error kind, and a name that is not found has number 0. -/
def idForName (name : String) (named : Bool) : Nat :=
  if name.toList.isPrefixOf Symbol.error.name.toList then Symbol.error.id
  else ((find? name named).map id).getD 0

end Symbol

namespace Grammar.State

/-- The symbols that a state knows, in order of their numbers, each with the state that follows. -/
def known (s : State) : List (Symbol × State) :=
  (Symbol.all.filter s.knows).map fun x => (x, State.next s x)

/-- The states that follow the symbols of these numbers in turn. A number of no symbol leads to
the error state. -/
def nextAll (s : State) : List Nat → List State
  | [] => []
  | n :: rest =>
    let target := ((Symbol.ofId? n).map s.next).getD errorState
    target :: nextAll target rest

end Grammar.State

end SusSyntax
