import SusSyntax.Grammar.Layout
import SusSyntax.Grammar.Table.Rows000
import SusSyntax.Grammar.Table.Rows023
import SusSyntax.Grammar.Table.Rows046
import SusSyntax.Grammar.Table.Rows069
import SusSyntax.Grammar.Table.Rows092
import SusSyntax.Grammar.Table.Rows115
import SusSyntax.Grammar.Table.Rows138
import SusSyntax.Grammar.Table.Rows161
import SusSyntax.Grammar.Table.Rows184
import SusSyntax.Grammar.Table.Rows207
import SusSyntax.Vocabulary.Symbol

/-!
The parse table as a whole, and what can be looked up in it.

A state that does not exist has an empty row. Text that the grammar does not admit has no entries
and leads to no state.
-/

namespace SusSyntax.Grammar

/-- The rows of all states, in order. -/
def rows : List Row :=
  rows000 ++ rows023 ++ rows046 ++ rows069 ++ rows092 ++ rows115 ++ rows138 ++ rows161 ++
    rows184 ++ rows207

/-- The rows of all states, by number. -/
def table : Array Row :=
  rows.toArray

/-- How many states there are. -/
def stateCount : Nat :=
  table.size

namespace State

/-- The row of a state. -/
def row (s : State) : Row :=
  table[s]?.getD ⟨.anything, [], []⟩

/-- How the lexer reads in a state. -/
def lexMode (s : State) : LexMode :=
  s.row.mode

/-- What a state does with a symbol ahead. -/
def entry (s : State) : Symbol → Entry
  | .token t => s.row.entry t
  | _ => .empty

/-- Whether a state knows a symbol at all. -/
def knows (s : State) : Symbol → Bool
  | .token t => !(s.row.entry t).isEmpty
  | .rule r => (s.row.goto? r).isSome
  | _ => false

/-- The state that follows a symbol; the error state where the symbol has no place. For a token that
is the target of its last action, if it is a shift. -/
def next (s : State) : Symbol → State
  | .token t =>
    match (s.row.entry t).actions.getLast? with
    | some (.shift target) => target
    | some (.shiftRepeat target) => target
    | some .shiftExtra => s
    | _ => errorState
  | .rule r => (s.row.goto? r).getD errorState
  | _ => errorState

end State

end SusSyntax.Grammar
