import SusSyntax.Vocabulary.Rule
import SusSyntax.Vocabulary.Token

/-!
The symbols that label tree nodes: the tokens, the rules and two kinds of error.

Symbols are numbered: first the tokens, then the rules, and the errors at the end of the range of
16-bit numbers. A tree shows the visible symbols only; of these the named ones have a name that is
not a spelling.
-/

namespace SusSyntax

/-- What labels a node of a tree. `error` stands over text that the grammar does not admit;
`skipped` gathers such text while the parser still looks for a place to go on. -/
inductive Symbol where
  | token (t : Token)
  | rule (r : Rule)
  | error
  | skipped
deriving DecidableEq, Repr

namespace Symbol

/-- The number of a symbol. -/
def id : Symbol → Nat
  | .token t => t.id
  | .rule r => Token.all.length + r.ctorIdx
  | .error => 65535
  | .skipped => 65534

/-- Every symbol of the grammar, by number; the errors are not among them. -/
def all : List Symbol :=
  Token.all.map .token ++ Rule.all.map .rule

/-- The symbol of a number. -/
def ofId? (n : Nat) : Option Symbol :=
  if n = 65535 then some .error
  else if n = 65534 then some .skipped
  else all[n]?

/-- How a symbol is called. -/
def name : Symbol → String
  | .token t => t.name
  | .rule r => r.name
  | .error => "ERROR"
  | .skipped => "_ERROR"

/-- A symbol that a tree shows. -/
def isVisible : Symbol → Bool
  | .token t => t.isVisible
  | .rule r => r.isVisible
  | .error => true
  | .skipped => false

/-- A symbol that is called by a name of its own, and not by its spelling. -/
def isNamed : Symbol → Bool
  | .token t => t.isNamed
  | .rule r => r.isNamed
  | .error => true
  | .skipped => false

/-- The two labels of text that the grammar does not admit. -/
def isErroneous : Symbol → Bool
  | .error | .skipped => true
  | _ => false

/-! ### Numbering -/

@[simp] theorem ofId?_id (s : Symbol) : ofId? s.id = some s := by
  cases s with
  | token t => cases t <;> rfl
  | rule r => cases r <;> rfl
  | error => rfl
  | skipped => rfl

theorem id_injective {s t : Symbol} (h : s.id = t.id) : s = t :=
  Option.some.inj (by rw [← ofId?_id s, ← ofId?_id t, h])

end Symbol

end SusSyntax
