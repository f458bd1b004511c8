import SusSyntax.Language.Lookup
import SusSyntax.Literal.StringLiteral

/-!
Names as constants: the number of a node kind, of a keyword or of a field, from its name.
-/

namespace SusSyntax

/-- What a name is looked up as. -/
inductive Realm where
  | nodeKind
  | keyword
  | field
deriving DecidableEq, Repr

namespace Realm

/-- What the members of a realm are called. -/
def title : Realm → String
  | .nodeKind => "node kind"
  | .keyword => "keyword"
  | .field => "field"

/-- The number of a kind, unless it is that of none. -/
def kindId? (name : String) (named : Bool) : Option Nat :=
  let n := Symbol.idForName name named
  if n = 0 then none else some n

/-- The number of a name. -/
def id? (r : Realm) (name : String) : Option Nat :=
  match r with
  | .nodeKind => kindId? name true
  | .keyword => kindId? name false
  | .field => (Field.ofName? name).map Field.id

end Realm

/-- Why a name stands for no number: the text is not a string literal, or nothing has this name. -/
inductive NameError where
  | literal (problem : Literal.Problem)
  | unknown (realm : Realm) (name : String)
deriving DecidableEq, Repr

namespace NameError

/-- The error as a sentence. -/
def message : NameError → String
  | .literal problem => problem.message
  | .unknown realm name =>
    "`" ++ name ++ "` is not a valid " ++ realm.title ++ " in the SUS grammar"

end NameError

namespace Realm

/-- The number of a name, or an error. -/
def resolve (r : Realm) (name : String) : Except NameError Nat :=
  match r.id? name with
  | some n => .ok n
  | none => .error (.unknown r name)

/-- The number of a name that is given as a string literal. -/
def expand (r : Realm) (text : String) : Except NameError Nat :=
  match Literal.value text with
  | .ok name => r.resolve name
  | .error problem => .error (.literal problem)

end Realm

end SusSyntax
