import SusSyntax.Grammar.Table
import SusSyntax.Vocabulary.Field

/-!
Loading the language: a descriptor is taken if it is there and its version is supported.
-/

namespace SusSyntax

/-- The name of the language. -/
def grammarName : String := "sus"

/-- The oldest version of a descriptor that is supported. -/
def minVersion : Nat := 13

/-- The newest version of a descriptor that is supported. -/
def maxVersion : Nat := 14

/-- The description of a language: its version, and how many symbols, aliases, fields and states
it has. -/
structure Descriptor where
  version : Nat
  symbolCount : Nat
  aliasCount : Nat
  fieldCount : Nat
  stateCount : Nat
deriving DecidableEq, Repr

namespace Descriptor

/-- How many kinds of nodes there are: symbols, and other names for them. -/
def nodeKindCount (d : Descriptor) : Nat :=
  d.symbolCount + d.aliasCount

/-- The description of this language. -/
def sus : Descriptor where
  version := 14
  symbolCount := Symbol.all.length
  aliasCount := 0
  fieldCount := Field.all.length
  stateCount := Grammar.stateCount

end Descriptor

/-- Why a language cannot be loaded. -/
inductive LoadFailure where
  | nullDescriptor
  | incompatibleVersion (found : Nat)
deriving DecidableEq, Repr

namespace LoadFailure

/-- The failure as a sentence. -/
def message : LoadFailure → String
  | .nullDescriptor => "the grammar accessor returned a null language descriptor"
  | .incompatibleVersion found =>
    "grammar ABI version " ++ toString found ++ " is outside the supported range " ++
      toString minVersion ++ "..=" ++ toString maxVersion

/-- What is said to users, whatever the failure. -/
def summary : String :=
  "Error loading Sus grammar"

end LoadFailure

namespace Descriptor

/-- Takes a descriptor if it is there and its version is supported. -/
def adapt? : Option Descriptor → Except LoadFailure Descriptor
  | none => .error .nullDescriptor
  | some d =>
    if minVersion ≤ d.version ∧ d.version ≤ maxVersion then .ok d
    else .error (.incompatibleVersion d.version)

/-- This language can be loaded. -/
theorem adapt?_sus : adapt? (some sus) = .ok sus := rfl

end Descriptor

end SusSyntax
