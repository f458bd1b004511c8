import SusSyntax.Diagnostics.SyntaxError
import SusSyntax.Language.Descriptor

/-!
Events: what is told about loading the language and about the errors that are found.
-/

namespace SusSyntax

/-- How important an event is. -/
inductive Event.Level where
  | trace | debug | warn
deriving DecidableEq, Repr

/-- Something that is told: a language was loaded or refused, or an error was found. -/
inductive Event where
  | adapted (d : Descriptor)
  | refused (failure : LoadFailure)
  | found (e : SyntaxError)
deriving DecidableEq, Repr

namespace Event

/-- How important an event is. -/
def level : Event → Level
  | .adapted _ => .debug
  | .refused _ => .warn
  | .found _ => .trace

/-- What an event is called. -/
def message : Event → String
  | .adapted _ => "adapted grammar"
  | .refused .nullDescriptor => "null language descriptor"
  | .refused (.incompatibleVersion _) => "incompatible grammar ABI"
  | .found _ => "syntax error"

/-- The part of the library that tells an event. -/
def target : Event → String
  | .found _ => "tree_sitter_sus::syntax"
  | _ => "tree_sitter_sus"

/-- What is told when a descriptor is taken or refused. -/
def ofAdapt : Except LoadFailure Descriptor → Event
  | .ok d => .adapted d
  | .error failure => .refused failure

/-- What is told when this language is loaded. -/
def loaded : Event :=
  ofAdapt (Descriptor.adapt? (some .sus))

/-- What is told when the errors of a tree are listed. -/
def ofTree (t : Tree) : List Event :=
  t.syntaxErrors.map .found

end Event

end SusSyntax
