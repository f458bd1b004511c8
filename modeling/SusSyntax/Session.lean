import SusSyntax.Diagnostics.SyntaxError
import SusSyntax.Parse.Run
import SusSyntax.Tree.Outline

/-!
Editing a source: a sequence of replacements, each of which is followed by a new parse.
-/

namespace SusSyntax

/-- A replacement of the bytes from `start` to `stop` of a source. -/
structure Edit where
  start : Nat
  stop : Nat
  text : List UInt8
deriving DecidableEq, Repr

namespace Edit

/-- Carries out an edit; none if it reaches beyond the source or ends before it begins. -/
def edited? (e : Edit) (source : List UInt8) : Option (List UInt8) :=
  if e.start ≤ e.stop ∧ e.stop ≤ source.length then
    some (source.take e.start ++ e.text ++ source.drop e.stop)
  else none

end Edit

/-- What is known after a parse in a session. -/
structure Snapshot where
  length : Nat
  tree : Tree

/-- The snapshot of a source. -/
def Snapshot.ofSource (source : List UInt8) : Snapshot :=
  ⟨source.length, parse source⟩

namespace Session

/-- The snapshots after each edit of a source; an edit that cannot be carried out has none, and
changes nothing. -/
def snapshotsFrom (source : List UInt8) : List Edit → List (Option Snapshot)
  | [] => []
  | e :: rest =>
    match e.edited? source with
    | some edited => some (.ofSource edited) :: snapshotsFrom edited rest
    | none => none :: snapshotsFrom source rest

/-- The snapshots of a session: of the source, and after each edit. -/
def snapshots (source : List UInt8) (edits : List Edit) : List (Option Snapshot) :=
  some (.ofSource source) :: snapshotsFrom source edits

end Session

end SusSyntax
