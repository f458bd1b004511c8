import SusSyntax.Tree.Node

/-!
The outline of a tree: an S-expression of its named and its missing nodes.

A node is written as its kind with the outlines of its children, a child with a field behind the
name of the field. Missing tokens and unreadable text have forms of their own.
-/

namespace SusSyntax

namespace Glyph

/-- How the glyph at which reading failed is written: control characters by their escapes, printable
ones in quotes, others by their number. The end of the text is written like NUL. -/
def outline : Option Glyph → String
  | none => "'\\0'"
  | some (.malformed _) => "INVALID"
  | some (.char code) =>
    if code = 0 then "'\\0'"
    else if code = '\n'.toNat then "'\\n'"
    else if code = '\t'.toNat then "'\\t'"
    else if code = '\r'.toNat then "'\\r'"
    else if 32 ≤ code ∧ code ≤ 126 then "'" ++ String.singleton (Char.ofNat code) ++ "'"
    else toString code

end Glyph

namespace Node

/-- Whether a node is written at all, below the root. -/
def isOutlined (n : Node) : Bool :=
  n.isNamed || n.isMissing

/-- What a field puts before the outline of its node. -/
def fieldLabel : Option Field → String
  | none => ""
  | some f => f.label ++ ": "

mutual

/-- The outline of a node. -/
def outline : Node → String
  | ⟨kind, _, _, isMissing, _, stuckAt?, start, stop, children⟩ =>
    if isMissing then
      if kind.isNamed then "(MISSING " ++ kind.name ++ ")"
      else "(MISSING \"" ++ kind.name ++ "\")"
    else if kind = .error ∧ children.isEmpty ∧ start.bytes < stop.bytes then
      "(UNEXPECTED " ++ Glyph.outline stuckAt? ++ ")"
    else "(" ++ kind.name ++ outlineAll children ++ ")"

/-- The outlines of those children that are written, each behind a space. -/
def outlineAll : List Node → String
  | [] => ""
  | n :: rest =>
    (if n.isOutlined then " " ++ fieldLabel n.field ++ n.outline else "") ++ outlineAll rest

end

end Node

end SusSyntax
