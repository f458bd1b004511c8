import SusSyntax.Text.Glyph

/-!
Cursors: a place in a text together with the text from there on.
-/

namespace SusSyntax

/-- A place in a text: the extent of what stands before it, and what is left. -/
structure Cursor where
  pos : Extent
  rest : Text
deriving DecidableEq, Repr

namespace Cursor

/-- The cursor of a text at the position `pos`. -/
def ofPosition (text : Text) (pos : Extent) : Cursor :=
  ⟨pos, text.dropBytes pos.bytes⟩

/-- The cursor one glyph further; at the end of the text it stays. -/
def advance (c : Cursor) : Cursor :=
  match c.rest with
  | [] => c
  | g :: rest => ⟨c.pos + g.extent, rest⟩

/-- Whether nothing is left. -/
def atEnd (c : Cursor) : Bool :=
  c.rest.isEmpty

/-- Passes over a byte order mark; it is one only at the beginning of the text. -/
def passByteOrderMark (c : Cursor) : Cursor :=
  if c.pos.bytes = 0 && c.rest.head? == some Glyph.byteOrderMark then c.advance else c

end Cursor

end SusSyntax
