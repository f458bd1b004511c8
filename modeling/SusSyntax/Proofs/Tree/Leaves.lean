import SusSyntax.Proofs.Lexical.Spellings
import SusSyntax.Proofs.Tree.Comments

/-!
What the leaves of a tree say of the text.

Every token on a leaf has been read from the text at that place, in whatever state and by whichever
version of the parser, and may have been taken for a name later on. Either way the leaf tells the
truth about its text, inside errors as well as outside (`leaf_fits_parse`). Only a missing token has
no text.
-/

namespace SusSyntax

open Lexical

namespace Node

/-- The text of a node is a text of the token `u`. -/
inductive HoldsToken (source : List UInt8) (n : Node) (u : Token) : Prop where
  | intro {before body after : Text} :
      Text.decode source = before ++ (body ++ after) → n.start = before.extent →
      n.stop = (before ++ body).extent →
      (source.take n.stop.bytes).drop n.start.bytes = body.bytes →
      Fits u body after → HoldsToken source n u

/-- A leaf over a token that is not missing has a text of that token. -/
theorem IsGrown.holdsToken {source : List UInt8} {n : Node} {u : Token}
    (h : n.IsGrown (Text.decode source)) (kind : n.kind = .token u) (there : n.isMissing = false) :
    n.HoldsToken source u := by
  obtain ⟨t, notEnd, spells, known⟩ := h.exists_spells kind there
  cases spells with
  | @intro before body after mode split start stop accepted spelled =>
    have fits : Fits t body after := (spelled.resolve_left notEnd).fits accepted
    have bytes : (source.take n.stop.bytes).drop n.start.bytes = body.bytes := by
      rw [← Text.bytes_decode source, split, start, stop, ← Text.length_bytes, ← Text.length_bytes,
        ← List.append_assoc, Text.bytes_append (before ++ body), List.take_left, Text.bytes_append,
        List.drop_left]
    refine .intro split start stop bytes ?_
    rcases known with rfl | ⟨rfl, keyword⟩
    · exact fits
    · rw [split, start, stop] at keyword
      exact keyword.fits fits

end Node

/-- Every leaf of a tree over a token that is not missing has a text of that token: a name, a number
or a comment as far as it goes, or the name of the token itself. -/
theorem leaf_fits_parse (source : List UInt8) :
    ∀ n ∈ (parse source).root.leaves, n.isMissing = false → ∀ u, n.kind = .token u →
      n.HoldsToken source u := by
  intro n mem there u kind
  obtain ⟨⟨x, here, rfl⟩, _⟩ := Node.mem_leaves.mp mem
  exact ((isWhole_parse source).isGrown_of_mem_all x here).holdsToken kind there

/-- In a module that cannot be read there is still a name, which begins like a keyword. -/
theorem leaf_fits_parse_name :
    (parse "module iffy = +".toUTF8.data.toList).syntaxErrors ≠ [] ∧
      ∃ n ∈ (parse "module iffy = +".toUTF8.data.toList).root.leaves, n.isMissing = false ∧
        n.kind = .token .identifier ∧
        n.HoldsToken "module iffy = +".toUTF8.data.toList .identifier := by
  have found : ∃ n ∈ (parse "module iffy = +".toUTF8.data.toList).root.leaves,
      n.isMissing = false ∧ n.kind = .token .identifier := by
    decide +kernel
  obtain ⟨n, mem, there, kind⟩ := found
  exact ⟨by decide +kernel, n, mem, there, kind, leaf_fits_parse _ n mem there _ kind⟩

end SusSyntax
