import SusSyntax.Proofs.Grammar.Braces
import SusSyntax.Proofs.Lexical.Solid
import SusSyntax.Proofs.Tree.Phrases

/-!
What is left of a source that is cut off inside an object.

A text that ends between two of its pieces is read in the same pieces up to there (`Piece.Laid.cut`), and
whatever pieces it would be accepted in, these have the same braces (`Piece.Spells.count_solid`) and
outside of comments they end with a closing brace (`Piece.Spells.getLast?_of_closed`). Inside an object a
brace is left open, or the last character is none that a source ends with. So the error is always reported
(`truncation_reported`).
-/

namespace SusSyntax

open Grammar Lexical Plain

namespace Lexical.Piece

variable {fresh : Bool} {x y z : Piece} {xs ys zs : List Piece} {gap gap' : Text} {w : List Token}

/-! ### The end of a text -/

/-- The end of the text behind a gap. -/
def ending (gap : Text) (s : State) : Piece :=
  ⟨gap, [], .eof, false, s⟩

theorem reading_nil (s : State) : reading s [] = some (.eof, false, .zero) := by
  rw [reading]
  cases s.lexMode <;> rfl

/-- A text that is cut off where a piece begins or ends is read in the same way up to there. -/
theorem Laid.cut (h : Laid fresh (ys ++ z :: zs)) (ne : ys ≠ []) (gaps : z.gap = gap ++ gap')
    (place : gap' = [] ∨ gap = []) (free : nul ∉ textOf (ys ++ z :: zs)) (s : State) :
    Laid fresh (ys ++ [ending gap s]) := by
  obtain ⟨ys, y, rfl⟩ : ∃ front y, ys = front ++ [y] := by
    obtain ⟨front, y, same⟩ := (List.eq_nil_or_concat ys).resolve_left ne
    exact ⟨front, y, List.concat_eq_append ▸ same⟩
  have split : textOf (ys ++ [y] ++ z :: zs) =
      textOf (ys ++ [y]) ++ gap ++ (gap' ++ (z.body ++ textOf zs)) := by
    simp [gaps]
  have ends : textOf (ys ++ [y] ++ [ending gap s]) = textOf (ys ++ [y]) ++ gap := by
    simp [ending]
  have behind : Laid false (z :: zs) := h.behind_concat
  have blank : IsBlank gap := by
    have blank := behind.1.isBlank
    rw [gaps] at blank
    exact (List.forall_mem_append.mp blank).1
  refine Laid.replace_of_seam h (by simp) ?_ (fun mem => free ?_) ?_ ?_
  · rw [fresh_concat]
    exact ⟨⟨nofun, .inl ⟨blank, nofun⟩⟩, reading_nil s, fun more => absurd rfl more, trivial⟩
  · rw [split]
    exact List.mem_append_left _ (ends ▸ mem)
  · intro front y' back rest same _ isSlash opens rest' opens' closes
    have stands : y'.Stands (textOf (back ++ z :: zs)) := by
      rw [same, List.append_assoc] at h
      exact Laid.stands h.append_right
    have more : rest = rest' ++ (gap' ++ (z.body ++ textOf zs)) := by
      have longer : textOf (back ++ z :: zs) =
          textOf (back ++ [ending gap s]) ++ (gap' ++ (z.body ++ textOf zs)) := by
        simp [gaps, ending]
      rw [opens, opens'] at longer
      exact (List.cons.inj longer).2
    have freeRest : nul ∉ rest := by
      intro mem
      refine free ?_
      rw [same, List.append_assoc, textOf_append, List.cons_append, textOf_cons, opens]
      simp [mem]
    rw [opens] at stands
    refine stands.not_closes isSlash freeRest ?_
    rw [more]
    exact closes.trans (List.prefix_append ..).isInfix
  · intro front y' same m mayEnd reaches
    cases gap with
    | nil => exact (inner_accepts mayEnd.inner).2
    | cons g gap =>
      obtain rfl : gap' = [] := place.resolve_right (List.cons_ne_nil g gap)
      have isGap : z.gap = g :: gap := by rw [gaps, List.append_nil]
      rw [textOf_cons, isGap] at reaches
      have first := blank g List.mem_cons_self
      have blank' : ∀ b ∈ gap, Guard.blank.admits b = true :=
        fun b mem => blank b (List.mem_cons_of_mem _ mem)
      have freeGap : nul ∉ gap := fun mem => absurd (blank' nul mem) (by decide)
      rw [textOf_cons, textOf_nil]
      simp only [ending, List.append_nil]
      refine mayEnd.ends_of_same_head reaches freeGap fun _ isStar => ?_
      rw [isStar] at first
      exact absurd first (by decide)

/-! ### What stands outside of comments -/

variable {u : Token}

/-- A token that is no keyword and no name is taken for itself only. -/
theorem MayBe.eq_iff (h : z.MayBe u) {t : Token} (noKeyword : t ∉ Token.keywords)
    (noName : t ≠ .identifier) : u = t ↔ z.token = t := by
  rcases h with rfl | ⟨keyword, rfl⟩
  · exact Iff.rfl
  · exact iff_of_false noName.symm fun same => noKeyword (same ▸ keyword)

theorem MayBe.count_eq (h : z.MayBe u) {t : Token} (noKeyword : t ∉ Token.keywords)
    (noName : t ≠ .identifier) : [u].count t = [z.token].count t := by
  simp only [List.count_singleton, beq_iff_eq, h.eq_iff noKeyword noName]

/-- Outside of comments there are as many braces as among the tokens. -/
theorem Spells.count_solid (h : Spells zs w) (stands : ∀ z ∈ zs, ∃ after, z.Stands after)
    (keeps : Text.KeepsAscii (textOf zs)) :
    (zs.flatMap solid).count opening = w.count .lbrace ∧
      (zs.flatMap solid).count closing = w.count .rbrace := by
  induction h with
  | nil => exact ⟨rfl, rfl⟩
  | @outside z zs w outside _ ih =>
    obtain ⟨⟨after, here⟩, there⟩ := List.forall_mem_cons.mp stands
    rw [textOf_cons] at keeps
    obtain ⟨-, keeps, keepsRest⟩ := (Text.keepsAscii_append.mp keeps).imp_right Text.keepsAscii_append.mp
    have braces := here.count_solid keeps
    have none : [z.token].count .lbrace = 0 ∧ [z.token].count .rbrace = 0 := by
      revert outside
      rw [isOutside]
      cases z.token <;> decide
    rw [List.flatMap_cons, List.count_append, List.count_append, braces.1, braces.2, none.1, none.2,
      Nat.zero_add, Nat.zero_add]
    exact ih there keepsRest
  | @inside z zs u w _ known _ ih =>
    obtain ⟨⟨after, here⟩, there⟩ := List.forall_mem_cons.mp stands
    rw [textOf_cons] at keeps
    obtain ⟨-, keeps, keepsRest⟩ := (Text.keepsAscii_append.mp keeps).imp_right Text.keepsAscii_append.mp
    have braces := here.count_solid keeps
    have rest := ih there keepsRest
    have first {t : Token} (noKeyword : t ∉ Token.keywords) (noName : t ≠ .identifier) :
        (u :: w).count t = [z.token].count t + w.count t := by
      rw [← known.count_eq noKeyword noName, ← List.count_append]
      rfl
    rw [List.flatMap_cons, List.count_append, List.count_append, braces.1, braces.2, rest.1, rest.2]
    exact ⟨(first (by decide) (by decide)).symm, (first (by decide) (by decide)).symm⟩

/-- A token that is no line break stands outside of comments. -/
theorem Spells.solid_ne_nil (h : Spells zs w) (stands : ∀ z ∈ zs, ∃ after, z.Stands after)
    (some : ∃ t ∈ w, t ≠ .newline) : zs.flatMap solid ≠ [] := by
  induction h with
  | nil =>
    obtain ⟨t, mem, -⟩ := some
    cases mem
  | outside _ _ ih =>
    intro none
    rw [List.flatMap_cons, List.append_eq_nil_iff] at none
    exact ih (List.forall_mem_cons.mp stands).2 some none.2
  | @inside z zs u w inside known _ ih =>
    intro none
    rw [List.flatMap_cons, List.append_eq_nil_iff] at none
    obtain ⟨⟨after, here⟩, there⟩ := List.forall_mem_cons.mp stands
    obtain ⟨t, mem, ne⟩ := some
    rcases List.mem_cons.mp mem with rfl | mem
    · obtain ⟨notEnd, notComment⟩ := Bool.or_eq_false_iff.mp inside
      refine here.solid_ne_nil (by simpa using notEnd) notComment (fun isBreak => ne ?_) none.1
      exact (known.eq_iff (by decide) (by decide)).mpr isBreak
    · exact ih there ⟨t, mem, ne⟩ none.2

/-- The last of some pieces that stands outside of comments. -/
theorem exists_last (some : zs.flatMap solid ≠ []) : ∃ front z back, zs = front ++ z :: back ∧
    z.solid ≠ [] ∧ ∀ y ∈ back, y.solid = [] := by
  induction zs with
  | nil => exact absurd rfl some
  | cons z zs ih =>
    by_cases later : zs.flatMap solid = []
    · refine ⟨[], z, zs, rfl, fun none => some ?_, List.flatMap_eq_nil_iff.mp later⟩
      rw [List.flatMap_cons, none, later]
      rfl
    · obtain ⟨front, y, back, rfl, found⟩ := ih later
      exact ⟨z :: front, y, back, rfl, found⟩

/-- What stands outside of comments ends like the last of the pieces that do. -/
theorem getLast?_solid {front back : List Piece} (none : ∀ y ∈ back, y.solid = [])
    (some : z.solid ≠ []) :
    ((front ++ z :: back).flatMap solid).getLast? = z.solid.getLast? := by
  rw [List.flatMap_append, List.flatMap_cons, List.flatMap_eq_nil_iff.mpr none, List.append_nil,
    List.getLast?_append, List.getLast?_eq_some_getLast some, Option.some_or]

/-- Behind the last piece that stands outside of comments there are line breaks only. -/
theorem Spells.eq_newline (h : Spells zs w) (stands : ∀ z ∈ zs, ∃ after, z.Stands after)
    (none : ∀ z ∈ zs, z.solid = []) : ∀ t ∈ w, t = .newline := by
  intro t mem
  refine Decidable.byContradiction fun ne => ?_
  exact h.solid_ne_nil stands ⟨t, mem, ne⟩ (List.flatMap_eq_nil_iff.mpr none)

/-- A piece that stands outside of comments is a token, and no line break. -/
theorem Stands.inside_of_solid {after : Text} (h : z.Stands after) (some : z.solid ≠ []) :
    z.isOutside = false ∧ z.token ≠ .newline := by
  rw [solid] at some
  split at some
  · exact absurd rfl some
  · rename_i notPassed
    simp only [Bool.or_eq_true, not_or, Bool.not_eq_true, beq_iff_eq] at notPassed
    refine ⟨Bool.or_eq_false_iff.mpr ⟨?_, notPassed.1⟩, notPassed.2⟩
    rcases h.kind with ⟨-, none, -⟩ | ⟨notEnd, -⟩
    · exact absurd none some
    · simpa using notEnd

/-- Outside of comments a source ends with a closing brace, if there is anything. -/
theorem Spells.getLast?_of_closed (h : Spells zs w) (stands : ∀ z ∈ zs, ∃ after, z.Stands after)
    (keeps : Text.KeepsAscii (textOf zs)) (closed : Closed w) (some : zs.flatMap solid ≠ []) :
    (zs.flatMap solid).getLast? = .some closing := by
  obtain ⟨front, z, back, rfl, here, behind⟩ := exists_last some
  obtain ⟨v, w, rfl, -, later⟩ := h.split
  simp only [List.forall_mem_append, List.forall_mem_cons] at stands
  obtain ⟨-, ⟨after, known⟩, standsBack⟩ := stands
  obtain ⟨inside, noBreak⟩ := known.inside_of_solid here
  cases later with
  | outside outside => exact absurd (outside.symm.trans inside) (by decide)
  | @inside _ _ u w _ maybe rest =>
    have isBrace : u = .rbrace := closed v u w rfl
      (fun isBreak => noBreak ((maybe.eq_iff (by decide) (by decide)).mp isBreak))
      (rest.eq_newline standsBack behind)
    have token := (maybe.eq_iff (by decide) (by decide)).mp isBrace
    rw [textOf_append, textOf_cons] at keeps
    have keepsBody := (Text.keepsAscii_append.mp (Text.keepsAscii_append.mp
      (Text.keepsAscii_append.mp keeps).2).2).1
    rw [getLast?_solid behind here, known.solid_of_rbrace keepsBody token]
    rfl

end Lexical.Piece

/-! ### Cuts -/

namespace Lexical.Piece

variable {ys mid zs front back : List Piece} {z y : Piece} {gap gap' : Text}

theorem not_bytes_append_lt (a b : Text) : ¬(a ++ b).extent.bytes < a.extent.bytes := by
  rw [Text.extent_append, Extent.bytes_add]
  exact Nat.not_lt.mpr (Nat.le_add_right ..)

/-- A place strictly between the beginning of some pieces and their end is behind the first of them. -/
theorem exists_between (same : ys ++ z :: mid ++ zs = front ++ y :: back) (gaps : y.gap = gap ++ gap')
    (after : (textOf ys ++ z.gap).extent.bytes < (textOf front ++ gap).extent.bytes)
    (before : (textOf front ++ gap).extent.bytes < (textOf (ys ++ z :: mid)).extent.bytes) :
    ∃ upper lower, front = ys ++ z :: upper ∧ mid = upper ++ y :: lower := by
  have first (split : ys = front) (here : z = y) : False := by
    subst split here
    rw [gaps, ← List.append_assoc] at after
    exact not_bytes_append_lt _ _ after
  rw [List.append_assoc] at same
  rcases List.append_eq_append_iff.mp same with ⟨us, rfl, later⟩ | ⟨us, rfl, later⟩
  · cases us with
    | nil => exact (first (List.append_nil ys).symm (List.cons.inj later).1).elim
    | cons z' upper =>
      obtain ⟨rfl, rest⟩ := List.cons.inj later
      have notBehind (more : List Piece) (split : upper = mid ++ more) : False := by
        subst split
        rw [show ys ++ z :: (mid ++ more) = ys ++ z :: mid ++ more by simp, textOf_append _ more,
          List.append_assoc] at before
        exact not_bytes_append_lt _ _ before
      rcases List.append_eq_append_iff.mp rest with ⟨more, split, -⟩ | ⟨more, rfl, lower⟩
      · exact (notBehind more split).elim
      · cases more with
        | nil => exact (notBehind [] (by simp)).elim
        | cons y' lower' =>
          obtain ⟨rfl, -⟩ := List.cons.inj lower
          exact ⟨upper, lower', rfl, rfl⟩
  · cases us with
    | nil => exact (first (List.append_nil front) (List.cons.inj later).1.symm).elim
    | cons y' us =>
      obtain ⟨rfl, -⟩ := List.cons.inj later
      rw [textOf_append, textOf_cons, gaps, List.append_assoc, List.append_assoc, List.append_assoc,
        ← List.append_assoc] at after
      exact (not_bytes_append_lt _ _ after).elim

end Lexical.Piece

namespace Plain.Parses

variable {pieces : List Piece} {t : Tree}

/-- Where a source is cut inside of an object, a brace is open, or what is left of the object has none and
is more than line breaks. -/
theorem exists_cut_object (h : Parses pieces t) (whole : t.IsWhole (Piece.textOf pieces))
    (clean : t.isClean = true) {x y : Node.Placed} (mem : x ∈ t.root.all)
    (kind : x.node.kind = .rule .globalObject) (mem' : y ∈ t.root.all) {p : Extent}
    (bound : p = y.node.start ∨ p = y.node.stop) (after : x.node.start.bytes < p.bytes)
    (before : p.bytes < x.node.stop.bytes) :
    ∃ ys z mid y zs gap gap' v u, pieces = ys ++ z :: mid ++ y :: zs ∧ y.gap = gap ++ gap' ∧
      (gap' = [] ∨ gap = []) ∧ p = (Piece.textOf (ys ++ z :: mid) ++ gap).extent ∧
      Piece.Spells ys v ∧ Piece.Spells (z :: mid) u ∧
      ((v ++ u).count .rbrace < (v ++ u).count .lbrace ∨ .rbrace ∉ u ∧ ∃ t ∈ u, t ≠ .newline) := by
  obtain ⟨ys, z, mid, zs, v, w, v', rfl, spells, inside, -, source, object, first, last, start, stop⟩ :=
    h.exists_phrase whole clean mem kind nofun
  obtain ⟨front, y, back, gap, gap', split, gaps, rfl, place⟩ :=
    h.exists_cut (h.isFull whole clean) whole.isVisible mem' bound
  rw [start] at after
  rw [stop] at before
  obtain ⟨upper, lower, rfl, rfl⟩ := Piece.exists_between split gaps after before
  obtain ⟨u, rest, rfl, here, there⟩ := (List.cons_append ▸ inside).split
  refine ⟨ys, z, upper, y, back, gap, gap', v, u, split, gaps, place.imp_right And.left, rfl, spells, here,
    cut_of_derives (List.append_assoc v _ v' ▸ source) object ?_ ?_⟩
  · exact Piece.Spells.ne_nil (List.nil_append (z :: upper) ▸ here) first
  · obtain ⟨ends, e, same⟩ := (List.eq_nil_or_concat (y :: lower)).resolve_left (List.cons_ne_nil y lower)
    rw [List.concat_eq_append] at same
    rw [same] at there
    refine there.ne_nil (last e ?_)
    rw [← List.cons_append, same, List.getLast?_append]
    simp

end Plain.Parses

namespace Text

/-- The part of a source up to a place of its text. -/
theorem decode_take {source : List UInt8} {u v : Text} (h : decode source = u ++ v) :
    decode (source.take u.extent.bytes) = u := by
  have alone : decode (u.bytes ++ []) = u ++ decode [] := decode_append h (.inl (by simp))
  rw [List.append_nil] at alone
  rw [(take_drop_of_decode h).1, alone, decode, List.append_nil]

end Text

/-- A source that is cut off inside an object, where a leaf begins or ends, has an error. -/
theorem truncation_reported (source : List UInt8) (clean : (parse source).syntaxErrors = []) :
    ∀ x ∈ (parse source).root.all, x.node.kind = .rule .globalObject →
      ∀ n ∈ (parse source).root.leaves, ∀ p, p = n.start ∨ p = n.stop →
        x.node.start.bytes < p.bytes → p.bytes < x.node.stop.bytes →
          (parse (source.take p.bytes)).syntaxErrors ≠ [] := by
  intro x mem kind n isLeaf p bound after before free
  have whole := isWhole_parse source
  have isClean := whole.isClean_iff_syntaxErrors.mpr clean
  obtain ⟨pieces, text, h⟩ := exists_parses isClean
  obtain ⟨⟨y, mem', rfl⟩, -⟩ := Node.mem_leaves.mp isLeaf
  obtain ⟨ys, z, mid, y, zs, gap, gap', v, u, rfl, gaps, place, rfl, spells, here, open'⟩ :=
    h.exists_cut_object (text ▸ whole) isClean mem kind mem' bound after before
  have split : Text.decode source = Piece.textOf (ys ++ z :: mid) ++ gap ++
      (gap' ++ (y.body ++ Piece.textOf zs)) := by
    rw [← text]
    simp [gaps]
  have cut := Text.decode_take split
  have noNul := whole.nul_not_mem clean
  have laid := h.laid.cut (by simp) gaps place (text ▸ noNul) y.state
  have ends : Piece.textOf (ys ++ z :: mid ++ [.ending gap y.state]) =
      Piece.textOf (ys ++ z :: mid) ++ gap := by
    simp [Piece.ending]
  generalize source.take _ = front at cut free
  have whole' := isWhole_parse front
  have isClean' := whole'.isClean_iff_syntaxErrors.mpr free
  obtain ⟨pieces', text', h'⟩ := exists_parses isClean'
  obtain ⟨w, spells', derives⟩ := h'.exists_spells (text' ▸ whole') isClean'
  have keeps := Text.keepsAscii_decode front
  have noNul' := whole'.nul_not_mem free
  -- Whatever pieces the rest is read in, they are the same outside of comments.
  have solid : (ys ++ z :: mid).flatMap Piece.solid = pieces'.flatMap Piece.solid := by
    have same := laid.solid_eq (by rwa [ends, ← cut]) (by rwa [ends, ← cut])
    have same' := h'.laid.solid_eq (by rwa [text']) (by rwa [text'])
    rw [ends, ← cut, ← text', same', List.flatMap_append] at same
    simpa [Piece.solid, Piece.ending] using same.symm
  have stands := (List.forall_mem_append.mp h.exists_stands).1
  have keepsFront : (Piece.textOf (ys ++ z :: mid)).KeepsAscii := by
    rw [cut] at keeps
    exact (Text.keepsAscii_append.mp keeps).1
  have braces := (spells.append here).count_solid stands keepsFront
  have braces' := spells'.count_solid h'.exists_stands (by rwa [text'])
  rcases open' with more | ⟨noBrace, some⟩
  · have closes := (nested_of_derives derives).ends
    rw [solid] at braces
    omega
  · have standsHere := (List.forall_mem_append.mp stands).2
    have keepsHere : (Piece.textOf (z :: mid)).KeepsAscii := by
      rw [Piece.textOf_append] at keepsFront
      exact (Text.keepsAscii_append.mp keepsFront).2
    have notEmpty := here.solid_ne_nil standsHere some
    have last : ((ys ++ z :: mid).flatMap Piece.solid).getLast? = .some closing := by
      rw [solid]
      refine spells'.getLast?_of_closed h'.exists_stands (by rwa [text']) (closed_of_derives derives) ?_
      rw [← solid, List.flatMap_append]
      exact List.append_ne_nil_of_right_ne_nil _ notEmpty
    rw [List.flatMap_append, List.getLast?_append, List.getLast?_eq_some_getLast notEmpty,
      Option.some_or] at last
    have count := (here.count_solid standsHere keepsHere).2
    rw [List.count_eq_zero.mpr noBrace, List.count_eq_zero] at count
    exact count (Option.some.inj last ▸ List.getLast_mem notEmpty)

/-- A module that is cut off behind the block of an `if` in it ends with a brace, but it is not closed. -/
theorem truncation_reported_nested :
    (parse "module m\x7bif a \x7b\x7d\n\x7d".toUTF8.data.toList).syntaxErrors = [] ∧
      ∃ x ∈ (parse "module m\x7bif a \x7b\x7d\n\x7d".toUTF8.data.toList).root.all,
        x.node.kind = .rule .globalObject ∧
        ∃ n ∈ (parse "module m\x7bif a \x7b\x7d\n\x7d".toUTF8.data.toList).root.leaves,
          n.kind = .token .rbrace ∧ x.node.start.bytes < n.stop.bytes ∧
          n.stop.bytes < x.node.stop.bytes ∧
          (parse ("module m\x7bif a \x7b\x7d\n\x7d".toUTF8.data.toList.take n.stop.bytes)).syntaxErrors ≠
            [] := by
  have clean : (parse "module m\x7bif a \x7b\x7d\n\x7d".toUTF8.data.toList).syntaxErrors = [] := by
    decide +kernel
  have found : ∃ x ∈ (parse "module m\x7bif a \x7b\x7d\n\x7d".toUTF8.data.toList).root.all,
      x.node.kind = .rule .globalObject ∧
      ∃ n ∈ (parse "module m\x7bif a \x7b\x7d\n\x7d".toUTF8.data.toList).root.leaves,
        n.kind = .token .rbrace ∧ x.node.start.bytes < n.stop.bytes ∧
        n.stop.bytes < x.node.stop.bytes := by
    decide +kernel
  obtain ⟨x, mem, kind, n, isLeaf, isBrace, after, before⟩ := found
  exact ⟨clean, x, mem, kind, n, isLeaf, isBrace, after, before,
    truncation_reported _ clean x mem kind n isLeaf n.stop (.inr rfl) after before⟩

end SusSyntax
