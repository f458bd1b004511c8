import SusSyntax.Proofs.Lexical.Insertions
import SusSyntax.Proofs.Text.Ascii
import SusSyntax.Proofs.Text.Decode

/-!
What of a text stands outside of comments.

Which characters of a text are in comments can be told without knowing its tokens: a comment begins
where a slash has a slash behind it, or a star if the comment is closed further on (`solid`). So a text
has the same characters outside of comments and blanks, whatever pieces it is read in
(`Piece.Laid.solid_eq`), and among them the braces and the last character tell of the tokens
(`Piece.Stands.count_solid`).
-/

namespace SusSyntax.Lexical

open Grammar

/-! ### Outside of comments -/

/-- A blank, a line break, or a byte order mark. -/
def isPassed (g : Glyph) : Bool :=
  Guard.blank.admits g || g == lineBreak || g == Glyph.byteOrderMark

/-- Whether a text goes on as a comment behind a slash: to where, if it is a block comment. -/
inductive Region where
  | code
  | line
  | opened
  | block (behindStar : Bool)

/-- What stands outside of comments, without blanks and line breaks. -/
def solid : Region → Text → Text
  | _, [] => []
  | .code, g :: rest =>
    if g = slash ∧ rest.head? = some slash then solid .line rest
    else if g = slash ∧ rest.head? = some star ∧ Closes rest.tail then solid .opened rest
    else if isPassed g then solid .code rest
    else g :: solid .code rest
  | .line, g :: rest => if isInLine g then solid .line rest else solid .code rest
  | .opened, _ :: rest => solid (.block false) rest
  | .block behindStar, g :: rest =>
    if behindStar = true ∧ g = slash then solid .code rest else solid (.block (g == star)) rest

variable {body after blanks : Text}

theorem solid_of_passed (passed : ∀ g ∈ blanks, isPassed g = true) (after : Text) :
    solid .code (blanks ++ after) = solid .code after := by
  induction blanks with
  | nil => rfl
  | cons g blanks ih =>
    obtain ⟨first, passed⟩ := List.forall_mem_cons.mp passed
    have ne : g ≠ slash := by
      rintro rfl
      cases first
    rw [List.cons_append, solid, if_neg fun same => ne same.1, if_neg fun same => ne same.1,
      if_pos first, ih passed]

theorem solid_of_plain (plain : ∀ g ∈ body, isPassed g = false ∧ g ≠ slash) (after : Text) :
    solid .code (body ++ after) = body ++ solid .code after := by
  induction body with
  | nil => rfl
  | cons g body ih =>
    obtain ⟨⟨kept, ne⟩, plain⟩ := List.forall_mem_cons.mp plain
    rw [List.cons_append, solid, if_neg fun same => ne same.1, if_neg fun same => ne same.1,
      if_neg (Bool.not_eq_true _ ▸ kept), ih plain, List.cons_append]

theorem solid_of_slash (noLine : after.head? ≠ some slash)
    (noBlock : after.head? = some star → ¬Closes after.tail) :
    solid .code (slash :: after) = slash :: solid .code after := by
  rw [solid, if_neg fun same => noLine same.2, if_neg fun same => noBlock same.2.1 same.2.2,
    if_neg (by decide)]

theorem solid_of_line (stretch : IsStretch isInLine body after) (free : nul ∉ after) :
    solid .line (body ++ after) = solid .code after := by
  obtain ⟨all, stops⟩ := stretch
  induction body with
  | nil =>
    cases after with
    | nil => rfl
    | cons g after =>
      have stop := stops g rfl
      obtain rfl : g = lineBreak := by
        have ne : g ≠ nul := fun same => free (same ▸ List.mem_cons_self)
        simpa [isInLine, ne, Glyph.isChar, lineBreak] using stop
      rw [List.nil_append, solid.eq_def]
      dsimp only
      rw [if_neg (by decide)]
      have passed : ∀ g ∈ [lineBreak], isPassed g = true := by decide
      exact (solid_of_passed passed after).symm
  | cons g body ih =>
    obtain ⟨first, all⟩ := List.forall_mem_cons.mp all
    rw [List.cons_append, solid, if_pos first, ih all]

theorem solid_of_block {behindStar : Bool} (open' : ¬Closes (behind behindStar (body ++ [star])))
    (after : Text) :
    solid (.block behindStar) (body ++ star :: slash :: after) = solid .code after := by
  induction body generalizing behindStar with
  | nil =>
    have first : ¬(behindStar = true ∧ star = slash) := fun same => nomatch same.2
    rw [List.nil_append, solid, if_neg first, solid, if_pos ⟨rfl, rfl⟩]
  | cons g body ih =>
    obtain ⟨goesOn, open'⟩ := open_behind_cons open'
    rw [List.cons_append, solid, if_neg goesOn, ih open']

theorem solid_of_lineComment (stretch : IsStretch isInLine body after) (free : nul ∉ after) :
    solid .code (slash :: slash :: body ++ after) = solid .code after := by
  have goesOn : IsStretch isInLine (slash :: body) after :=
    ⟨List.forall_mem_cons.mpr ⟨by decide, stretch.1⟩, stretch.2⟩
  rw [List.cons_append, solid, if_pos ⟨rfl, rfl⟩, solid_of_line goesOn free]

theorem solid_of_blockComment (open' : ¬Closes (body ++ [star])) (after : Text) :
    solid .code (slash :: star :: (body ++ [star, slash]) ++ after) = solid .code after := by
  have closes : Closes (body ++ [star, slash] ++ after) :=
    List.IsInfix.trans (List.suffix_append body _).isInfix (List.prefix_append _ after).isInfix
  have noLine : ¬(slash = slash ∧ (star :: (body ++ [star, slash]) ++ after).head? = some slash) := by
    simp [star, slash]
  have split : body ++ [star, slash] ++ after = body ++ star :: slash :: after := by simp
  have inside : ¬Closes (behind false (body ++ [star])) := open'
  rw [List.cons_append, solid, if_neg noLine, if_pos ⟨rfl, rfl, closes⟩, List.cons_append, solid,
    split, solid_of_block inside]

/-! ### The text of tokens -/

/-- The character that opens a block. -/
def opening : Glyph :=
  .char '\x7b'.toNat

/-- The character that closes a block. -/
def closing : Glyph :=
  .char '\x7d'.toNat

/-- The characters that are passed over, or that comments or blocks begin or end with. -/
def marks : Text :=
  [slash, .char ' '.toNat, .char '\t'.toNat, .char '\r'.toNat, lineBreak, Glyph.byteOrderMark, opening,
    closing]

/-- The tokens with a mark in their text. -/
def markedTokens : List Token :=
  [.slash, .newline, .lbrace, .rbrace, .lineComment, .blockComment]

/-- What is no mark. -/
def IsUnmarked (body : Text) : Prop :=
  ∀ g ∈ body, g ∉ marks

theorem isPassed_of_unmarked {g : Glyph} (h : g ∉ marks) : isPassed g = false ∧ g ≠ slash := by
  simp only [marks, List.mem_cons, List.not_mem_nil, or_false, not_or] at h
  obtain ⟨notSlash, space, tab, back, notBreak, notMark, -⟩ := h
  refine ⟨?_, notSlash⟩
  simp only [isPassed, Guard.admits, Glyph.isChar, Bool.or_eq_false_iff, beq_eq_false_iff_ne]
  exact ⟨⟨⟨⟨space, tab⟩, back⟩, notBreak⟩, notMark⟩

theorem IsUnmarked.spec (h : IsUnmarked body) :
    (∀ g ∈ body, isPassed g = false ∧ g ≠ slash) ∧ opening ∉ body ∧ closing ∉ body :=
  ⟨fun g mem => isPassed_of_unmarked (h g mem), fun mem => h _ mem (by decide),
    fun mem => h _ mem (by decide)⟩

/-- Bytes that are characters alone are read as these characters. -/
theorem eq_of_bytes {bs : List UInt8} (keeps : Text.KeepsAscii body) (low : ∀ b ∈ bs, b < 0x80)
    (same : body.bytes = bs) : body = bs.map fun b => .char b.toNat := by
  induction body generalizing bs with
  | nil =>
    subst same
    rfl
  | cons g body ih =>
    obtain ⟨first, others⟩ := Text.keepsAscii_cons.mp keeps
    subst same
    have width := g.width_pos
    rw [← Glyph.length_bytes] at width
    obtain ⟨b, rest, bytes⟩ := List.exists_cons_of_length_pos width
    have small : b < 0x80 := low b (by simp [bytes])
    obtain rfl := first b (by simp [bytes]) small
    have single : (Glyph.char b.toNat).bytes = [b] := (Utf8.IsCode.single small).bytes
    rw [Text.bytes_cons, single] at low ⊢
    rw [List.map_append, ← ih others (List.forall_mem_append.mp low).2 rfl]
    rfl

/-- A token that is spelled as it is called. -/
theorem Fits.eq_name {t : Token} (h : Fits t body after) (fixed : isFixed t = true)
    (keeps : body.KeepsAscii) :
    body = t.name.toUTF8.data.toList.map fun b => .char b.toNat := by
  have low : ∀ t ∈ Token.all, ∀ b ∈ t.name.toUTF8.data.toList, b < 0x80 := by decide +kernel
  have same : body.bytes = t.name.toUTF8.data.toList := by
    cases t <;> first | exact h | cases fixed
  exact eq_of_bytes keeps (low t (Token.mem_all t)) same

/-- No mark is in a name or in a number, and in few other tokens. -/
theorem Fits.isUnmarked {t : Token} (h : Fits t body after) (keeps : body.KeepsAscii)
    (plain : t ∉ markedTokens) :
    IsUnmarked body := by
  have known : ∀ g ∈ marks, Guard.identifierStart.admits g = false ∧
      Guard.identifierContinue.admits g = false ∧ isNumberPart g = false := by
    decide +kernel
  have named : ∀ t ∈ Token.all, t ∉ markedTokens →
      ∀ g ∈ t.name.toUTF8.data.toList.map fun b => Glyph.char b.toNat, g ∉ marks := by
    decide +kernel
  by_cases isName : t = .identifier
  · subst isName
    obtain ⟨g, rest, rfl, starts, goesOn, -⟩ := h
    refine List.forall_mem_cons.mpr ⟨fun mem => ?_, fun g' inside mem => ?_⟩
    · rw [(known g mem).1] at starts
      cases starts
    · have goesOn := goesOn g' inside
      rw [(known g' mem).2.1] at goesOn
      cases goesOn
  by_cases isNumber : t = .number
  · subst isNumber
    obtain ⟨g, rest, rfl, starts, goesOn, -⟩ := h
    refine List.forall_mem_cons.mpr ⟨fun mem => ?_, fun g' inside mem => ?_⟩
    · have digit : isNumberPart g = true := by rw [isNumberPart, starts, Bool.true_or]
      rw [(known g mem).2.2] at digit
      cases digit
    · have goesOn := goesOn g' inside
      rw [(known g' mem).2.2] at goesOn
      cases goesOn
  have fixed : isFixed t = true := by
    revert isName isNumber plain
    cases t <;> decide
  rw [h.eq_name fixed keeps]
  exact named t (Token.mem_all t) plain

namespace Piece

variable {x : Piece} {xs : List Piece}

/-- The text of a piece, if it is neither a comment nor a line break. -/
def solid (x : Piece) : Text :=
  if x.token.isComment || x.token == .newline then [] else x.body

/-- A piece is the end of the text, or it has no mark, or it is spelled like one of the tokens that
have. -/
theorem Stands.marked_cases (h : x.Stands after) (keeps : x.body.KeepsAscii) :
    x.token = .eof ∧ x.body = [] ∧ after = [] ∨
      x.token ∉ markedTokens ∧ IsUnmarked x.body ∧ x.body ≠ [] ∨
      x.token ∈ markedTokens ∧ Fits x.token x.body after := by
  rcases h.kind with ⟨isEnd, none, nothing, -⟩ | ⟨-, some, u, fits, ⟨rfl, -⟩ | ⟨rfl, keyword⟩⟩
  · exact .inl ⟨isEnd, none, nothing⟩
  · by_cases marked : x.token ∈ markedTokens
    · exact .inr (.inr ⟨marked, fits⟩)
    · exact .inr (.inl ⟨marked, fits.isUnmarked keeps marked, some⟩)
  · have unmarked : ∀ t ∈ Token.keywords, t ∉ markedTokens := by decide
    exact .inr (.inl ⟨unmarked _ keyword, fits.isUnmarked keeps (by decide), some⟩)

/-- A slash that is read as such begins no comment. -/
theorem Stands.solid_slash (h : x.Stands after) (isSlash : x.token = .slash) (body : x.body = [slash])
    (free : nul ∉ after) :
    Lexical.solid .code (slash :: after) = slash :: Lexical.solid .code after := by
  refine solid_of_slash (fun ahead => ?_) fun ahead closes => ?_
  · obtain ⟨rest, rfl⟩ : ∃ rest, after = slash :: rest := by
      cases after with
      | nil => cases ahead
      | cons g rest => exact ⟨rest, by rw [Option.some.inj ahead]⟩
    have stretch : IsStretch isInLine (rest.takeWhile isInLine) (rest.dropWhile isInLine) := by
      refine ⟨List.all_eq_true.mp List.all_takeWhile, fun g mem => ?_⟩
      have stops := List.head?_dropWhile_not isInLine rest
      rw [mem] at stops
      simpa using stops
    have reads := h.reads
    rw [body, isSlash, ← List.takeWhile_append_dropWhile (p := isInLine) (l := rest)] at reads
    have line := reading_lineComment x.state stretch
    cases reads.symm.trans line
  · cases after with
    | nil => cases ahead
    | cons g rest =>
      obtain rfl := Option.some.inj ahead
      exact h.not_closes body (fun mem => free (List.mem_cons_of_mem _ mem)) closes

/-- What stands outside of comments is told piece by piece. -/
theorem Stands.solid_append (h : x.Stands after) (keeps : x.body.KeepsAscii)
    (free : nul ∉ x.body ++ after) :
    Lexical.solid .code (x.body ++ after) = x.solid ++ Lexical.solid .code after := by
  have name {t : Token} (fits : Fits t x.body after) (fixed : isFixed t = true) :=
    fits.eq_name fixed keeps
  rcases h.marked_cases keeps with ⟨isEnd, none, rfl⟩ | ⟨plain, unmarked, -⟩ | ⟨marked, fits⟩
  · rw [solid, isEnd, none]
    rfl
  · have shown : x.solid = x.body := by
      rw [solid, if_neg]
      revert plain
      cases x.token <;> decide
    rw [shown, solid_of_plain unmarked.spec.1]
  · have free : nul ∉ after := fun mem => free (List.mem_append_right _ mem)
    simp only [markedTokens, List.mem_cons, List.not_mem_nil, or_false] at marked
    rcases marked with isToken | isToken | isToken | isToken | isToken | isToken <;>
      rw [isToken] at fits
    · have body : x.body = [slash] := name fits rfl
      rw [solid, isToken, body]
      exact h.solid_slash isToken body free
    · have body : x.body = [lineBreak] := name fits rfl
      rw [solid, isToken, body]
      exact solid_of_passed (by decide) after
    · have body : x.body = [opening] := name fits rfl
      rw [solid, isToken, body]
      exact solid_of_plain (by decide) after
    · have body : x.body = [closing] := name fits rfl
      rw [solid, isToken, body]
      exact solid_of_plain (by decide) after
    · obtain ⟨rest, body, inLine, stops⟩ := fits
      rw [solid, isToken, body]
      exact solid_of_lineComment ⟨inLine, stops⟩ free
    · obtain ⟨rest, body, open'⟩ := fits
      rw [solid, isToken, body]
      exact solid_of_blockComment open' after

/-- A piece that is neither a comment, a line break nor the end of the text has a text outside of
comments. -/
theorem Stands.solid_ne_nil (h : x.Stands after) (notEnd : x.token ≠ .eof)
    (notComment : x.token.isComment = false) (notBreak : x.token ≠ .newline) : x.solid ≠ [] := by
  rw [solid, notComment, Bool.false_or, if_neg (by simpa using notBreak)]
  rcases h.kind with ⟨isEnd, -⟩ | ⟨-, some, -⟩
  · exact absurd isEnd notEnd
  · exact some

/-- A closing brace is all that there is of its piece. -/
theorem Stands.solid_of_rbrace (h : x.Stands after) (keeps : x.body.KeepsAscii)
    (isToken : x.token = .rbrace) : x.solid = [closing] := by
  rcases h.marked_cases keeps with ⟨isEnd, -⟩ | ⟨plain, -⟩ | ⟨-, fits⟩
  · cases isToken.symm.trans isEnd
  · exact absurd (isToken ▸ by decide) plain
  · rw [isToken] at fits
    rw [solid, isToken]
    exact fits.eq_name rfl keeps

/-- Among what stands outside of comments, the braces are the tokens that are called so. -/
theorem Stands.count_solid (h : x.Stands after) (keeps : x.body.KeepsAscii) :
    x.solid.count opening = [x.token].count .lbrace ∧
      x.solid.count closing = [x.token].count .rbrace := by
  rcases h.marked_cases keeps with ⟨isEnd, none, -⟩ | ⟨plain, unmarked, -⟩ | ⟨marked, fits⟩
  · rw [solid, isEnd, none]
    decide
  · have inBody : ∀ g, g ∉ x.body → x.solid.count g = 0 := by
      intro g notMem
      rw [List.count_eq_zero, solid]
      split
      · exact List.not_mem_nil
      · exact notMem
    rw [inBody _ unmarked.spec.2.1, inBody _ unmarked.spec.2.2]
    revert plain
    cases x.token <;> decide
  · simp only [markedTokens, List.mem_cons, List.not_mem_nil, or_false] at marked
    rcases marked with isToken | isToken | isToken | isToken | isToken | isToken <;>
      rw [isToken] at fits
    · have body : x.body = [slash] := fits.eq_name rfl keeps
      rw [solid, isToken, body]
      decide
    · rw [solid, isToken]
      exact ⟨rfl, rfl⟩
    · have body : x.body = [opening] := fits.eq_name rfl keeps
      rw [solid, isToken, body]
      decide
    · have body : x.body = [closing] := fits.eq_name rfl keeps
      rw [solid, isToken, body]
      decide
    · rw [solid, isToken]
      exact ⟨rfl, rfl⟩
    · rw [solid, isToken]
      exact ⟨rfl, rfl⟩

/-- The pieces of a text tell what of it stands outside of comments. -/
theorem Laid.solid_eq {fresh : Bool} (h : Laid fresh xs) (keeps : Text.KeepsAscii (textOf xs))
    (free : nul ∉ textOf xs) : Lexical.solid .code (textOf xs) = xs.flatMap solid := by
  induction xs generalizing fresh with
  | nil => rfl
  | cons x xs ih =>
    have passed : ∀ g ∈ x.gap, isPassed g = true := by
      have blank {ws : Text} (blank : IsBlank ws) : ∀ g ∈ ws, isPassed g = true := by
        intro g mem
        rw [isPassed, blank g mem]
        rfl
      obtain ⟨⟨-, ⟨isBlank, -⟩ | ⟨-, ws, isMark, isBlank⟩⟩, -⟩ := h
      · exact blank isBlank
      · rw [isMark]
        exact List.forall_mem_cons.mpr ⟨by decide, blank isBlank⟩
    have stands := h.stands
    rw [textOf_cons] at keeps free ⊢
    obtain ⟨-, keepsBody, keepsRest⟩ := (Text.keepsAscii_append.mp keeps).imp_right
      Text.keepsAscii_append.mp
    have free := fun mem => free (List.mem_append_right _ mem)
    rw [solid_of_passed passed, stands.solid_append keepsBody free,
      ih h.2.2.2 keepsRest fun mem => free (List.mem_append_right _ mem), List.flatMap_cons]

end Piece

end SusSyntax.Lexical
