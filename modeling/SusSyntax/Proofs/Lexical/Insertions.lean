import SusSyntax.Proofs.Lexical.Pieces

/-!
Pieces with something put in between them.

Blanks may be put in wherever a piece begins or ends: they become part of the gap there, or of the line
comment that ends there (`Laid.insert_blanks`). A comment between blanks may be put in there too, if no
line comment ends there, and no slash has a star right behind it (`Laid.insert_blockComment`); and a
line comment may be put in where the line ends (`Laid.insert_lineComment`, `Laid.extend_lineComment`).
-/

namespace SusSyntax.Lexical

open Grammar

/-! ### Slashes and stars -/

theorem closes_append_right {text : Text} (h : Closes text) (before : Text) :
    Closes (before ++ text) :=
  List.IsInfix.trans h (List.suffix_append before text).isInfix

/-- Blanks that are put in close no comment. -/
theorem closes_of_insert_blanks {blanks : Text} (blank : IsBlank blanks) (a b : Text)
    (h : Closes (a ++ (blanks ++ b))) : Closes (a ++ b) := by
  have ne {g : Glyph} (mem : g ∈ blanks) : g ≠ star ∧ g ≠ slash := by
    have isBlank := blank g mem
    constructor <;> rintro rfl <;> cases isBlank
  have behindBlanks {ws : Text} (inside : ∀ g ∈ ws, g ∈ blanks) (h : Closes (ws ++ b)) :
      Closes b := by
    induction ws with
    | nil => exact h
    | cons g ws ih =>
      obtain ⟨first, rest⟩ := List.forall_mem_cons.mp inside
      exact ih rest ((closes_cons_of_ne (ne first).1).mp h)
  induction a with
  | nil => exact behindBlanks (fun _ mem => mem) h
  | cons g a ih =>
    by_cases isStar : g = star
    · subst isStar
      cases a with
      | nil =>
        rw [List.singleton_append] at h
        cases blanks with
        | nil => exact h
        | cons w ws =>
          rcases closes_star_cons.mp h with isSlash | closes
          · exact absurd isSlash (ne List.mem_cons_self).2
          · exact closes_append_right (behindBlanks (fun _ mem => mem) closes) [star]
      | cons g' a =>
        rcases closes_star_cons.mp h with isSlash | closes
        · exact closes_star_cons.mpr (.inl isSlash)
        · exact closes_star_cons.mpr (.inr (ih closes))
    · exact (closes_cons_of_ne isStar).mpr (ih ((closes_cons_of_ne isStar).mp h))

/-- Only a slash is spelled like one. -/
theorem Fits.eq_slash {t : Token} {after : Text} (h : Fits t [slash] after) : t = .slash := by
  have known : ∀ t ∈ Token.all, Text.bytes [slash] = t.name.toUTF8.data.toList → t = .slash := by
    decide
  cases t with
  | identifier =>
    obtain ⟨_, _, same, starts, -⟩ := h
    obtain ⟨rfl, -⟩ := List.cons.inj same
    revert starts
    decide
  | number =>
    obtain ⟨_, _, same, starts, -⟩ := h
    obtain ⟨rfl, -⟩ := List.cons.inj same
    cases starts
  | lineComment =>
    obtain ⟨_, same, -⟩ := h
    cases same
  | blockComment =>
    obtain ⟨_, same, -⟩ := h
    cases same
  | _ => exact known _ (Token.mem_all _) h

/-- Only a star begins with one. -/
theorem Fits.eq_star {t : Token} {body after : Text} (h : Fits t (star :: body) after) :
    t = .star := by
  have known : ∀ t ∈ Token.all, t.name.toUTF8.data.toList.head? = some 0x2A → t = .star := by
    decide
  cases t with
  | identifier =>
    obtain ⟨_, _, same, starts, -⟩ := h
    obtain ⟨rfl, -⟩ := List.cons.inj same
    revert starts
    decide
  | number =>
    obtain ⟨_, _, same, starts, -⟩ := h
    obtain ⟨rfl, -⟩ := List.cons.inj same
    cases starts
  | lineComment =>
    obtain ⟨_, same, -⟩ := h
    cases same
  | blockComment =>
    obtain ⟨_, same, -⟩ := h
    cases same
  | _ => exact known _ (Token.mem_all _) (congrArg List.head? (Eq.symm h))

/-! ### Gaps -/

/-- The blank that sets a comment apart. -/
def space : Glyph :=
  .char ' '.toNat

theorem nul_ne_marks : nul ≠ space ∧ nul ≠ slash ∧ nul ≠ star := by
  decide

theorem nul_notMem_line {body : Text} (inLine : ∀ g ∈ body, isInLine g = true) : nul ∉ body :=
  fun mem => nomatch inLine nul mem

theorem IsGapBefore.insert {fresh : Bool} {gap gap' blanks rest : Text}
    (h : IsGapBefore fresh (gap ++ gap') rest) (blank : IsBlank blanks)
    (place : fresh = true → gap' = []) : IsGapBefore fresh (gap ++ (blanks ++ gap')) rest := by
  obtain ⟨notBlank, kind⟩ := h
  refine ⟨notBlank, ?_⟩
  rcases kind with ⟨isBlank, noMark⟩ | ⟨isFresh, others, split, isBlank⟩
  · left
    obtain ⟨first, last⟩ := List.forall_mem_append.mp isBlank
    refine ⟨List.forall_mem_append.mpr ⟨first, List.forall_mem_append.mpr ⟨blank, last⟩⟩,
      fun isFresh => ?_⟩
    have noMark := noMark isFresh
    obtain rfl := place isFresh
    cases gap with
    | cons g gap => exact noMark
    | nil =>
      cases blanks with
      | nil => exact noMark
      | cons b blanks =>
        intro same
        obtain rfl := Option.some.inj same
        cases blank _ List.mem_cons_self
  · right
    obtain rfl := place isFresh
    cases gap with
    | nil => cases split
    | cons g gap =>
      rw [List.append_nil] at split
      obtain ⟨rfl, rfl⟩ := List.cons.inj split
      refine ⟨isFresh, gap ++ blanks, by simp, List.forall_mem_append.mpr ⟨isBlank, blank⟩⟩

theorem IsGapBefore.isBlank {gap rest : Text} (h : IsGapBefore false gap rest) : IsBlank gap := by
  obtain ⟨-, ⟨blank, -⟩ | ⟨isFresh, -⟩⟩ := h
  · exact blank
  · cases isFresh

/-- Only the beginning of what stands behind a gap matters. -/
theorem IsGapBefore.congr {fresh : Bool} {gap rest rest' : Text} (h : IsGapBefore fresh gap rest)
    (same : rest'.head? = rest.head?) : IsGapBefore fresh gap rest' := by
  obtain ⟨notBlank, kind⟩ := h
  refine ⟨same ▸ notBlank, kind.imp_left fun ⟨blank, noMark⟩ => ⟨blank, fun isFresh => ?_⟩⟩
  have noMark := noMark isFresh
  rw [List.head?_append, same, ← List.head?_append]
  exact noMark

/-- A gap that is cut short by a blank ends before anything that is none. -/
theorem IsGapBefore.cut {fresh : Bool} {gap gap' rest rest' : Text} {b : Glyph}
    (h : IsGapBefore fresh (gap ++ gap') rest) (isBlank : Guard.blank.admits b = true)
    (notBlank : ∀ g ∈ rest'.head?, Guard.blank.admits g = false)
    (place : fresh = true → gap' = []) : IsGapBefore fresh (gap ++ [b]) rest' := by
  have isGap : IsGapBefore fresh (gap ++ ([b] ++ gap')) rest :=
    h.insert (by simpa [IsBlank] using isBlank) place
  refine ⟨notBlank, isGap.2.imp ?_ ?_⟩
  · rintro ⟨blank, noMark⟩
    rw [← List.append_assoc] at blank noMark
    refine ⟨(List.forall_mem_append.mp blank).1, fun isFresh => ?_⟩
    rw [List.append_assoc, List.append_assoc] at noMark
    rw [List.append_assoc]
    cases gap <;> exact noMark isFresh
  · rintro ⟨isFresh, others, split, blank⟩
    rw [place isFresh] at split
    exact ⟨isFresh, others, split, blank⟩

/-- What is left of a gap is one that is not at the beginning. -/
theorem IsGapBefore.rest {fresh : Bool} {gap gap' blanks rest : Text}
    (h : IsGapBefore fresh (gap ++ gap') rest) (blank : IsBlank blanks)
    (place : fresh = true → gap' = []) : IsGapBefore false (blanks ++ gap') rest := by
  refine ⟨h.1, .inl ⟨List.forall_mem_append.mpr ⟨blank, ?_⟩, nofun⟩⟩
  rcases h.2 with ⟨isBlank, -⟩ | ⟨isFresh, -⟩
  · exact (List.forall_mem_append.mp isBlank).2
  · rw [place isFresh]
    exact nofun

theorem isBreak_of_blank {g : Glyph} (blank : Guard.blank.admits g = true) :
    MayEnd.isBreak g = true := by
  simp only [Guard.admits, Bool.or_eq_true] at blank
  simp only [MayEnd.isBreak, List.any_cons, Bool.or_eq_true]
  rcases blank with (same | same) | same
  · exact .inl same
  · exact .inr (.inl same)
  · exact .inr (.inr (.inl same))

theorem isInLine_of_blank {g : Glyph} (blank : Guard.blank.admits g = true) :
    isInLine g = true := by
  simp only [Guard.admits, Bool.or_eq_true] at blank
  rcases blank with (same | same) | same
  all_goals
    obtain rfl := eq_of_beq same
    rfl

namespace Piece

variable {fresh : Bool} {x y z : Piece} {xs ys zs : List Piece} {gap gap' : Text}

/-- The same piece behind another gap. -/
def withGap (x : Piece) (gap : Text) : Piece :=
  { x with gap := gap }

@[simp] theorem gap_withGap (x : Piece) (gap : Text) : (x.withGap gap).gap = gap := rfl

@[simp] theorem body_withGap (x : Piece) (gap : Text) : (x.withGap gap).body = x.body := rfl

@[simp] theorem token_withGap (x : Piece) (gap : Text) : (x.withGap gap).token = x.token := rfl

/-- What is kept of a piece where its text is another one. -/
def kind (x : Piece) : Token × Bool × State :=
  (x.token, x.isKeyword, x.state)

@[simp] theorem kind_withGap (x : Piece) (gap : Text) : (x.withGap gap).kind = x.kind := rfl

/-- A line comment goes on to where the line ends. -/
theorem Stands.of_lineComment {after : Text} (h : x.Stands after) (isLine : x.token = .lineComment) :
    x.isKeyword = false ∧ ∃ body, x.body = slash :: slash :: body ∧ IsStretch isInLine body after := by
  rcases h.kind with ⟨isEnd, -⟩ | ⟨-, -, u, fits, known⟩
  · rw [isLine] at isEnd
    cases isEnd
  · rcases known with ⟨rfl, noName⟩ | ⟨-, isKeyword⟩
    · rw [isLine] at fits noName
      refine ⟨?_, fits⟩
      rw [← Bool.not_eq_true]
      exact fun isKeyword => nomatch noName isKeyword
    · rw [isLine] at isKeyword
      exact absurd isKeyword (by decide)

/-- Behind a line comment there is no gap. -/
theorem Laid.gap_eq_nil (h : Laid fresh (y :: z :: zs)) (isLine : y.token = .lineComment) :
    z.gap = [] := by
  obtain ⟨-, _, -, -, stops⟩ := h.stands.of_lineComment isLine
  obtain ⟨-, -, -, isGap, -⟩ := h
  cases gap : z.gap with
  | nil => rfl
  | cons g gap =>
    rw [textOf_cons, gap] at stops
    rw [gap] at isGap
    have inLine := isInLine_of_blank (isGap.isBlank g List.mem_cons_self)
    rw [stops g rfl] at inLine
    cases inLine

/-- A piece may have any other body that begins alike and is read as the same token. -/
theorem Laid.replace_body {body : Text} (h : Laid fresh (z :: zs)) (ne : body ≠ [])
    (head : body.head? = z.body.head?)
    (reads : reading z.state (body ++ textOf zs) = some (z.token, z.isKeyword, body.extent)) :
    Laid fresh ({ z with body := body } :: zs) := by
  obtain ⟨isGap, -, -, later⟩ := h
  exact ⟨isGap.congr (by rw [List.head?_append, List.head?_append, head]), reads, fun _ => ne, later⟩

/-- A line comment may go on with anything that stays in its line. -/
theorem Laid.extend_line {more : Text} (h : Laid fresh (y :: zs)) (isLine : y.token = .lineComment)
    (inLine : ∀ g ∈ more, isInLine g = true) :
    Laid fresh ({ y with body := y.body ++ more } :: zs) := by
  obtain ⟨noName, body, isBody, all, stops⟩ := h.stands.of_lineComment isLine
  have stretch : IsStretch isInLine (body ++ more) (textOf zs) :=
    ⟨List.forall_mem_append.mpr ⟨all, inLine⟩, stops⟩
  have goesOn : y.body ++ more = slash :: slash :: (body ++ more) := by
    rw [isBody]
    rfl
  rw [goesOn]
  refine h.replace_body (List.cons_ne_nil _ _) (by rw [isBody]; rfl) ?_
  rw [isLine, noName]
  exact reading_lineComment y.state stretch

/-! ### Blanks -/

/-- Pieces stay what they were where blanks are put in further on. -/
theorem Laid.replace_of_blanks {zs' : List Piece} {a b blanks : Text} (h : Laid fresh (ys ++ zs))
    (some : zs ≠ []) (h' : Laid (fresh && ys.isEmpty) zs') (ne : a ≠ []) (old : textOf zs = a ++ b)
    (new : textOf zs' = a ++ (blanks ++ b)) (blank : IsBlank blanks) (free : nul ∉ textOf (ys ++ zs)) :
    Laid fresh (ys ++ zs') := by
  refine h.replace some h' fun front y back split m mayEnd ends => ?_
  obtain ⟨g, rest, ahead⟩ := List.exists_cons_of_ne_nil (l := textOf back ++ a) (by simp [ne])
  have before : textOf (back ++ zs) = g :: (rest ++ b) := by
    rw [textOf_append, old, ← List.append_assoc, ahead, List.cons_append]
  have after : textOf (back ++ zs') = g :: (rest ++ (blanks ++ b)) := by
    rw [textOf_append, new, ← List.append_assoc, ahead, List.cons_append]
  rw [split, List.append_assoc, List.cons_append] at h free
  have stands : y.Stands (textOf (back ++ zs)) := (Laid.append_right h).stands
  rw [textOf_append, textOf_cons, before] at free
  have free' : nul ∉ rest ++ b := fun mem =>
    free (List.mem_append_right _ (List.mem_append_right _ (List.mem_append_right _
      (List.mem_cons_of_mem g mem))))
  rw [before] at ends stands
  rw [after]
  refine mayEnd.ends_of_same_head ends ?_ fun isSlash isStar closes => ?_
  · intro mem
    simp only [List.mem_append, not_or] at mem free'
    rcases mem with mem | mem | mem
    · exact free'.1 mem
    · cases blank _ mem
    · exact free'.2 mem
  · subst isStar
    exact stands.not_closes isSlash free' (closes_of_insert_blanks blank rest b closes)

/-- Behind a piece nothing is at the beginning. -/
theorem fresh_concat (fresh : Bool) (ys : List Piece) (y : Piece) :
    (fresh && (ys ++ [y]).isEmpty) = false := by
  cases ys <;> exact Bool.and_false _

theorem Laid.behind_concat (h : Laid fresh (ys ++ [y] ++ zs)) : Laid false zs :=
  fresh_concat fresh ys y ▸ h.append_right

/-- Blanks may be put in where a piece begins or ends: they come to the gap there, or to the line
comment that ends there. -/
theorem Laid.insert_blanks {blanks : Text} (h : Laid fresh (ys ++ z :: zs))
    (gaps : z.gap = gap ++ gap') (place : gap' = [] ∨ gap = [] ∧ ys ≠ []) (blank : IsBlank blanks)
    (free : nul ∉ textOf (ys ++ z :: zs)) : ∃ pieces, Laid fresh pieces ∧
      textOf pieces = textOf ys ++ gap ++ (blanks ++ (gap' ++ (z.body ++ textOf zs))) ∧
      pieces.map kind = (ys ++ z :: zs).map kind := by
  have inGap {fresh : Bool} (laid : Laid fresh (z :: zs)) (first : fresh = true → gap' = []) :
      Laid fresh (z.withGap (gap ++ (blanks ++ gap')) :: zs) := by
    obtain ⟨isGap, reads, some, later⟩ := laid
    exact ⟨(gaps ▸ isGap).insert blank first, reads, some, later⟩
  rcases List.eq_nil_or_concat ys with rfl | ⟨front, y, same⟩
  · refine ⟨_, inGap h fun _ => ?_, by simp, rfl⟩
    exact place.resolve_right fun ⟨_, ne⟩ => ne rfl
  rw [List.concat_eq_append] at same
  subst same
  have behind := inGap h.behind_concat nofun
  have regroup : front ++ [y] ++ z :: zs = front ++ y :: z :: zs := by simp
  by_cases started : gap = []
  · rw [started, List.nil_append] at gaps behind
    rw [regroup] at h free ⊢
    have last : Laid _ (y :: z :: zs) := h.append_right
    have some : y.body ≠ [] := last.2.2.1 (by simp)
    by_cases isLine : y.token = .lineComment
    · obtain rfl := gaps.symm.trans (last.gap_eq_nil isLine)
      have inLine : ∀ g ∈ blanks, isInLine g = true := fun g mem => isInLine_of_blank (blank g mem)
      refine ⟨front ++ { y with body := y.body ++ blanks } :: z :: zs, ?_, by simp [gaps, started],
        by simp [kind]⟩
      exact h.replace_of_blanks (by simp) (last.extend_line isLine inLine) (a := y.gap ++ y.body)
        (b := textOf (z :: zs)) (by simp [some]) (by simp) (by simp) blank free
    · have joined : Laid (fresh && front.isEmpty) (y :: z.withGap (blanks ++ gap') :: zs) := by
        refine Laid.replace (show Laid _ ([y] ++ z :: zs) from last) (by simp) (by simpa using behind)
          fun front' y' back split m mayEnd ends => ?_
        obtain ⟨rfl, rfl, rfl⟩ : front' = [] ∧ y' = y ∧ back = [] := by
          cases front' <;> simp_all
        cases blanks with
        | nil => simpa [gaps] using ends
        | cons b others =>
          exact mayEnd.ends_of_break (isBreak_of_blank (blank b List.mem_cons_self))
            (fun line => absurd line isLine) _
      refine ⟨_, h.replace_of_blanks (by simp) joined (a := y.gap ++ y.body) (b := textOf (z :: zs))
        (by simp [some]) (by simp) (by simp [gaps]) blank free, by simp [started], by simp⟩
  · rw [← fresh_concat fresh front y] at behind
    refine ⟨_, h.replace_of_blanks (by simp) behind started (b := gap' ++ (z.body ++ textOf zs))
      (by simp [gaps]) (by simp) blank free, by simp, by simp⟩

/-! ### Line breaks -/

/-- A glyph of a text of two parts stands in one of them. -/
theorem append_eq_append_cons {a b u v : Text} {g : Glyph} (h : a ++ b = u ++ g :: v) :
    (∃ c, a = u ++ g :: c ∧ v = c ++ b) ∨ ∃ c, u = a ++ c ∧ b = c ++ g :: v := by
  rcases List.append_eq_append_iff.mp h with found | ⟨c, rfl, behind⟩
  · exact .inr found
  · cases c with
    | nil => exact .inr ⟨[], by simp, behind.symm⟩
    | cons g' c =>
      obtain ⟨rfl, rfl⟩ := List.cons.inj behind
      exact .inl ⟨c, rfl, rfl⟩

/-- A glyph of a text stands in the gap of a piece or in its body. -/
theorem exists_of_textOf_eq {pieces : List Piece} {u v : Text} {g : Glyph}
    (h : textOf pieces = u ++ g :: v) : ∃ ys z zs, pieces = ys ++ z :: zs ∧ (g ∈ z.gap ∨
      ∃ a b, z.body = a ++ g :: b ∧ u = textOf ys ++ z.gap ++ a ∧ v = b ++ textOf zs) := by
  induction pieces generalizing u with
  | nil => exact absurd (congrArg List.length h) (by simp)
  | cons z zs ih =>
    rw [textOf_cons] at h
    rcases append_eq_append_cons h with ⟨c, inGap, -⟩ | ⟨c, rfl, inside⟩
    · exact ⟨[], z, zs, rfl, .inl (by simp [inGap])⟩
    rcases append_eq_append_cons inside with ⟨b, inBody, rfl⟩ | ⟨d, rfl, later⟩
    · exact ⟨[], z, zs, rfl, .inr ⟨c, b, inBody, rfl, rfl⟩⟩
    · obtain ⟨ys, y, rest, rfl, found⟩ := ih later
      refine ⟨z :: ys, y, rest, rfl, found.imp_right fun ⟨a, b, body, before, behind⟩ => ?_⟩
      exact ⟨a, b, body, by simp [before], behind⟩

end Piece

/-- A line break is a token, or it stands in a block comment. -/
theorem Fits.of_lineBreak {t : Token} {a b after : Text} (h : Fits t (a ++ lineBreak :: b) after) :
    a = [] ∧ b = [] ∨ t = .blockComment := by
  have alone : ∀ t ∈ Token.all, (0x0A : UInt8) ∈ t.name.toUTF8.data.toList →
      t.name.toUTF8.data.toList.length = 1 := by
    decide
  have fixed {t : Token} (h : (a ++ lineBreak :: b).bytes = t.name.toUTF8.data.toList) :
      a = [] ∧ b = [] := by
    have one := alone t (Token.mem_all t) (h ▸ by simp [lineBreak, Glyph.bytes])
    rw [← h, Text.length_bytes, Text.extent_append, Text.extent_cons] at one
    have size : lineBreak.extent.bytes = 1 := rfl
    simp only [Extent.bytes_add, size] at one
    exact ⟨Text.eq_nil_of_bytes_eq_zero (by omega), Text.eq_nil_of_bytes_eq_zero (by omega)⟩
  have mem : lineBreak ∈ a ++ lineBreak :: b := by simp
  cases t with
  | identifier =>
    obtain ⟨g, rest, same, starts, all, -⟩ := h
    rw [same] at mem
    rcases List.mem_cons.mp mem with rfl | mem
    · cases starts
    · cases all _ mem
  | number =>
    obtain ⟨g, rest, same, starts, all, -⟩ := h
    rw [same] at mem
    rcases List.mem_cons.mp mem with rfl | mem
    · cases starts
    · cases all _ mem
  | lineComment =>
    obtain ⟨rest, same, all, -⟩ := h
    rw [same] at mem
    rcases List.mem_cons.mp mem with isSlash | mem
    · cases isSlash
    rcases List.mem_cons.mp mem with isSlash | mem
    · cases isSlash
    · cases all _ mem
  | blockComment => exact .inr rfl
  | _ => exact .inl (fixed h)

namespace Piece

variable {fresh : Bool} {x y z : Piece} {ys zs : List Piece} {gap gap' u v blanks : Text}

/-- Blanks may be put in between the marks of a block comment. -/
theorem Laid.extend_blockComment (h : Laid fresh (z :: zs)) (isComment : z.token = .blockComment)
    (noName : z.isKeyword = false) (isBody : z.body = slash :: star :: (u ++ v ++ [star, slash]))
    (open' : ¬Closes (u ++ v ++ [star])) (blank : IsBlank blanks) (free : nul ∉ u ++ v) :
    Laid fresh ({ z with body := slash :: star :: (u ++ (blanks ++ v) ++ [star, slash]) } :: zs) := by
  refine h.replace_body (List.cons_ne_nil _ _) (by rw [isBody]; rfl) ?_
  rw [isComment, noName]
  refine reading_blockComment z.state (fun mem => ?_) (fun closes => open' ?_) (textOf zs)
  · rw [List.mem_append, not_or] at free
    rcases List.mem_append.mp mem with mem | mem
    · exact free.1 mem
    rcases List.mem_append.mp mem with mem | mem
    · cases blank _ mem
    · exact free.2 mem
  · rw [List.append_assoc] at closes ⊢
    exact closes_of_insert_blanks blank u (v ++ [star]) (List.append_assoc blanks v [star] ▸ closes)

/-- Blanks may be put in before any line break. -/
theorem Laid.insert_blanks_of_lineBreak {pieces : List Piece} (h : Laid true pieces)
    (text : textOf pieces = u ++ lineBreak :: v) (blank : IsBlank blanks)
    (free : nul ∉ textOf pieces) : ∃ pieces', Laid true pieces' ∧
      textOf pieces' = u ++ (blanks ++ lineBreak :: v) ∧ pieces'.map kind = pieces.map kind := by
  obtain ⟨ys, z, zs, rfl, inGap | ⟨a, b, inBody, rfl, rfl⟩⟩ := exists_of_textOf_eq text
  · obtain ⟨⟨-, ⟨isBlank, -⟩ | ⟨-, others, isGap, isBlank⟩⟩, -⟩ := h.append_right
    · cases isBlank _ inGap
    · rw [isGap] at inGap
      rcases List.mem_cons.mp inGap with isMark | inGap
      · cases isMark
      · cases isBlank _ inGap
  have last : Laid _ (z :: zs) := h.append_right
  rcases last.stands.kind with ⟨-, none, -⟩ | ⟨-, -, t, fits, known⟩
  · simp [none] at inBody
  rcases (inBody ▸ fits).of_lineBreak with ⟨rfl, rfl⟩ | rfl
  · obtain ⟨pieces', laid, text', same⟩ :=
      h.insert_blanks (List.append_nil z.gap).symm (.inl rfl) blank free
    exact ⟨pieces', laid, by simp [text', inBody], same⟩
  · obtain ⟨isComment, noName⟩ := known.resolve_right nofun
    have noName : z.isKeyword = false := by
      rw [← Bool.not_eq_true]
      exact fun isKeyword => nomatch isComment.trans (noName isKeyword)
    obtain ⟨inside, isBody, open'⟩ := fits
    -- The line break stands between the marks that open the comment and those that close it.
    obtain ⟨a, rfl, inRest⟩ : ∃ a', a = [slash, star] ++ a' ∧
        inside ++ [star, slash] = a' ++ lineBreak :: b := by
      have split : [slash, star] ++ (inside ++ [star, slash]) = a ++ lineBreak :: b :=
        isBody.symm.trans inBody
      rcases append_eq_append_cons split with ⟨c, opens, -⟩ | found
      · exact absurd (opens ▸ by simp : lineBreak ∈ [slash, star]) (by decide)
      · exact found
    obtain ⟨b, rfl, rfl⟩ : ∃ b', inside = a ++ lineBreak :: b' ∧ b = b' ++ [star, slash] := by
      rcases append_eq_append_cons inRest with found | ⟨c, -, closes⟩
      · exact found
      · exact absurd (closes ▸ by simp : lineBreak ∈ [star, slash]) (by decide)
    have notIn : nul ∉ a ++ lineBreak :: b := by
      rw [textOf_append, textOf_cons, isBody] at free
      simp only [List.mem_append, List.mem_cons, not_or] at free ⊢
      exact free.2.2.1.2.2.1
    refine ⟨ys ++ _ :: zs, h.replace_of_blanks (List.cons_ne_nil _ _)
      (last.extend_blockComment isComment.symm noName isBody open' blank notIn)
      (a := z.gap ++ (slash :: star :: a)) (b := lineBreak :: b ++ [star, slash] ++ textOf zs)
      (by simp) ?_ ?_ blank free, ?_, ?_⟩
    · simp [isBody]
    · simp
    · simp
    · simp [kind]

/-! ### Comments -/

/-- No slash has a star right behind it. -/
def Apart (pieces : List Piece) : Prop :=
  ∀ ys y z zs, pieces = ys ++ y :: z :: zs → y.body = [slash] → z.gap = [] →
    z.body.head? ≠ some star

/-- What stands behind a slash does not begin with a star. -/
theorem Apart.ne_star {back : List Piece} (apart : Apart (ys ++ y :: back))
    (h : Laid fresh (ys ++ y :: back)) (isSlash : y.body = [slash]) (rest : Text) :
    textOf back ≠ star :: rest := by
  intro starts
  cases back with
  | nil => cases starts
  | cons z zs =>
    have last : Laid _ (y :: z :: zs) := h.append_right
    obtain ⟨-, -, -, isGap, -, some, -⟩ := last
    rw [textOf_cons] at starts
    cases gap : z.gap with
    | cons g others =>
      rw [gap] at starts isGap
      obtain ⟨rfl, -⟩ := List.cons.inj starts
      cases isGap.isBlank star List.mem_cons_self
    | nil =>
      rw [gap, List.nil_append] at starts
      cases body : z.body with
      | cons g others =>
        rw [body] at starts
        obtain ⟨rfl, -⟩ := List.cons.inj starts
        exact apart ys y z zs rfl isSlash gap (by rw [body]; rfl)
      | nil =>
        rw [body] at starts some
        cases zs with
        | nil => cases starts
        | cons => exact some (by simp) rfl

/-- Where no slash has a star behind it, pieces stay what they were if only the last of them does. -/
theorem Laid.replace_of_apart {zs' : List Piece} (h : Laid fresh (ys ++ zs)) (apart : Apart (ys ++ zs))
    (some : zs ≠ []) (h' : Laid (fresh && ys.isEmpty) zs') (free : nul ∉ textOf (ys ++ zs'))
    (seam : ∀ front y, ys = front ++ [y] → ∀ m, MayEnd y.token y.body m →
      tokenAutomaton.Ends m (textOf zs) → tokenAutomaton.Ends m (textOf zs')) :
    Laid fresh (ys ++ zs') := by
  refine h.replace_of_seam some h' free (fun front y back rest split _ isSlash starts => ?_) seam
  rw [split, List.append_assoc, List.cons_append] at apart h
  exact absurd starts (apart.ne_star h isSlash rest)

/-- A comment with a blank before it may be put in where a piece begins or ends, but for the end of a
line comment. -/
theorem Laid.insert_comment {b : Glyph} (h : Laid fresh (ys ++ z :: zs))
    (apart : Apart (ys ++ z :: zs)) (gaps : z.gap = gap ++ gap')
    (place : gap' = [] ∨ gap = [] ∧ ys ≠ [])
    (noLine : ∀ front y, ys = front ++ [y] → gap = [] → y.token ≠ .lineComment)
    (isBlank : Guard.blank.admits b = true) (blank : IsBlank blanks) (isGap : x.gap = gap ++ [b])
    (head : x.body.head? = some slash)
    (reads : reading x.state (x.body ++ (blanks ++ gap' ++ (z.body ++ textOf zs))) =
      some (x.token, x.isKeyword, x.body.extent))
    (free : nul ∉ textOf (ys ++ x :: z.withGap (blanks ++ gap') :: zs)) :
    Laid fresh (ys ++ x :: z.withGap (blanks ++ gap') :: zs) := by
  obtain ⟨was, readsLast, some, later⟩ := h.append_right
  have notBlank {rest : Text} : ∀ g ∈ (x.body ++ rest).head?, Guard.blank.admits g = false := by
    intro g ahead
    rw [List.head?_append, head] at ahead
    obtain rfl := Option.some.inj ahead
    rfl
  have first : (fresh && ys.isEmpty) = true → gap' = [] := fun isFirst =>
    place.resolve_right fun ⟨_, ne⟩ => ne (List.isEmpty_iff.mp (Bool.and_eq_true_iff.mp isFirst).2)
  refine h.replace_of_apart apart (List.cons_ne_nil _ _)
    ⟨isGap ▸ (gaps ▸ was).cut isBlank notBlank first, by simpa using reads, fun _ none => ?_,
      (gaps ▸ was).rest blank first, readsLast, some, later⟩ free fun front y split m mayEnd _ => ?_
  · rw [none] at head
    cases head
  · subst split
    have notLine : y.token ≠ .lineComment := fun isLine => by
      have whole : Laid fresh (front ++ y :: z :: zs) := by simpa using h
      have behind : Laid _ (y :: z :: zs) := Laid.append_right whole
      have none := gaps ▸ behind.gap_eq_nil isLine
      exact noLine front y rfl (List.append_eq_nil_iff.mp none).1 isLine
    have allBlank : IsBlank (gap ++ [b]) := by
      rw [fresh_concat] at was
      have isBlank' := (gaps ▸ was).isBlank
      exact List.forall_mem_append.mpr ⟨(List.forall_mem_append.mp isBlank').1, by simpa using isBlank⟩
    obtain ⟨g, others, starts⟩ := List.exists_cons_of_ne_nil (l := gap ++ [b]) (by simp)
    rw [textOf_cons, isGap, starts]
    rw [starts] at allBlank
    exact mayEnd.ends_of_break (isBreak_of_blank (allBlank g List.mem_cons_self))
      (fun isLine => absurd isLine notLine) _

/-- A block comment between blanks may be put in where a piece begins or ends, but for the end of a line
comment. -/
theorem Laid.insert_blockComment {c : Text} (h : Laid fresh (ys ++ z :: zs))
    (apart : Apart (ys ++ z :: zs)) (gaps : z.gap = gap ++ gap')
    (place : gap' = [] ∨ gap = [] ∧ ys ≠ [])
    (noLine : ∀ front y, ys = front ++ [y] → gap = [] → y.token ≠ .lineComment)
    (open' : ¬Closes (c ++ [star])) (free : nul ∉ textOf (ys ++ z :: zs)) (freeC : nul ∉ c) :
    Laid fresh (ys ++ ⟨gap ++ [space], slash :: star :: (c ++ [star, slash]), .blockComment, false,
      z.state⟩ :: z.withGap ([space] ++ gap') :: zs) := by
  refine h.insert_comment apart gaps place noLine (b := space) rfl (by simp [IsBlank]; rfl) rfl rfl
    (reading_blockComment z.state freeC open' _) ?_
  simp only [textOf_append, textOf_cons, gaps, List.mem_append, not_or] at free
  simp [free, freeC, nul_ne_marks]

/-- A line comment may be put in where the line ends, if there is none yet. -/
theorem Laid.insert_lineComment {c : Text} (h : Laid fresh (ys ++ z :: zs))
    (apart : Apart (ys ++ z :: zs)) (noLine : ∀ front y, ys = front ++ [y] → y.token ≠ .lineComment)
    (inLine : ∀ g ∈ c, isInLine g = true)
    (ends : ∀ g ∈ (z.body ++ textOf zs).head?, isInLine g = false)
    (free : nul ∉ textOf (ys ++ z :: zs)) :
    Laid fresh (ys ++ ⟨z.gap ++ [space], slash :: slash :: c, .lineComment, false, z.state⟩ ::
      z.withGap [] :: zs) := by
  have gaps : z.gap = z.gap ++ [] := (List.append_nil _).symm
  have none : IsBlank [] := nofun
  refine h.insert_comment apart gaps (.inl rfl) (fun front y split _ => noLine front y split)
    (b := space) rfl none rfl rfl
    (reading_lineComment z.state ⟨inLine, ends⟩) ?_
  simp only [textOf_append, textOf_cons, List.mem_append, not_or] at free
  simp [free, nul_notMem_line inLine, nul_ne_marks]

/-- A line comment may be made longer. -/
theorem Laid.extend_lineComment {more : Text} (h : Laid fresh (ys ++ y :: zs))
    (apart : Apart (ys ++ y :: zs)) (isLine : y.token = .lineComment)
    (inLine : ∀ g ∈ more, isInLine g = true) (free : nul ∉ textOf (ys ++ y :: zs)) :
    Laid fresh (ys ++ { y with body := y.body ++ more } :: zs) := by
  refine h.replace_of_apart apart (List.cons_ne_nil _ _) (h.append_right.extend_line isLine inLine) ?_
    fun front x split m mayEnd ends => ?_
  · simp only [textOf_append, textOf_cons, List.mem_append, not_or] at free
    simp [free, nul_notMem_line inLine]
  · subst split
    rw [List.append_assoc, List.singleton_append] at h apart free
    obtain ⟨-, body, isBody, -⟩ := (Laid.append_right
      (show Laid fresh (front ++ [x] ++ y :: zs) by simpa using h)).stands.of_lineComment isLine
    obtain ⟨g, rest, starts⟩ : ∃ g rest, y.gap ++ y.body = g :: rest :=
      List.exists_cons_of_ne_nil (by simp [isBody])
    have old : textOf (y :: zs) = g :: (rest ++ textOf zs) := by
      rw [textOf_cons, ← List.append_assoc, starts]
      rfl
    have new : textOf ({ y with body := y.body ++ more } :: zs) = g :: (rest ++ more ++ textOf zs) := by
      rw [textOf_cons, ← List.append_assoc, ← List.append_assoc, starts]
      rfl
    rw [old] at ends
    rw [new]
    refine mayEnd.ends_of_same_head ends ?_ fun isSlash isStar => ?_
    · rw [textOf_append, textOf_cons, old] at free
      simp only [List.mem_append, List.mem_cons, not_or] at free ⊢
      exact ⟨⟨free.2.2.2.2.1, nul_notMem_line inLine⟩, free.2.2.2.2.2⟩
    · exact absurd (isStar ▸ old) (apart.ne_star h isSlash _)

end Piece

end SusSyntax.Lexical
