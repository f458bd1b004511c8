import SusSyntax.Proofs.Lexical.Seams

/-!
A text as the pieces that it is read in.

A piece is a gap and the text of a token behind it, with the state that it is read in (`Piece`). The
pieces of a text are laid out if each of them is what is read of the text from there on
(`Piece.Laid`). Where some of them give way to others, the ones before stay what they were as long as
nothing there goes on with what comes next (`Piece.Laid.replace`).
-/

namespace SusSyntax.Lexical

open Grammar

/-! ### Gaps -/

/-- A gap before the text `rest`: blanks, and at the very beginning of a text also a byte order mark
before them. -/
def IsGapBefore (fresh : Bool) (gap rest : Text) : Prop :=
  (∀ g ∈ rest.head?, Guard.blank.admits g = false) ∧
    ((IsBlank gap ∧ (fresh = true → (gap ++ rest).head? ≠ some Glyph.byteOrderMark)) ∨
      fresh = true ∧ ∃ blanks, gap = Glyph.byteOrderMark :: blanks ∧ IsBlank blanks)

theorem passBlanks_append {blanks rest : Text} (blank : IsBlank blanks)
    (notBlank : ∀ g ∈ rest.head?, Guard.blank.admits g = false) (p : Extent) :
    Cursor.passBlanks p (blanks ++ rest) = ⟨p + blanks.extent, rest⟩ := by
  induction blanks generalizing p with
  | nil =>
    cases rest with
    | nil => simp [Cursor.passBlanks]
    | cons g rest => simp [Cursor.passBlanks, notBlank g rfl]
  | cons g blanks ih =>
    obtain ⟨first, blank⟩ := List.forall_mem_cons.mp blank
    rw [List.cons_append, Cursor.passBlanks, if_pos first, ih blank, Text.extent_cons,
      Extent.add_assoc]

theorem begins_of_isGapBefore {fresh : Bool} {p : Extent} {gap rest : Text}
    (place : p.bytes = 0 ↔ fresh = true) (h : IsGapBefore fresh gap rest) : Begins p gap rest := by
  obtain ⟨notBlank, ⟨blank, noMark⟩ | ⟨isFresh, blanks, rfl, blank⟩⟩ := h
  · have stays : Cursor.passByteOrderMark ⟨p, gap ++ rest⟩ = ⟨p, gap ++ rest⟩ := by
      rw [Cursor.passByteOrderMark, if_neg]
      intro mark
      simp only [Bool.and_eq_true, decide_eq_true_eq, beq_iff_eq] at mark
      exact noMark (place.mp mark.1) mark.2
    rw [Begins, Cursor.tokenStart, stays]
    exact passBlanks_append blank notBlank p
  · have moves : Cursor.passByteOrderMark ⟨p, Glyph.byteOrderMark :: blanks ++ rest⟩ =
        ⟨p + Glyph.byteOrderMark.extent, blanks ++ rest⟩ := by
      rw [Cursor.passByteOrderMark, if_pos (by simp [place.mpr isFresh])]
      rfl
    rw [Begins, Cursor.tokenStart, moves, Text.extent_cons, ← Extent.add_assoc]
    exact passBlanks_append blank notBlank _

theorem exists_gap (fresh : Bool) (text : Text) :
    ∃ gap rest, text = gap ++ rest ∧ IsGapBefore fresh gap rest := by
  have blanks (text : Text) : ∃ blanks rest, text = blanks ++ rest ∧ IsBlank blanks ∧
      ∀ g ∈ rest.head?, Guard.blank.admits g = false := by
    refine ⟨_, _, (List.takeWhile_append_dropWhile (p := Guard.blank.admits)).symm,
      List.all_eq_true.mp List.all_takeWhile, fun g ahead => ?_⟩
    have stops := List.head?_dropWhile_not Guard.blank.admits text
    rw [ahead] at stops
    exact stops
  by_cases marked : fresh = true ∧ text.head? = some Glyph.byteOrderMark
  · obtain ⟨isFresh, head⟩ := marked
    cases text with
    | nil => cases head
    | cons g text =>
      obtain rfl := Option.some.inj head
      obtain ⟨gap, rest, rfl, blank, notBlank⟩ := blanks text
      exact ⟨Glyph.byteOrderMark :: gap, rest, rfl, notBlank, .inr ⟨isFresh, gap, rfl, blank⟩⟩
  · obtain ⟨gap, rest, rfl, blank, notBlank⟩ := blanks text
    exact ⟨gap, rest, rfl, notBlank, .inl ⟨blank, fun isFresh head => marked ⟨isFresh, head⟩⟩⟩

/-! ### Pieces -/

/-- A piece of a text: a gap and the text of a token behind it, what it is read as, and the state that
it is read in. -/
structure Piece where
  gap : Text
  body : Text
  token : Token
  isKeyword : Bool
  state : State

namespace Piece

/-- The lexeme that a piece is read as. -/
def lexeme (x : Piece) : Lexeme :=
  ⟨.read x.token, x.gap.extent, x.body.extent, x.isKeyword, x.state⟩

/-- The text of pieces that follow one another. -/
def textOf (xs : List Piece) : Text :=
  xs.flatMap fun x => x.gap ++ x.body

@[simp] theorem textOf_nil : textOf [] = [] := rfl

@[simp] theorem textOf_cons (x : Piece) (xs : List Piece) :
    textOf (x :: xs) = x.gap ++ (x.body ++ textOf xs) := by
  simp [textOf]

@[simp] theorem textOf_append (xs ys : List Piece) : textOf (xs ++ ys) = textOf xs ++ textOf ys :=
  List.flatMap_append

/-- Each piece is what is read of the text from there on. `fresh` says that nothing stands before the
pieces, and only the last one may be empty. -/
def Laid : Bool → List Piece → Prop
  | _, [] => True
  | fresh, x :: rest => IsGapBefore fresh x.gap (x.body ++ textOf rest) ∧
      reading x.state (x.body ++ textOf rest) = some (x.token, x.isKeyword, x.body.extent) ∧
      (rest ≠ [] → x.body ≠ []) ∧ Laid false rest

variable {fresh : Bool} {x : Piece} {xs ys zs zs' : List Piece}

theorem Laid.append_right (h : Laid fresh (ys ++ zs)) : Laid (fresh && ys.isEmpty) zs := by
  induction ys generalizing fresh with
  | nil => simpa using h
  | cons y ys ih => simpa using ih h.2.2.2

/-! ### What is read -/

end Piece

/-- The keyword that is read for a name is one that the state knows. -/
theorem keywordOf?_spec {s : State} {g : Glyph} {others : Text} {size : Extent} {k : Token}
    (first : Guard.identifierStart.admits g = true)
    (h : keywordOf? s (g :: others) size = some k) :
    k ∈ Token.keywords ∧ s.knows (.token k) = true := by
  obtain ⟨⟨k', e⟩, ahead, known⟩ := Option.bind_eq_some_iff.mp h
  dsimp only at known
  split at known
  · rename_i fits
    obtain rfl := Option.some.inj known
    have reach := reach_keywordRun (p := .zero) others first
    rw [ahead] at reach
    obtain ⟨_, accepted⟩ := Run.reach_eq_some.mp reach
    exact ⟨mem_keywords_of_accepted accepted, (Bool.and_eq_true_iff.mp fits).2⟩
  · cases known

/-- What is accepted for a state is accepted in a lex mode. -/
theorem exists_longest {s : State} {rest : Text} {t : Token} {size : Extent}
    (first : (longest s.lexMode rest).or (longest .anything rest) = some (t, size)) :
    ∃ mode, longest mode rest = some (t, size) := by
  rcases Option.or_eq_some_iff.mp first with found | ⟨-, found⟩
  · exact ⟨_, found⟩
  · exact ⟨_, found⟩

/-- What is no name is read in the same way in two states of a lex mode, if it is no keyword that one of
them does not know. -/
theorem reading_of_lexMode {s s' : State} {rest : Text} {t : Token} {k : Bool} {size : Extent}
    (mode : s'.lexMode = s.lexMode) (notBlank : ∀ g ∈ rest.head?, Guard.blank.admits g = false)
    (h : reading s rest = some (t, k, size)) (notName : t ≠ .identifier)
    (knows : t ∈ Token.keywords → s'.knows (.token t) = true) :
    reading s' rest = some (t, k, size) := by
  obtain ⟨⟨u, extent⟩, first, same⟩ := Option.map_eq_some_iff.mp h
  rw [reading, mode, first, Option.map_some, ← same]
  dsimp only at same ⊢
  by_cases isName : u = .identifier
  · rw [if_pos isName, if_pos isName]
    rw [if_pos isName] at same
    have isToken := (Prod.mk.inj same).1
    cases keyword : keywordOf? s rest extent with
    | none =>
      rw [keyword] at isToken
      exact absurd isToken.symm notName
    | some k' =>
      rw [keyword] at isToken
      obtain rfl : k' = t := isToken
      subst isName
      obtain ⟨mode', accepts⟩ := exists_longest first
      obtain ⟨g, others, rfl, starts⟩ := head_of_identifier notBlank accepts
      have known := knows (keywordOf?_spec starts keyword).1
      obtain ⟨⟨k, e⟩, ahead, fits⟩ := Option.bind_eq_some_iff.mp keyword
      have keyword' : keywordOf? s' (g :: others) extent = some k' := by
        refine Option.bind_eq_some_iff.mpr ⟨⟨k, e⟩, ahead, ?_⟩
        dsimp only at fits ⊢
        split at fits
        · rename_i bounds
          obtain rfl := Option.some.inj fits
          rw [(Bool.and_eq_true_iff.mp bounds).1, known]
          rfl
        · cases fits
      rw [keyword']
  · rw [if_neg isName, if_neg isName]

theorem IsSpelling.ne_eof {mode : LexMode} {t : Token} {body : Text} (h : IsSpelling mode t body) :
    t ≠ .eof := by
  obtain ⟨-, inner, leads, accepts⟩ := h
  rintro rfl
  exact (inner_accepts (leads.isInner inner)).1 accepts

/-- What is read is spelled as itself or, if it is a keyword, as a name. -/
theorem exists_of_reading {s : State} {rest : Text} {t : Token} {k : Bool} {size : Extent}
    (notBlank : ∀ g ∈ rest.head?, Guard.blank.admits g = false)
    (h : reading s rest = some (t, k, size)) :
    t = .eof ∧ rest = [] ∧ size = .zero ∧ k = false ∨
      t ≠ .eof ∧ ∃ u body after, rest = body ++ after ∧ size = body.extent ∧ Fits u body after ∧
        body ≠ [] ∧ (u = t ∧ (k = true → t = .identifier) ∨ u = .identifier ∧ t ∈ Token.keywords) := by
  obtain ⟨⟨u, size'⟩, first, same⟩ := Option.map_eq_some_iff.mp h
  dsimp only at same
  obtain ⟨mode, accepts⟩ := exists_longest first
  by_cases isName : u = .identifier
  · subst isName
    obtain ⟨g, others, rfl, starts⟩ := head_of_identifier notBlank accepts
    rcases exists_of_longest notBlank accepts with ⟨isEnd, -⟩ | ⟨body, after, split, rfl, spelled, fits⟩
    · cases isEnd
    rw [if_pos rfl] at same
    obtain ⟨isToken, others'⟩ := Prod.mk.inj same
    have ne : body ≠ [] := by
      rintro rfl
      cases spelled
    have size := (Prod.mk.inj others').2.symm
    cases keyword : keywordOf? s (g :: others) body.extent with
    | none =>
      rw [keyword] at isToken
      obtain rfl : Token.identifier = t := isToken
      exact .inr ⟨nofun, _, body, after, split, size, fits, ne, .inl ⟨rfl, fun _ => rfl⟩⟩
    | some k' =>
      rw [keyword] at isToken
      obtain rfl : k' = t := isToken
      have isKeyword := (keywordOf?_spec starts keyword).1
      refine .inr ⟨?_, _, body, after, split, size, fits, ne, .inr ⟨rfl, isKeyword⟩⟩
      rintro rfl
      revert isKeyword
      decide
  · rw [if_neg isName] at same
    obtain ⟨rfl, others⟩ := Prod.mk.inj same
    obtain ⟨rfl, rfl⟩ := Prod.mk.inj others
    rcases exists_of_longest notBlank accepts with ⟨rfl, rfl, rfl⟩ | ⟨body, after, rfl, rfl, spelled, fits⟩
    · exact .inl ⟨rfl, rfl, rfl, rfl⟩
    · refine .inr ⟨spelled.ne_eof, u, body, after, rfl, rfl, fits, ?_, .inl ⟨rfl, nofun⟩⟩
      rintro rfl
      cases spelled

theorem exists_longest_of_reading {s : State} {rest : Text} {t : Token} {k : Bool} {size : Extent}
    (h : reading s rest = some (t, k, size)) : ∃ mode u, longest mode rest = some (u, size) := by
  obtain ⟨⟨u, size'⟩, first, same⟩ := Option.map_eq_some_iff.mp h
  obtain rfl : size' = size := by
    dsimp only at same
    split at same <;> exact (Prod.mk.inj (Prod.mk.inj same).2).2
  obtain ⟨mode, accepts⟩ := exists_longest first
  exact ⟨mode, u, accepts⟩

namespace Piece

variable {fresh : Bool} {x : Piece} {xs ys zs zs' : List Piece}

/-- What is known of a piece by itself. -/
structure Stands (x : Piece) (after : Text) : Prop where
  reads : reading x.state (x.body ++ after) = some (x.token, x.isKeyword, x.body.extent)
  notBlank : ∀ g ∈ x.body.head?, Guard.blank.admits g = false
  kind : x.token = .eof ∧ x.body = [] ∧ after = [] ∧ x.isKeyword = false ∨
    x.token ≠ .eof ∧ x.body ≠ [] ∧ ∃ u, Fits u x.body after ∧
      (u = x.token ∧ (x.isKeyword = true → x.token = .identifier) ∨
        u = .identifier ∧ x.token ∈ Token.keywords)

theorem Laid.stands (h : Laid fresh (x :: xs)) : x.Stands (textOf xs) := by
  obtain ⟨⟨notBlank, -⟩, reads, -, -⟩ := h
  have notBlank' : ∀ g ∈ x.body.head?, Guard.blank.admits g = false := by
    intro g ahead
    refine notBlank g ?_
    cases same : x.body with
    | nil =>
      rw [same] at ahead
      cases ahead
    | cons h body =>
      rw [same] at ahead
      exact ahead
  refine ⟨reads, notBlank', ?_⟩
  rcases exists_of_reading notBlank reads with ⟨isEnd, isEmpty, -, name⟩ |
    ⟨notEnd, u, body, after, split, extent, fits, ne, known⟩
  · obtain ⟨body, after⟩ := List.append_eq_nil_iff.mp isEmpty
    exact .inl ⟨isEnd, body, after, name⟩
  · obtain ⟨rfl, rfl⟩ := Text.prefix_unique split (congrArg Extent.bytes extent)
    exact .inr ⟨notEnd, ne, u, fits, known⟩

/-- A slash with a star behind it is read alone only where no comment is closed. -/
theorem Stands.not_closes {rest : Text} (h : x.Stands (star :: rest)) (isSlash : x.body = [slash])
    (free : nul ∉ rest) : ¬Closes rest := by
  intro closes
  have reads := h.reads
  rw [isSlash] at reads
  obtain ⟨mode, u, accepts⟩ := exists_longest_of_reading reads
  have token := tokenRun_opening mode .zero free
  obtain ⟨_, accepted⟩ := Run.reach_eq_some.mp accepts
  rw [if_pos closes, Run.token?, show tokenRun mode ⟨.zero, slash :: star :: rest⟩ =
    tokenRun mode ⟨.zero, [slash] ++ star :: rest⟩ from rfl, accepted] at token
  obtain rfl : u = .blockComment := Option.some.inj token
  rcases exists_of_longest (fun g mem => by obtain rfl := Option.some.inj mem; rfl) accepts with
    ⟨isEnd, -⟩ | ⟨body, after, split, extent, -, others, rfl, -⟩
  · cases isEnd
  · obtain ⟨same, -⟩ := Text.prefix_unique split (congrArg Extent.bytes extent)
    cases same

theorem textOf_ne_nil (some : x.body ≠ []) (xs : List Piece) : textOf (x :: xs) ≠ [] := by
  simp [some]

/-- Where some pieces give way to others, the pieces before them stay what they were, if nothing is
accepted any more behind them with what comes next. -/
theorem Laid.replace (h : Laid fresh (ys ++ zs)) (some : zs ≠ [])
    (h' : Laid (fresh && ys.isEmpty) zs')
    (ends : ∀ front y back, ys = front ++ y :: back → ∀ m, MayEnd y.token y.body m →
      tokenAutomaton.Ends m (textOf (back ++ zs)) → tokenAutomaton.Ends m (textOf (back ++ zs'))) :
    Laid fresh (ys ++ zs') := by
  induction ys generalizing fresh with
  | nil => simpa using h'
  | cons y ys ih =>
    have stands := Laid.stands h
    obtain ⟨⟨notBlank, gap⟩, reads, body, later⟩ := h
    have ne : y.body ≠ [] := body (by simp [some])
    refine ⟨?_, ?_, fun _ => ne, ih later (by simpa using h') fun front z back split =>
      ends (y :: front) z back (by rw [split]; rfl)⟩
    · cases same : y.body with
      | nil => exact absurd same ne
      | cons g others =>
        rw [same] at notBlank gap
        refine ⟨notBlank, gap.imp (fun ⟨blank, noMark⟩ => ⟨blank, fun isFresh => ?_⟩) id⟩
        have noMark := noMark isFresh
        cases isGap : y.gap with
        | nil =>
          rw [isGap] at noMark
          exact noMark
        | cons b blanks =>
          rw [isGap] at noMark
          exact noMark
    · have first := stands.notBlank
      have keeps := ends [] y ys rfl
      cases same : y.body with
      | nil => exact absurd same ne
      | cons g others =>
        rw [same] at reads first keeps
        exact reading_congr (first g rfl) reads keeps

/-- Where some pieces give way to others, the pieces before them stay what they were, if no comment is
closed behind a slash with a star, and nothing is accepted any more behind the last one of them. -/
theorem Laid.replace_of_seam (h : Laid fresh (ys ++ zs)) (some : zs ≠ [])
    (h' : Laid (fresh && ys.isEmpty) zs') (free : nul ∉ textOf (ys ++ zs'))
    (opens : ∀ front y back rest, ys = front ++ y :: back → back ≠ [] → y.body = [slash] →
      textOf (back ++ zs) = star :: rest → ∀ rest', textOf (back ++ zs') = star :: rest' →
        ¬Closes rest')
    (seam : ∀ front y, ys = front ++ [y] → ∀ m, MayEnd y.token y.body m →
      tokenAutomaton.Ends m (textOf zs) → tokenAutomaton.Ends m (textOf zs')) :
    Laid fresh (ys ++ zs') := by
  refine h.replace some h' fun front y back split m mayEnd ends => ?_
  cases back with
  | nil => exact seam front y split m mayEnd ends
  | cons z back =>
    have later : Laid (fresh && (front ++ [y]).isEmpty) (z :: back ++ zs) := by
      rw [split] at h
      exact Laid.append_right (show Laid fresh (front ++ [y] ++ (z :: back ++ zs)) by simpa using h)
    have ne : textOf (z :: back) ≠ [] := textOf_ne_nil (later.2.2.1 (by simp [some])) back
    obtain ⟨g, rest, same⟩ := List.exists_cons_of_ne_nil ne
    have free' : nul ∉ rest ++ textOf zs' := by
      intro mem
      refine free ?_
      rw [split, List.append_assoc, textOf_append, List.cons_append, textOf_cons, List.mem_append,
        List.mem_append, List.mem_append]
      refine .inr (.inr (.inr ?_))
      rw [textOf_append, same]
      exact List.mem_cons_of_mem g mem
    rw [textOf_append, same] at ends ⊢
    refine mayEnd.ends_of_same_head ends free' fun isSlash isStar => ?_
    subst isStar
    refine opens front y (z :: back) (rest ++ textOf zs) split (by simp) isSlash ?_ _ ?_
    · rw [textOf_append, same]
      rfl
    · rw [textOf_append, same]
      rfl

end Piece

end SusSyntax.Lexical
