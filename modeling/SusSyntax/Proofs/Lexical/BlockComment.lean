import SusSyntax.Proofs.Lexical.TokenStart

/-!
Where a slash and a star open a comment.

The states inside a block comment go on to the first star with a slash behind it, and to nowhere if
there is none (`runFrom_commentState`). So a slash with a star behind it is read as a comment if one is
closed behind it, and otherwise as what it would be read as alone, which not all lex modes know
(`tokenRun_opening`).
-/

namespace SusSyntax.Lexical

open Grammar

/-- A text holds a star with a slash behind it, which ends a comment. -/
def Closes (text : Text) : Prop :=
  [star, slash] <:+: text

instance (text : Text) : Decidable (Closes text) :=
  inferInstanceAs (Decidable ([star, slash] <:+: text))

theorem not_closes_nil : ¬Closes [] := by
  simp [Closes]

theorem not_closes_star : ¬Closes [star] := by
  decide

theorem closes_cons_of_ne {g : Glyph} {rest : Text} (ne : g ≠ star) :
    Closes (g :: rest) ↔ Closes rest := by
  simp [Closes, List.infix_cons_iff, List.cons_prefix_cons, ne.symm]

/-- What is ahead in a comment, with the star if there is one right before. -/
def behind (behindStar : Bool) (rest : Text) : Text :=
  if behindStar then star :: rest else rest

/-- A text that goes on behind a star closes a comment if there is a slash next, or later on. -/
theorem closes_star_cons {g : Glyph} {rest : Text} :
    Closes (star :: g :: rest) ↔ g = slash ∨ Closes (g :: rest) := by
  simp [Closes, List.infix_cons_iff, List.cons_prefix_cons, eq_comm]

theorem closes_behind_cons {behindStar : Bool} {g : Glyph} {rest : Text}
    (open' : ¬(behindStar = true ∧ g = slash)) :
    Closes (behind (g == star) rest) ↔ Closes (behind behindStar (g :: rest)) := by
  by_cases isStar : g = star
  · subst isStar
    have ne : star ≠ slash := by decide
    cases behindStar <;> simp [behind, closes_star_cons, ne]
  · cases behindStar with
    | false => simp [behind, isStar, closes_cons_of_ne isStar]
    | true =>
      have notSlash : g ≠ slash := fun same => open' ⟨rfl, same⟩
      simp [behind, isStar, closes_star_cons, notSlash, closes_cons_of_ne isStar]

/-- Where a comment is not closed, the next glyph does not close it, and neither does what is behind
that glyph. -/
theorem open_behind_cons {behindStar : Bool} {g : Glyph} {rest : Text}
    (open' : ¬Closes (behind behindStar (g :: rest))) :
    ¬(behindStar = true ∧ g = slash) ∧ ¬Closes (behind (g == star) rest) := by
  have goesOn : ¬(behindStar = true ∧ g = slash) := by
    rintro ⟨rfl, rfl⟩
    exact open' (closes_star_cons.mpr (.inl rfl))
  exact ⟨goesOn, mt (closes_behind_cons goesOn).mp open'⟩

/-! ### Inside a block comment -/

/-- Inside a comment everything but the character NUL is passed over. -/
theorem admits_inComment {g : Glyph} (ne : g ≠ nul) : (Guard.anyBut []).admits g = true := by
  cases g with
  | malformed => rfl
  | char code =>
    have notZero : code ≠ 0 := by
      rintro rfl
      exact ne rfl
    simpa [Guard.admits] using notZero

/-- The state of the token automaton inside a block comment, behind a star or not. -/
def commentState (behindStar : Bool) : Nat :=
  if behindStar then 5 else 6

theorem not_admits_char {g : Glyph} {c : Char} (ne : g ≠ .char c.toNat) :
    (Guard.char c).admits g = false := by
  simpa [Guard.admits, Glyph.isChar] using ne

theorem move?_commentState {g : Glyph} (ne : g ≠ nul) (behindStar : Bool) :
    ((tokenAutomaton.state (commentState behindStar)).move? g).map Move.target =
      some (if behindStar = true ∧ g = slash then 45 else commentState (g == star)) := by
  have other := admits_inComment ne
  by_cases isStar : g = star
  · subst isStar
    cases behindStar <;> rfl
  · have notStar : (Move.on '*' 5).guard.admits g = false := not_admits_char isStar
    cases behindStar with
    | false =>
      change Option.map _ (List.find? _ [Move.on '*' 5, Move.via (.anyBut []) 6]) = _
      simp [notStar, other, Move.via, commentState, isStar]
    | true =>
      change Option.map _ (List.find? _ [Move.on '*' 5, Move.on '/' 45, Move.via (.anyBut []) 6]) = _
      by_cases isSlash : g = slash
      · subst isSlash
        rfl
      · have notSlash : (Move.on '/' 45).guard.admits g = false := not_admits_char isSlash
        simp [notStar, notSlash, other, Move.via, commentState, isStar, isSlash]

/-- The token that a run accepts. -/
def Run.token? (run : Run) : Option Token :=
  run.accepted.map Prod.fst

/-- From inside a comment a run goes on to where the comment is closed. -/
theorem runFrom_commentState {rest : Text} (free : nul ∉ rest) (behindStar : Bool)
    (found : Option (Token × Cursor)) (start pos : Extent) :
    (tokenAutomaton.runFrom (commentState behindStar) found start pos rest).token? =
      if Closes (behind behindStar rest) then some .blockComment else found.map Prod.fst := by
  induction rest generalizing behindStar found start pos with
  | nil =>
    have notClosed : ¬Closes (behind behindStar []) := by
      cases behindStar
      · exact not_closes_nil
      · exact not_closes_star
    rw [if_neg notClosed]
    cases behindStar <;> rfl
  | cons g rest ih =>
    obtain ⟨ne, free⟩ : g ≠ nul ∧ nul ∉ rest := by simpa [eq_comm] using free
    have nothing :
        tokenAutomaton.accepted (commentState behindStar) ⟨pos, g :: rest⟩ found = found := by
      cases behindStar <;> rfl
    obtain ⟨move, moved, target⟩ := Option.map_eq_some_iff.mp (move?_commentState ne behindStar)
    simp only [Automaton.runFrom, nothing, moved, target]
    by_cases closed : behindStar = true ∧ g = slash
    · obtain ⟨rfl, rfl⟩ := closed
      have closes : Closes (behind true (slash :: rest)) := closes_star_cons.mpr (.inl rfl)
      rw [if_pos ⟨rfl, rfl⟩, if_pos closes]
      cases rest <;> rfl
    · rw [if_neg closed, ih free]
      simp only [closes_behind_cons closed]

/-! ### Where a comment may begin -/

/-- A slash with a star behind it is a comment if one is closed behind it. Otherwise it is what it
would be alone. -/
theorem tokenRun_opening (mode : LexMode) (pos : Extent) {rest : Text} (free : nul ∉ rest) :
    (tokenRun mode ⟨pos, slash :: star :: rest⟩).token? =
      if Closes rest then some .blockComment
      else if mode = .operand then none else some .slash := by
  have inside := fun found start pos => runFrom_commentState free false found start pos
  cases mode with
  | operand =>
    exact inside none pos _
  | anything =>
    exact inside (some (.slash, _)) pos _
  | operator =>
    exact inside (some (.slash, _)) pos _

/-- A star is a token of its own. -/
theorem tokenRun_star (mode : LexMode) (pos : Extent) (rest : Text) :
    (tokenRun mode ⟨pos, star :: rest⟩).token? = some .star := by
  cases mode <;> cases rest <;> rfl

end SusSyntax.Lexical
