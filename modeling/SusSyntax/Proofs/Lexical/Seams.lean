import SusSyntax.Proofs.Lexical.Reading

/-!
What may come behind a token without going on with it.

A token does not depend on what stands behind its next glyph, unless it is a slash and a star is next
(`MayEnd.ends_of_same_head`). And its next glyph may be a blank or a line break, unless it is a line
comment and the glyph is a blank (`MayEnd.ends_of_break`); or the beginning of any name if it was the
beginning of another one, unless the token is a number (`MayEnd.ends_of_name`).
-/

namespace SusSyntax

namespace CharSet

/-- Whether ranges in increasing order cover all of some others. -/
def covers : List (Nat × Nat) → List (Nat × Nat) → Bool
  | [], inner => inner.isEmpty
  | (lo, hi) :: outer, inner =>
    let left := inner.dropWhile fun r => lo ≤ r.1 && r.2 ≤ hi
    (lo ≤ hi && left.head?.all fun r => hi < r.1) && covers outer left

theorem le_of_rangesContain {c lo hi : Nat} {rest : List (Nat × Nat)}
    (h : rangesContain c ((lo, hi) :: rest) = true) :
    lo ≤ c ∧ (c ≤ hi ∨ rangesContain c rest = true) := by
  rw [rangesContain] at h
  split at h
  · cases h
  · rename_i notBelow
    split at h
    · rename_i within
      exact ⟨Nat.not_lt.mp notBelow, .inl within⟩
    · exact ⟨Nat.not_lt.mp notBelow, .inr h⟩

theorem rangesContain_dropWhile {c : Nat} (lo hi : Nat) {inner : List (Nat × Nat)}
    (h : rangesContain c inner = true) : lo ≤ c ∧ c ≤ hi ∨
      rangesContain c (inner.dropWhile fun r => lo ≤ r.1 && r.2 ≤ hi) = true := by
  induction inner with
  | nil => cases h
  | cons r inner ih =>
    rw [List.dropWhile_cons]
    split
    · rename_i within
      simp only [Bool.and_eq_true, decide_eq_true_eq] at within
      obtain ⟨low, high | later⟩ := le_of_rangesContain h
      · exact .inl ⟨Nat.le_trans within.1 low, Nat.le_trans high within.2⟩
      · exact ih later
    · exact .inr h

theorem rangesContain_of_covers {c : Nat} {outer inner : List (Nat × Nat)}
    (covered : covers outer inner = true) (h : rangesContain c inner = true) :
    rangesContain c outer = true := by
  induction outer generalizing inner with
  | nil =>
    obtain rfl := List.isEmpty_iff.mp covered
    exact h
  | cons range outer ih =>
    obtain ⟨lo, hi⟩ := range
    simp only [covers, Bool.and_eq_true, decide_eq_true_eq] at covered
    obtain ⟨⟨sane, beyond⟩, covered⟩ := covered
    rw [rangesContain]
    rcases rangesContain_dropWhile lo hi h with ⟨low, high⟩ | later
    · rw [if_neg (Nat.not_lt.mpr low), if_pos high]
    · cases same : inner.dropWhile (fun r => lo ≤ r.1 && r.2 ≤ hi) with
      | nil =>
        rw [same] at later
        cases later
      | cons r left =>
        have above : hi < c := by
          rw [same] at later beyond
          exact Nat.lt_of_lt_of_le (of_decide_eq_true beyond) (le_of_rangesContain later).1
        rw [if_neg (by omega), if_neg (by omega)]
        exact ih covered later

end CharSet

namespace Lexical

open Grammar

/-- What a name begins with is in one of the ranges, and no other character is. -/
theorem contains_identifierStart_iff {code : Nat} : identifierStart.contains code = true ↔
    ∃ r ∈ identifierStart.ranges, r.1 ≤ code ∧ code ≤ r.2 :=
  CharSet.contains_iff (by decide +kernel)

theorem contains_identifierContinue_iff {code : Nat} : identifierContinue.contains code = true ↔
    ∃ r ∈ identifierContinue.ranges, r.1 ≤ code ∧ code ≤ r.2 :=
  CharSet.contains_iff (by decide +kernel)

/-- What begins a name may go on with one. -/
theorem identifierContinue_of_start {g : Glyph} (starts : Guard.identifierStart.admits g = true) :
    Guard.identifierContinue.admits g = true := by
  cases g with
  | malformed => cases starts
  | char code =>
    have covered : CharSet.covers Lexical.identifierContinue.ranges
        Lexical.identifierStart.ranges = true := by
      decide +kernel
    exact CharSet.rangesContain_of_covers covered starts

theorem le_of_identifierStart {code : Nat}
    (starts : Guard.identifierStart.admits (.char code) = true) : 65 ≤ code := by
  rw [← Nat.not_lt]
  intro low
  exact absurd ((not_contains_of_lt low).symm.trans starts) (by decide)

/-! ### Inside a block comment -/

/-- Where a comment is not closed, nothing is accepted any more inside it. -/
theorem ends_commentState {rest : Text} (free : nul ∉ rest) :
    tokenAutomaton.Ends (commentState false) rest ↔ ¬Closes rest := by
  have token := runFrom_commentState free false none .zero .zero
  change _ = if Closes rest then _ else _ at token
  constructor
  · intro ends closes
    rw [if_pos closes, Run.token?, ends.accepted_eq] at token
    cases token
  · intro open'
    rw [if_neg open'] at token
    have last : ∀ t e, (tokenAutomaton.runFrom (commentState false) none .zero .zero rest).reach =
        some (t, e) → e.bytes ≤ Extent.zero.bytes := by
      intro t e reach
      rw [Run.reach, Option.map_eq_none_iff.mp token] at reach
      cases reach
    exact ends_of_reach (by decide) last

namespace MayEnd

variable {t : Token} {body : Text} {m : Nat}

/-- What is so for every move of the token automaton that accepts nothing: it goes on inside a block
comment, or begins one behind a slash. -/
def isQuietMove (n : Nat) (m : Move) : Bool :=
  !isInner n || n == 5 || n == 6 || (tokenAutomaton.state m.target).accepts.isSome ||
    m.target == 6 && tokenWord n == ['/'] && isStraight n && match m.guard with
      | .char c => c == '*'
      | _ => false

theorem ends_of_same_head (h : MayEnd t body m) {g : Glyph} {rest rest' : Text}
    (ends : tokenAutomaton.Ends m (g :: rest)) (free : nul ∉ rest')
    (open' : body = [slash] → g = star → ¬Closes rest') : tokenAutomaton.Ends m (g :: rest') := by
  intro move moved
  have quiet := (ends move moved).1
  refine ⟨quiet, ?_⟩
  have notInComment : (m == 5) = false ∧ (m == 6) = false :=
    ⟨beq_eq_false_iff_ne.mpr (h.outside true), beq_eq_false_iff_ne.mpr (h.outside false)⟩
  have holds := moves_hold isQuietMove (by decide) moved
  have admits := (move?_mem moved).2
  obtain ⟨guard, skips, target⟩ := move
  simp only [isQuietMove, h.inner, notInComment, quiet, Option.isSome_none, Bool.not_true,
    Bool.false_or, Bool.and_eq_true, beq_iff_eq] at holds
  obtain ⟨⟨⟨rfl, word⟩, straight⟩, isStar⟩ := holds
  cases guard with
  | char c =>
    obtain rfl := eq_of_beq isStar
    obtain rfl : g = star := eq_of_beq admits
    have isSlash : body = [slash] := by
      have read := h.isReadIn
      cases read with
      | word => rw [word]; rfl
      | inComment => exact absurd rfl (h.outside _)
      | _ => cases straight
    exact (ends_commentState free).mpr (open' isSlash rfl)
  | _ => cases isStar

/-- What is so for every move of the token automaton inside a token: a blank or a line break is only
passed over in a comment. -/
def isUnbrokenMove (n : Nat) (m : Move) : Bool :=
  !isInner n || n == 5 || n == 6 || match m.guard with
    | .char c => !([' ', '\t', '\r', '\n'].contains c)
    | .digit | .identifierStart | .identifierContinue => true
    | .blank => false
    | .anyBut cs => cs == ['\n'] && (tokenAutomaton.state n).accepts == some .lineComment

/-- A blank or a line break. -/
def isBreak (g : Glyph) : Bool :=
  [' ', '\t', '\r', '\n'].any g.isChar

theorem not_admits_isBreak {g : Glyph} (isBreak : isBreak g = true) :
    Guard.digit.admits g = false ∧ Guard.identifierStart.admits g = false ∧
      Guard.identifierContinue.admits g = false := by
  obtain ⟨c, mem, isChar⟩ := List.any_eq_true.mp isBreak
  obtain rfl := eq_of_beq isChar
  simp only [List.mem_cons, List.not_mem_nil, or_false] at mem
  rcases mem with rfl | rfl | rfl | rfl <;> decide

theorem ends_of_break (h : MayEnd t body m) {g : Glyph} (isBreak : isBreak g = true)
    (line : t = .lineComment → g = .char '\n'.toNat) (rest : Text) :
    tokenAutomaton.Ends m (g :: rest) := by
  intro move moved
  exfalso
  have notInComment : (m == 5) = false ∧ (m == 6) = false :=
    ⟨beq_eq_false_iff_ne.mpr (h.outside true), beq_eq_false_iff_ne.mpr (h.outside false)⟩
  have holds := moves_hold isUnbrokenMove (by decide) moved
  have admits := (move?_mem moved).2
  obtain ⟨digit, start, continue'⟩ := not_admits_isBreak isBreak
  obtain ⟨guard, skips, target⟩ := move
  simp only [isUnbrokenMove, h.inner, notInComment, Bool.not_true, Bool.false_or] at holds
  cases guard with
  | char c =>
    obtain ⟨c', mem, isChar⟩ := List.any_eq_true.mp isBreak
    obtain rfl := eq_of_beq admits
    dsimp only at holds
    rw [Char.toNat_inj.mp (Glyph.char.inj (eq_of_beq isChar)), List.contains_iff_mem.mpr mem] at holds
    cases holds
  | digit => rw [digit] at admits; cases admits
  | identifierStart => rw [start] at admits; cases admits
  | identifierContinue => rw [continue'] at admits; cases admits
  | blank => cases holds
  | anyBut cs =>
    simp only [Bool.and_eq_true, beq_iff_eq] at holds
    obtain ⟨rfl, accepts⟩ := holds
    rcases h.accepts _ accepts with same | same
    · obtain rfl := line same.symm
      cases admits
    · cases same

/-- What is so for every move of the token automaton inside a token: the beginning of a name is only
passed over in a name, in a number, or in a comment. -/
def isNamelessMove (n : Nat) (m : Move) : Bool :=
  !isInner n || n == 5 || n == 6 || match m.guard with
    | .char c => !Lexical.identifierStart.contains c.toNat ||
        (tokenAutomaton.state n).accepts == some .number
    | .digit => true
    | .identifierStart | .blank => false
    | .identifierContinue => n == nameState
    | .anyBut cs => cs == ['\n'] && n == 44

theorem ends_of_name (h : MayEnd t body m) (notNumber : t ≠ .number) {g g' : Glyph}
    {rest : Text} (ends : tokenAutomaton.Ends m (g :: rest))
    (starts : Guard.identifierStart.admits g = true)
    (starts' : Guard.identifierStart.admits g' = true) (rest' : Text) :
    tokenAutomaton.Ends m (g' :: rest') := by
  intro move moved
  exfalso
  have notInComment : (m == 5) = false ∧ (m == 6) = false :=
    ⟨beq_eq_false_iff_ne.mpr (h.outside true), beq_eq_false_iff_ne.mpr (h.outside false)⟩
  have holds := moves_hold isNamelessMove (by decide) moved
  have admits := (move?_mem moved).2
  obtain ⟨guard, skips, target⟩ := move
  simp only [isNamelessMove, h.inner, notInComment, Bool.not_true, Bool.false_or] at holds
  cases guard with
  | char c =>
    obtain rfl := eq_of_beq admits
    dsimp only at holds
    rw [show Lexical.identifierStart.contains c.toNat = true from starts', Bool.not_true,
      Bool.false_or, beq_iff_eq] at holds
    rcases h.accepts _ holds with same | same
    · exact notNumber same.symm
    · cases same
  | digit =>
    cases g' with
    | malformed => cases admits
    | char code =>
      simp only [Guard.admits, Bool.and_eq_true, decide_eq_true_eq] at admits
      exact absurd (le_of_identifierStart starts')
        (Nat.not_le.mpr (Nat.lt_of_le_of_lt admits.2 (by decide)))
  | identifierStart | blank => cases holds
  | identifierContinue =>
    obtain rfl := eq_of_beq holds
    have stop := ends_identifier_iff.mp ends g rfl
    rw [identifierContinue_of_start starts] at stop
    cases stop
  | anyBut cs =>
    simp only [Bool.and_eq_true, beq_iff_eq] at holds
    obtain ⟨rfl, rfl⟩ := holds
    cases g with
    | malformed => cases starts
    | char code =>
      have low := le_of_identifierStart starts
      have inside : (Guard.anyBut ['\n']).admits (.char code) = true := by
        simp [Guard.admits]
        omega
      cases (ends (.via (.anyBut ['\n']) 44) (List.find?_cons_of_pos inside)).1

end MayEnd

/-! ### Names, comments and line breaks -/

/-- A state that is left for itself only accepts as far as it can. -/
theorem reach_stretch {m : Nat} {t : Token} {inside : Glyph → Bool} {body after : Text}
    (accepts : (tokenAutomaton.state m).accepts = some t) (inner : isInner m = true)
    (loops : ∀ g, ((tokenAutomaton.state m).move? g).map Move.target =
      if inside g then some m else none)
    (stretch : IsStretch inside body after) (found : Option (Token × Cursor))
    (start pos : Extent) :
    (tokenAutomaton.runFrom m found start pos (body ++ after)).reach =
      some (t, pos + body.extent) := by
  obtain ⟨all, stops⟩ := stretch
  induction body generalizing found start pos with
  | nil =>
    have ends : tokenAutomaton.Ends m after := by
      cases after with
      | nil => exact (inner_accepts inner).2
      | cons g after =>
        intro move moved
        have stays := loops g
        rw [moved, stops g rfl] at stays
        cases stays
    rw [Run.reach, List.nil_append, ends.accepted_eq, Automaton.accepted, accepts, Text.extent_nil,
      Extent.add_zero]
    rfl
  | cons g body ih =>
    obtain ⟨first, all⟩ := List.forall_mem_cons.mp all
    have stays := loops g
    rw [first, if_pos rfl] at stays
    obtain ⟨move, moved, target⟩ := Option.map_eq_some_iff.mp stays
    simp only [List.cons_append, Automaton.runFrom, moved, target]
    rw [ih _ _ _ all, Text.extent_cons, Extent.add_assoc]

theorem reach_name {body after : Text}
    (stretch : IsStretch Guard.identifierContinue.admits body after)
    (found : Option (Token × Cursor)) (start pos : Extent) :
    (tokenAutomaton.runFrom nameState found start pos (body ++ after)).reach =
      some (.identifier, pos + body.extent) := by
  refine reach_stretch rfl (by decide) (fun g => ?_) stretch found start pos
  rw [move?_nameState]
  cases Guard.identifierContinue.admits g <;> rfl

theorem reach_lineComment {body after : Text} (stretch : IsStretch isInLine body after)
    (found : Option (Token × Cursor)) (start pos : Extent) :
    (tokenAutomaton.runFrom 44 found start pos (body ++ after)).reach =
      some (.lineComment, pos + body.extent) := by
  refine reach_stretch rfl (by decide) (fun g => ?_) stretch found start pos
  change Option.map _ (List.find? _ [Move.via (.anyBut ['\n']) 44]) = _
  rw [isInLine_eq]
  cases admits : (Guard.anyBut ['\n']).admits g <;> simp [Move.via, admits]

/-- From inside a comment a run accepts where the comment is first closed. -/
theorem reach_blockComment {body : Text} (free : nul ∉ body) {behindStar : Bool}
    (open' : ¬Closes (behind behindStar (body ++ [star]))) (after : Text)
    (found : Option (Token × Cursor)) (start pos : Extent) :
    (tokenAutomaton.runFrom (commentState behindStar) found start pos
      (body ++ star :: slash :: after)).reach =
      some (.blockComment, pos + (body ++ [star, slash]).extent) := by
  induction body generalizing behindStar found start pos with
  | nil =>
    have ends : tokenAutomaton.Ends 45 after := by
      cases after with
      | nil => rfl
      | cons g after => nofun
    have accepted (found : Option (Token × Cursor)) (start pos : Extent) :
        (tokenAutomaton.runFrom 45 found start pos after).reach = some (.blockComment, pos) := by
      rw [Run.reach, ends.accepted_eq]
      rfl
    have first : (tokenAutomaton.state (commentState behindStar)).move? star =
        some (.on '*' (commentState true)) := by
      cases behindStar <;> rfl
    have second : (tokenAutomaton.state (commentState true)).move? slash = some (.on '/' 45) := rfl
    simp only [List.nil_append, Automaton.runFrom, first, Move.on, second]
    rw [accepted, Extent.add_assoc]
    rfl
  | cons g body ih =>
    obtain ⟨ne, free⟩ : g ≠ nul ∧ nul ∉ body := by simpa [eq_comm] using free
    obtain ⟨move, moved, target⟩ := Option.map_eq_some_iff.mp (move?_commentState ne behindStar)
    obtain ⟨goesOn, open'⟩ := open_behind_cons open'
    rw [if_neg goesOn] at target
    simp only [List.cons_append, Automaton.runFrom, moved, target]
    rw [ih free open', Text.extent_cons, Extent.add_assoc]

/-- Behind the entry of every lex mode a slash leads to where comments begin. -/
theorem move?_slash (mode : LexMode) :
    ∃ n, (n = 4 ∨ n = 33) ∧ (tokenAutomaton.state mode.entry).move? slash = some (.on '/' n) := by
  cases mode
  · exact ⟨33, .inr rfl, rfl⟩
  · exact ⟨4, .inl rfl, rfl⟩
  · exact ⟨33, .inr rfl, rfl⟩

theorem longest_blockComment (mode : LexMode) {body : Text} (free : nul ∉ body)
    (open' : ¬Closes (body ++ [star])) (after : Text) :
    longest mode (slash :: star :: (body ++ [star, slash]) ++ after) =
      some (.blockComment, Text.extent (slash :: star :: (body ++ [star, slash]))) := by
  obtain ⟨n, isSlash, moved⟩ := move?_slash mode
  have opened : (tokenAutomaton.state n).move? star = some (.on '*' (commentState false)) := by
    rcases isSlash with rfl | rfl <;> rfl
  have split : slash :: star :: (body ++ [star, slash]) ++ after =
      slash :: star :: (body ++ star :: slash :: after) := by
    simp
  have inside : ¬Closes (behind false (body ++ [star])) := open'
  rw [longest, tokenRun, split]
  simp only [Automaton.runFrom, moved, Move.on, opened]
  rw [reach_blockComment free inside, Text.extent_cons, Text.extent_cons, Extent.zero_add,
    Extent.add_assoc]

theorem longest_lineComment (mode : LexMode) {body after : Text}
    (stretch : IsStretch isInLine body after) :
    longest mode (slash :: slash :: body ++ after) =
      some (.lineComment, Text.extent (slash :: slash :: body)) := by
  obtain ⟨n, isSlash, moved⟩ := move?_slash mode
  have opened : (tokenAutomaton.state n).move? slash = some (.on '/' 44) := by
    rcases isSlash with rfl | rfl <;> rfl
  rw [longest, tokenRun, List.cons_append, List.cons_append]
  simp only [Automaton.runFrom, moved, Move.on, opened]
  rw [reach_lineComment stretch, Text.extent_cons, Text.extent_cons, Extent.zero_add,
    Extent.add_assoc]

theorem longest_name (mode : LexMode) {g : Glyph} {body after : Text}
    (starts : Guard.identifierStart.admits g = true)
    (stretch : IsStretch Guard.identifierContinue.admits body after) :
    longest mode (g :: body ++ after) = some (.identifier, Text.extent (g :: body)) := by
  cases g with
  | malformed => cases starts
  | char code =>
    rw [longest, tokenRun, List.cons_append]
    simp only [Automaton.runFrom, move?_identifierStart mode starts, Move.via]
    rw [reach_name stretch, Text.extent_cons, Extent.zero_add]

/-- The character that ends a line. -/
def lineBreak : Glyph :=
  .char '\n'.toNat

theorem longest_lineBreak (mode : LexMode) (after : Text) :
    longest mode (lineBreak :: after) = some (.newline, Text.extent [lineBreak]) := by
  cases mode <;> cases after <;> rfl

/-- Where all lex modes read the same token, it is read in every state. -/
theorem reading_of_longest (s : State) {rest : Text} {t : Token} {size : Extent}
    (accepts : ∀ mode, longest mode rest = some (t, size)) :
    reading s rest = some (if t = .identifier then
        ((keywordOf? s rest size).getD .identifier, (keywordAhead rest).isSome, size)
      else (t, false, size)) := by
  rw [reading, accepts, Option.some_or]
  rfl

/-- A name is read as the keyword that the state takes it for, and as a name otherwise. -/
theorem reading_of_fits (s : State) {name after : Text} (isName : Fits .identifier name after) :
    reading s (name ++ after) = some ((keywordOf? s (name ++ after) name.extent).getD .identifier,
      (keywordAhead (name ++ after)).isSome, name.extent) := by
  obtain ⟨g, rest, rfl, starts, stretch⟩ := isName
  have reads := reading_of_longest s fun mode => longest_name mode starts stretch
  rwa [if_pos rfl] at reads

theorem reading_blockComment (s : State) {body : Text} (free : nul ∉ body)
    (open' : ¬Closes (body ++ [star])) (after : Text) :
    reading s (slash :: star :: (body ++ [star, slash]) ++ after) =
      some (.blockComment, false, Text.extent (slash :: star :: (body ++ [star, slash]))) :=
  reading_of_longest s fun mode => longest_blockComment mode free open' after

theorem reading_lineComment (s : State) {body after : Text}
    (stretch : IsStretch isInLine body after) :
    reading s (slash :: slash :: body ++ after) =
      some (.lineComment, false, Text.extent (slash :: slash :: body)) :=
  reading_of_longest s fun mode => longest_lineComment mode stretch

theorem reading_lineBreak (s : State) (after : Text) :
    reading s (lineBreak :: after) = some (.newline, false, Text.extent [lineBreak]) :=
  reading_of_longest s fun mode => longest_lineBreak mode after

end Lexical

end SusSyntax
