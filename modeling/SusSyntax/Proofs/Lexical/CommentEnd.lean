import SusSyntax.Proofs.Lexical.Seams

/-!
Where block comments end.

A slash with a star behind it is a comment up to the first star with a slash behind it, in every lex
mode, if no NUL and no end of the text comes first; and otherwise it is a slash, where the mode knows
one (`runMode_opening`). What stands inside makes no difference: stars, slashes, line breaks and bytes
that are no characters are all passed over.
-/

namespace SusSyntax.Lexical

open Grammar

/-! ### The first end of a comment -/

/-- How far ahead the first star with a slash behind it is. -/
def closeAt? : Text → Option Nat
  | [] => none
  | g :: rest =>
    if [star, slash].isPrefixOf (g :: rest) then some 0 else (closeAt? rest).map (· + 1)

theorem closeAt?_eq_none {text : Text} : closeAt? text = none ↔ ¬Closes text := by
  induction text with
  | nil => exact ⟨fun _ => not_closes_nil, fun _ => rfl⟩
  | cons g rest ih =>
    rw [closeAt?, Closes, List.infix_cons_iff, not_or, ← List.isPrefixOf_iff_prefix]
    split
    · rename_i here
      exact ⟨fun none => absurd none (Option.some_ne_none _), fun open' => absurd here open'.1⟩
    · rename_i notHere
      rw [Option.map_eq_none_iff, ih]
      exact ⟨fun open' => ⟨notHere, open'⟩, And.right⟩

/-- No comment is closed before the first star with a slash behind it. -/
theorem exists_of_closeAt? {text : Text} {i : Nat} (h : closeAt? text = some i) :
    ∃ body after, text = body ++ star :: slash :: after ∧ body.length = i ∧
      ¬Closes (body ++ [star]) := by
  induction text generalizing i with
  | nil => cases h
  | cons g rest ih =>
    rw [closeAt?] at h
    split at h
    · rename_i here
      obtain ⟨after, split⟩ := List.isPrefixOf_iff_prefix.mp here
      obtain rfl := Option.some.inj h
      exact ⟨[], after, split.symm, rfl, not_closes_star⟩
    · rename_i notHere
      obtain ⟨i', later, rfl⟩ := Option.map_eq_some_iff.mp h
      obtain ⟨body, after, rfl, length, open'⟩ := ih later
      refine ⟨g :: body, after, rfl, congrArg (· + 1) length, ?_⟩
      rw [List.cons_append, Closes, List.infix_cons_iff, not_or]
      refine ⟨fun here => notHere ?_, open'⟩
      -- a slash that is behind the first glyph is still there with the rest of the text behind it
      have goesOn : g :: (body ++ [star]) <+: g :: (body ++ star :: slash :: after) :=
        ⟨slash :: after, by simp⟩
      exact List.isPrefixOf_iff_prefix.mpr (here.trans goesOn)

/-! ### Comments that are not closed -/

/-- Inside a comment nothing is passed over at a NUL. -/
theorem move?_nul (behindStar : Bool) :
    (tokenAutomaton.state (commentState behindStar)).move? nul = none := by
  cases behindStar <;> rfl

/-- Where a comment is not closed before a NUL or the end of the text, nothing is accepted any more
inside it. -/
theorem ends_unclosed {plain tail : Text} (free : nul ∉ plain) (stops : ∀ g ∈ tail.head?, g = nul)
    {behindStar : Bool} (open' : ¬Closes (behind behindStar plain)) :
    tokenAutomaton.Ends (commentState behindStar) (plain ++ tail) := by
  induction plain generalizing behindStar with
  | nil =>
    cases tail with
    | nil => cases behindStar <;> rfl
    | cons g tail =>
      obtain rfl := stops g rfl
      intro move moved
      rw [move?_nul] at moved
      cases moved
  | cons g plain ih =>
    obtain ⟨ne, free⟩ : g ≠ nul ∧ nul ∉ plain := by simpa [eq_comm] using free
    obtain ⟨goesOn, open'⟩ := open_behind_cons open'
    intro move moved
    have target := move?_commentState ne behindStar
    rw [moved, Option.map_some, if_neg goesOn] at target
    rw [Option.some.inj target]
    exact ⟨by cases g == star <;> rfl, ih free open'⟩

/-- A slash with a star behind it that opens no comment is what it would be alone. -/
theorem longest_unclosed (mode : LexMode) {plain tail : Text} (free : nul ∉ plain)
    (stops : ∀ g ∈ tail.head?, g = nul) (open' : ¬Closes plain) :
    longest mode (slash :: star :: (plain ++ tail)) =
      if mode = .operand then none else some (.slash, slash.extent) := by
  have ends : tokenAutomaton.Ends (commentState false) (plain ++ tail) :=
    ends_unclosed free stops open'
  have inside (found : Option (Token × Cursor)) (pos : Extent) :
      (tokenAutomaton.runFrom (commentState false) found .zero pos (plain ++ tail)).accepted =
        found := ends.accepted_eq found .zero pos
  cases mode with
  | operand => exact congrArg (Option.map _) (inside none _)
  | anything => exact congrArg (Option.map _) (inside (some (.slash, _)) _)
  | operator => exact congrArg (Option.map _) (inside (some (.slash, _)) _)

/-! ### Where a comment is opened -/

theorem longest_opening (mode : LexMode) (rest : Text) :
    longest mode (slash :: star :: rest) =
      match closeAt? (rest.takeWhile (· != nul)) with
      | some i => some (.blockComment, Text.extent ((slash :: star :: rest).take (i + 4)))
      | none => if mode = .operand then none else some (.slash, slash.extent) := by
  have free : nul ∉ rest.takeWhile (· != nul) := by
    intro mem
    have passed := List.all_eq_true.mp (List.all_takeWhile (l := rest) (p := (· != nul))) nul mem
    cases passed
  have split := List.takeWhile_append_dropWhile (p := (· != nul)) (l := rest)
  cases found : closeAt? (rest.takeWhile (· != nul)) with
  | some i =>
    obtain ⟨body, after, plain, rfl, open'⟩ := exists_of_closeAt? found
    have whole : slash :: star :: rest =
        slash :: star :: (body ++ [star, slash]) ++ (after ++ rest.dropWhile (· != nul)) := by
      conv => lhs; rw [← split, plain]
      simp
    have length : (slash :: star :: (body ++ [star, slash])).length = body.length + 4 := by
      simp
    have freeBody : nul ∉ body := fun mem => free (plain ▸ List.mem_append_left _ mem)
    rw [whole, longest_blockComment mode freeBody open']
    dsimp only
    rw [List.take_left' length]
  | none =>
    have stops : ∀ g ∈ (rest.dropWhile (· != nul)).head?, g = nul := by
      intro g mem
      have := List.head?_dropWhile_not (· != nul) rest
      rw [mem] at this
      simpa using this
    have unclosed := longest_unclosed mode free stops (closeAt?_eq_none.mp found)
    rw [split] at unclosed
    exact unclosed

/-- Block comments end at the first star with a slash behind it, in every lex mode. -/
theorem runMode_opening (mode : LexMode) (pos : Extent) (rest : Text) :
    (runMode mode ⟨pos, slash :: star :: rest⟩).start = pos ∧
      (runMode mode ⟨pos, slash :: star :: rest⟩).reach =
        match closeAt? (rest.takeWhile (· != nul)) with
        | some i => some (.blockComment, pos + Text.extent ((slash :: star :: rest).take (i + 4)))
        | none => if mode = .operand then none else some (.slash, pos + slash.extent) := by
  have notMark : slash ≠ Glyph.byteOrderMark := by decide
  have notBlank : Guard.blank.admits slash = false := rfl
  have here : Cursor.tokenStart ⟨pos, slash :: star :: rest⟩ = ⟨pos, slash :: star :: rest⟩ := by
    simp [Cursor.tokenStart, Cursor.passByteOrderMark, Cursor.passBlanks, notMark, notBlank]
  rw [runMode_eq, here]
  refine ⟨tokenRun_start fun g mem => ?_, ?_⟩
  · obtain rfl := Option.some.inj mem
    exact notBlank
  rw [reach_tokenRun, longest_opening]
  cases closeAt? (rest.takeWhile (· != nul)) with
  | some i => rfl
  | none => cases mode <;> rfl

/-- The star that opens a comment does not end it. -/
example : (runMode .operator ⟨.zero, [slash, star, slash]⟩).reach =
    some (.slash, slash.extent) := by
  rfl

end SusSyntax.Lexical
