import SusSyntax.Proofs.Lexical.Attempts
import SusSyntax.Proofs.Lexical.Seams
import SusSyntax.Proofs.Parse.Advance

/-!
What is read at a second attempt.

Where the lex mode of a state accepts nothing, a lexeme is read as where anything may stand. Each lex
mode leaves some tokens out (`LexMode.missed`), and before the text of any other token it accepts
something (`longest_ne_none`). So the second attempt only finds tokens that the first one leaves out
(`mem_missed`), and on these the state has no action (`State.actions_of_missed`): a version of the
parse takes none of them in, but waits with an error (`waits_of_failed`).
-/

namespace SusSyntax

open Grammar Lexical

/-! ### What a lex mode leaves out -/

/-- The tokens that may be ahead where a lex mode accepts nothing. -/
def Grammar.LexMode.missed : LexMode → List Token
  | .anything => []
  | .operand => [.eof, .assign, .dotDot, .colon, .quote, .eqEq, .lt, .le, .gt, .ge, .slash, .percent,
      .dot, .rbracket]
  | .operator => [.eof, .colon, .quote, .bang, .number]

/-- No state can do anything with a token that its lex mode leaves out. -/
theorem Grammar.State.actions_of_missed {s : State} {t : Token} (missed : t ∈ s.lexMode.missed) :
    (s.entry (.token t)).actions = [] := by
  refine List.eq_nil_iff_forall_not_mem.mpr fun a mem => ?_
  have reads := State.action_holds (fun s t _ _ => !s.lexMode.missed.contains t)
    (by decide +kernel) mem
  rw [List.contains_iff_mem.mpr missed] at reads
  cases reads

namespace Lexical

variable {mode : LexMode} {t : Token} {body after : Text}

/-- Before a text that it reads as a token, a lex mode accepts something. -/
theorem IsSpelling.longest_ne_none (h : IsSpelling mode t body) (after : Text) :
    longest mode (body ++ after) ≠ none := by
  obtain ⟨moved, -, leads, ends⟩ := h
  rw [longest, ne_eq, Run.reach_eq_none]
  exact accepted_ne_none (.step moved leads) ends none .zero .zero after

/-- A token with one spelling only is spelled as it is called. -/
theorem IsSpelling.eq_ofChars (h : IsSpelling mode t body)
    (notBlank : ∀ g ∈ body.head?, Guard.blank.admits g = false) (fixed : isFixed t = true) :
    body = .ofChars t.name.toList := by
  obtain ⟨moved, -, leads, ends⟩ := h
  rename_i g body move m
  obtain ⟨inner, read⟩ := isReadIn_of_leads (.step moved leads) (notBlank g rfl)
  generalize g :: body = text at read
  cases read with
  | word straight => rw [(tokenWord_of_accepts straight inner ends).2]
  | @inComment rest behindStar => cases behindStar <;> cases ends
  | _ =>
    obtain rfl := Option.some.inj ends
    cases fixed

/-- Of a token with one spelling, every lex mode that does not leave it out accepts at least the
beginning. -/
theorem longest_name_ne_none (fixed : isFixed t = true) (known : t ∉ mode.missed) (after : Text) :
    longest mode (.ofChars t.name.toList ++ after) ≠ none := by
  have checked : ∀ t ∈ Token.all, isFixed t = true → t ∉ mode.missed →
      longest mode (.ofChars t.name.toList) ≠ none := by
    cases mode <;> decide
  have begins : ∀ t ∈ Token.all, Text.ofChars t.name.toList ≠ [] ∧
      ∀ g ∈ (Text.ofChars t.name.toList).head?, Guard.blank.admits g = false := by
    decide
  obtain ⟨ne, notBlank⟩ := begins t (Token.mem_all t)
  obtain ⟨⟨u, size⟩, found⟩ :=
    Option.ne_none_iff_exists'.mp (checked t (Token.mem_all t) fixed known)
  rcases exists_of_longest notBlank found with ⟨-, isEmpty, -⟩ | ⟨front, rest, split, -, spelled, -⟩
  · exact absurd isEmpty ne
  · rw [split, List.append_assoc]
    exact spelled.longest_ne_none _

/-- A digit begins a number, where operands may stand. -/
theorem isSpelling_digit (known : mode ≠ .operator) {g : Glyph} (digit : Guard.digit.admits g = true) :
    IsSpelling mode .number [g] := by
  have checked : ∀ mode ∈ [LexMode.anything, .operand], ∀ code < 58, 48 ≤ code →
      ((tokenAutomaton.state mode.entry).move? (.char code)).map Move.target = some 41 := by
    decide
  have isMode : mode ∈ [LexMode.anything, .operand] := by
    cases mode with
    | operator => exact absurd rfl known
    | _ => decide
  cases g with
  | malformed => cases digit
  | char code =>
    obtain ⟨low, high⟩ : 48 ≤ code ∧ code ≤ 57 := by simpa [Guard.admits] using digit
    obtain ⟨move, moved, target⟩ :=
      Option.map_eq_some_iff.mp (checked mode isMode code (Nat.lt_succ_of_le high) low)
    refine .intro moved ?_ .done ?_
    · rw [target]
      decide
    · rw [target]
      rfl

/-- Before the text of a token that it does not leave out, a lex mode accepts something. -/
theorem longest_ne_none (spelled : IsSpelling .anything t body) (fits : Fits t body after)
    (notBlank : ∀ g ∈ body.head?, Guard.blank.admits g = false) (known : t ∉ mode.missed) :
    longest mode (body ++ after) ≠ none := by
  by_cases fixed : isFixed t = true
  · rw [spelled.eq_ofChars notBlank fixed]
    exact longest_name_ne_none fixed known after
  have isClass : [Token.identifier, .number, .lineComment, .blockComment].contains t = true := by
    simpa only [isFixed, Bool.not_eq_true', Bool.not_eq_false] using fixed
  simp only [List.contains_iff_mem, List.mem_cons, List.not_mem_nil, or_false] at isClass
  rcases isClass with rfl | rfl | rfl | rfl
  · obtain ⟨g, rest, rfl, starts, stretch⟩ := fits
    rw [longest_name mode starts stretch]
    nofun
  · obtain ⟨g, rest, rfl, digit, -⟩ := fits
    have isOperand : mode ≠ .operator := by
      rintro rfl
      exact known (by decide)
    exact (isSpelling_digit isOperand digit).longest_ne_none (rest ++ after)
  · obtain ⟨rest, rfl, stretch⟩ := fits
    rw [longest_lineComment mode stretch]
    nofun
  · obtain ⟨rest, rfl, open'⟩ := fits
    have free : nul ∉ rest := fun mem => spelled.nul_not_mem (by simp [mem])
    rw [longest_blockComment mode free open']
    nofun

/-! ### The second attempt -/

/-- What is read as where anything may stand, in a place where a lex mode accepts nothing, is a token
that the lex mode leaves out. -/
theorem mem_missed {rest : Text} {size : Extent}
    (notBlank : ∀ g ∈ rest.head?, Guard.blank.admits g = false)
    (fails : longest mode rest = none) (retries : longest .anything rest = some (t, size)) :
    t ∈ mode.missed := by
  rcases exists_of_longest notBlank retries with
    ⟨rfl, rfl, -⟩ | ⟨body, after, rfl, -, spelled, fits⟩
  · cases mode with
    | anything => cases fails
    | _ => decide
  · have begins : ∀ g ∈ body.head?, Guard.blank.admits g = false := by
      cases spelled
      exact notBlank
    exact Decidable.byContradiction fun known => longest_ne_none spelled fits begins known fails

theorem longest_of_failed {d : Cursor} (h : (tokenRun mode d).accepted = none) :
    longest mode d.rest = none := by
  have reach := reach_tokenRun mode d.pos d.rest
  rw [Run.reach_eq_none.mpr h] at reach
  exact Option.map_eq_none_iff.mp reach.symm

theorem longest_of_accepted {d e : Cursor} (h : (tokenRun mode d).accepted = some (t, e)) :
    ∃ size, longest mode d.rest = some (t, size) := by
  have reach := reach_tokenRun mode d.pos d.rest
  rw [Run.reach, h] at reach
  obtain ⟨⟨u, size⟩, found, same⟩ := Option.map_eq_some_iff.mp reach.symm
  obtain rfl := (Prod.mk.inj same).1
  exact ⟨size, found⟩

variable {text : Text} {s : State} {p : Extent}

/-- The token of a second attempt is no name, so it is not taken for a keyword. -/
theorem scan_of_retried {stop : Cursor}
    (fails : (runMode s.lexMode (.ofPosition text p)).accepted = none)
    (retries : (runMode .anything (.ofPosition text p)).accepted = some (t, stop)) :
    t ∈ s.lexMode.missed ∧ (scan text s p).leaf = .read t ∧ (scan text s p).isKeyword = false := by
  obtain ⟨_, _, _, notBlank⟩ := Cursor.tokenStart_spec (.ofPosition text p)
  have read : scan text s p = readable text s (.ofPosition text p)
      (runMode .anything (.ofPosition text p)).start t stop.pos := by
    simp only [scan, fails, retries]
  rw [runMode_eq] at fails retries
  obtain ⟨size, found⟩ := longest_of_accepted retries
  have missed : t ∈ s.lexMode.missed := mem_missed notBlank (longest_of_failed fails) found
  have notName : t ≠ .identifier := by
    rintro rfl
    revert missed
    cases s.lexMode <;> decide
  rw [read, readable, if_neg notName]
  exact ⟨missed, rfl, rfl⟩

/-- Whatever is read where the lex mode of a state accepts nothing, the state has no action on it. -/
theorem actions_of_failed (fails : (runMode s.lexMode (.ofPosition text p)).accepted = none) :
    (s.entry (scan text s p).symbol).actions = [] ∧ (scan text s p).isKeyword = false := by
  cases retries : (runMode .anything (.ofPosition text p)).accepted with
  | some found =>
    obtain ⟨missed, leaf, notKeyword⟩ := scan_of_retried fails retries
    rw [Lexeme.symbol, leaf]
    exact ⟨State.actions_of_missed missed, notKeyword⟩
  | none =>
    have unread : scan text s p = unreadable s (.ofPosition text p)
        (runMode .anything (.ofPosition text p)) := by
      simp only [scan, fails, retries]
    rw [unread]
    exact ⟨rfl, rfl⟩

end Lexical

/-- Where the lex mode of a state accepts nothing, the token that is read as where anything may stand
instead is one that the state has no action on. So a version of the parse does not go on with what is
read there, but waits with an error. -/
theorem waits_of_failed {text : Text} {s : State} {p : Extent}
    (fails : (runMode s.lexMode (.ofPosition text p)).accepted = none) :
    (∀ t stop, (runMode .anything (.ofPosition text p)).accepted = some (t, stop) →
      (scan text s p).leaf = .read t ∧ (s.entry (.token t)).actions = []) ∧
    (s.entry (scan text s p).symbol).actions = [] ∧
    ∀ (parse : Parse) (v fuel : Nat), s ≠ errorState → parse.stack.state v = s →
      Parse.advanceBy v (fuel + 1) (scan text s p) parse =
        parse.withStack (parse.stack.pause v (scan text s p)) := by
  obtain ⟨none, notKeyword⟩ := actions_of_failed fails
  refine ⟨fun t stop retries => ?_, none, fun parse v fuel ne here => ?_⟩
  · obtain ⟨missed, leaf, -⟩ := scan_of_retried fails retries
    exact ⟨leaf, State.actions_of_missed missed⟩
  · subst here
    refine Parse.advanceBy_of_stuck none ?_ ne
    rw [Parse.renames, notKeyword]
    rfl

/-- A comment that is not closed is a slash to the second attempt, and that begins no operand. -/
theorem waits_of_failed_unclosed :
    (runMode State.bracket.lexMode (.ofPosition (.ofChars "/* a".toList) .zero)).accepted = none ∧
      (scan (.ofChars "/* a".toList) State.bracket .zero).leaf = .read .slash ∧
      (State.bracket.entry (.token .slash)).actions = [] := by
  have fails : (runMode State.bracket.lexMode
      (.ofPosition (.ofChars "/* a".toList) .zero)).accepted = none := by
    decide +kernel
  have retries : (runMode .anything (.ofPosition (.ofChars "/* a".toList) .zero)).accepted =
      some (.slash, ⟨⟨1, 0, 1⟩, .ofChars "* a".toList⟩) := by
    decide
  exact ⟨fails, (waits_of_failed fails).1 _ _ retries⟩

end SusSyntax
