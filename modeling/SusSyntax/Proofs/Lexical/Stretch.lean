import SusSyntax.Lexical.Lexeme
import SusSyntax.Proofs.Text.Place

/-!
Where a lexeme stands in the text.

Whatever is read behind a place is the text that is ahead there: first a gap, which holds blanks and
at the very beginning perhaps a byte order mark, then the text of the lexeme (`scan_standsAt`). The
end of the text is read only where nothing but a gap is left, and everything else that the automaton
accepts is not empty (`runMode_spec`).
-/

namespace SusSyntax.Lexical

open Grammar

/-! ### States of an automaton -/

theorem move?_mem {s : LexState} {g : Glyph} {m : Move} (h : s.move? g = some m) :
    m ∈ s.moves ∧ m.guard.admits g = true :=
  ⟨List.mem_of_find?_eq_some h, List.find?_some (p := fun m : Move => m.guard.admits g) h⟩

section

variable {a : Automaton} {n : Nat}

/-- Nothing ends in a state whose number is not used, and no move leaves it. -/
theorem state_of_size_le (outside : a.states.size ≤ n) : a.state n = .inner [] := by
  rw [Automaton.state, Array.getElem?_eq_none outside]
  rfl

/-- A property of all states of an automaton, those that are not used among them. -/
theorem states_hold (a : Automaton) (check : Nat → LexState → Bool)
    (checked : ((List.range a.states.size).all fun n => check n (a.state n)) = true)
    (unused : ∀ n, check n (.inner []) = true) (n : Nat) : check n (a.state n) = true := by
  by_cases bound : n < a.states.size
  · exact List.all_eq_true.mp checked n (List.mem_range.mpr bound)
  · rw [state_of_size_le (Nat.not_lt.mp bound)]
    exact unused n

/-- A property of all moves of an automaton. -/
theorem moves_hold (check : Nat → Move → Bool)
    (checked : ((List.range a.states.size).all fun n =>
      (a.state n).moves.all fun m => check n m) = true)
    {g : Glyph} {m : Move} (h : (a.state n).move? g = some m) : check n m = true :=
  List.all_eq_true.mp (states_hold a (fun n s => s.moves.all (check n)) checked (fun _ => rfl) n) m
    (move?_mem h).1

/-- A property of all tokens that an automaton accepts. -/
theorem accepts_hold (check : Nat → Token → Bool)
    (checked : ((List.range a.states.size).all fun n =>
      (a.state n).accepts.all (check n)) = true)
    {t : Token} (h : (a.state n).accepts = some t) : check n t = true := by
  have holds := states_hold a (fun n s => s.accepts.all (check n)) checked (fun _ => rfl) n
  rwa [h, Option.all_some] at holds

end

/-! ### The token automaton -/

/-- A state of the token automaton that is neither an entry nor the end of the text. -/
def isInner (n : Nat) : Bool :=
  3 ≤ n && n != 9

/-- Inside a token nothing is skipped, and no move leads back to an entry. -/
theorem inner_moves {n : Nat} (h : isInner n = true) {m : Move}
    (mem : m ∈ (tokenAutomaton.state n).moves) : m.skips = false ∧ isInner m.target = true := by
  have holds := states_hold tokenAutomaton
    (fun n s => !isInner n || s.moves.all fun m => !m.skips && isInner m.target) (by decide)
    (fun _ => Bool.or_true _) n
  rw [h, Bool.not_true, Bool.false_or] at holds
  simpa using List.all_eq_true.mp holds m mem

/-- Inside a token the end of the text is not accepted. -/
theorem inner_accepts {n : Nat} (h : isInner n = true) :
    (tokenAutomaton.state n).accepts ≠ some .eof ∧ (tokenAutomaton.state n).atEnd = none := by
  have holds := states_hold tokenAutomaton
    (fun n s => !isInner n || s.accepts != some .eof && s.atEnd.isNone)
    (by decide) (fun _ => Bool.or_true _) n
  simpa [h] using holds

/-- At an entry nothing is accepted, and a move either skips a blank and stays or begins a token. -/
theorem entry_moves (mode : LexMode) :
    (tokenAutomaton.state mode.entry).accepts = none ∧
      ∀ m ∈ (tokenAutomaton.state mode.entry).moves,
        (m.skips = true ∧ m.target = mode.entry ∧ ∀ g, m.guard.admits g = Guard.blank.admits g) ∨
          (m.skips = false ∧ isInner m.target = true) := by
  refine ⟨by cases mode <;> rfl, fun m mem => ?_⟩
  have checked : ((tokenAutomaton.state mode.entry).moves.all fun m =>
      (m.skips && m.target == mode.entry && match m.guard with | .blank => true | _ => false) ||
        (!m.skips && isInner m.target)) = true := by
    cases mode <;> decide
  have holds := List.all_eq_true.mp checked m mem
  obtain ⟨guard, skips, target⟩ := m
  cases guard <;> cases skips <;> simp_all

/-- The only entry that knows the end of the text is that of "anything", and it leads to where the
end is accepted. -/
theorem entry_atEnd {mode : LexMode} {m : Nat}
    (h : (tokenAutomaton.state mode.entry).atEnd = some m) :
    (tokenAutomaton.state m).accepts = some .eof := by
  cases mode with
  | anything =>
    obtain rfl := Option.some.inj h
    rfl
  | operand => cases h
  | operator => cases h

/-! ### Runs -/

/-- What is accepted in a state was accepted before, where no token ends there, or is accepted here. -/
theorem accepted_cases {a : Automaton} {n : Nat} {c d : Cursor} {found : Option (Token × Cursor)}
    {t : Token} (h : a.accepted n c found = some (t, d)) :
    found = some (t, d) ∧ (a.state n).accepts = none ∨ c = d ∧ (a.state n).accepts = some t := by
  rw [Automaton.accepted] at h
  cases accepts : (a.state n).accepts with
  | none => exact .inl ⟨by simpa [accepts] using h, rfl⟩
  | some u =>
    rw [accepts] at h
    obtain ⟨rfl, rfl⟩ := Prod.mk.inj (Option.some.inj h)
    exact .inr ⟨rfl, rfl⟩

/-- Induction on a run among states of which none knows the end of the text. What the run accepts was
accepted before, or it has the property `P` of the state and the place where the run began: it has it
where a token ends that could not be longer, and every move hands it on. -/
theorem accepted_induction {a : Automaton} (Inside : Nat → Prop)
    {P : Nat → Cursor → Token → Cursor → Prop}
    (stays : ∀ n, Inside n → (a.state n).atEnd = none ∧
      ∀ g move, (a.state n).move? g = some move → Inside move.target)
    (here : ∀ n c t, Inside n → (a.state n).accepts = some t →
      (∀ g ∈ c.rest.head?, ∀ move, (a.state n).move? g = some move →
        (a.state move.target).accepts = none) → P n c t c)
    (onward : ∀ n g pos rest move t c, Inside n → (a.state n).move? g = some move →
      P move.target ⟨pos + g.extent, rest⟩ t c → P n ⟨pos, g :: rest⟩ t c)
    {n : Nat} (inside : Inside n) {found : Option (Token × Cursor)} {start pos : Extent} {rest : Text}
    {t : Token} {c : Cursor} (h : (a.runFrom n found start pos rest).accepted = some (t, c)) :
    found = some (t, c) ∧ (a.state n).accepts = none ∨ P n ⟨pos, rest⟩ t c := by
  induction rest generalizing n found start pos with
  | nil =>
    rw [Automaton.runFrom, (stays n inside).1] at h
    refine (accepted_cases h).imp_right fun ⟨atEnd, ends⟩ => atEnd ▸ here n _ t inside ends ?_
    rintro g ⟨⟩
  | cons g rest ih =>
    rw [Automaton.runFrom] at h
    cases moved : (a.state n).move? g with
    | none =>
      rw [moved] at h
      refine (accepted_cases h).imp_right fun ⟨at', ends⟩ => at' ▸ here n _ t inside ends ?_
      rintro g' ⟨⟩ move moved'
      rw [moved] at moved'
      cases moved'
    | some move =>
      rw [moved] at h
      rcases ih ((stays n inside).2 g move moved) h with ⟨before, never⟩ | later
      · refine (accepted_cases before).imp_right fun ⟨at', ends⟩ => at' ▸ here n _ t inside ends ?_
        rintro g' ⟨⟩ move' moved'
        obtain rfl := Option.some.inj (moved.symm.trans moved')
        exact never
      · exact .inr (onward n g pos rest move t c inside moved later)

/-- A run inside a token stays there. -/
theorem inner_stays (n : Nat) (inner : isInner n = true) : (tokenAutomaton.state n).atEnd = none ∧
    ∀ g move, (tokenAutomaton.state n).move? g = some move → isInner move.target = true :=
  ⟨(inner_accepts inner).2, fun _ _ moved => (inner_moves inner (move?_mem moved).1).2⟩

/-- A run inside a token leaves its beginning where it is, and goes on through the text. -/
theorem runFrom_inner {n : Nat} (inner : isInner n = true) (found : Option (Token × Cursor))
    (start pos : Extent) (rest : Text) :
    (tokenAutomaton.runFrom n found start pos rest).start = start ∧
      ∃ between, Cursor.Reaches ⟨pos, rest⟩ between
        (tokenAutomaton.runFrom n found start pos rest).stop := by
  induction rest generalizing n found pos with
  | nil =>
    rw [Automaton.runFrom, (inner_accepts inner).2]
    exact ⟨rfl, [], .refl _⟩
  | cons g rest ih =>
    rw [Automaton.runFrom]
    cases moves : (tokenAutomaton.state n).move? g with
    | none => exact ⟨rfl, [], .refl _⟩
    | some move =>
      obtain ⟨noSkip, inner'⟩ := inner_moves inner (move?_mem moves).1
      simp only [noSkip, Bool.false_eq_true, if_false]
      obtain ⟨startEq, between, stops⟩ :=
        ih inner' (tokenAutomaton.accepted n ⟨pos, g :: rest⟩ found) (pos + g.extent)
      exact ⟨startEq, _, (Cursor.Reaches.glyph pos g rest).trans stops⟩

/-- What a run inside a token accepts is not the end of the text. -/
theorem inner_accepted {n : Nat} (inner : isInner n = true) {found : Option (Token × Cursor)}
    {start pos : Extent} {rest : Text} {t : Token} {c : Cursor}
    (h : (tokenAutomaton.runFrom n found start pos rest).accepted = some (t, c)) :
    found = some (t, c) ∨ t ≠ .eof ∧ ∃ between, Cursor.Reaches ⟨pos, rest⟩ between c := by
  refine (accepted_induction _ (P := fun _ d t c => t ≠ .eof ∧ ∃ between, d.Reaches between c)
    inner_stays ?here ?onward inner h).imp_left And.left
  case here =>
    intro n d t inner ends _
    refine ⟨?_, [], .refl d⟩
    rintro rfl
    exact (inner_accepts inner).1 ends
  case onward =>
    rintro n g pos rest move t c _ _ ⟨ne, between, reaches⟩
    exact ⟨ne, _, (Cursor.Reaches.glyph pos g rest).trans reaches⟩

/-- A token that is not the end of the text covers some of it; the end covers nothing, and nothing
is left there. -/
def IsTokenText (t : Token) (body : Text) (behind : Cursor) : Prop :=
  (t = .eof ∧ body = [] ∧ behind.rest = []) ∨ (t ≠ .eof ∧ body ≠ [])

/-- Blanks, as they may stand before a token. -/
def IsBlank (text : Text) : Prop :=
  ∀ g ∈ text, Guard.blank.admits g = true

/-- A run from an entry passes over blanks; the token begins behind them. -/
theorem runFrom_entry (mode : LexMode) (pos : Extent) (rest : Text) :
    ∃ blanks d, IsBlank blanks ∧ Cursor.Reaches ⟨pos, rest⟩ blanks d ∧
      (tokenAutomaton.runFrom mode.entry none pos pos rest).start = d.pos ∧
      (∃ between, d.Reaches between (tokenAutomaton.runFrom mode.entry none pos pos rest).stop) ∧
      ∀ t c, (tokenAutomaton.runFrom mode.entry none pos pos rest).accepted = some (t, c) →
        ∃ body, d.Reaches body c ∧ IsTokenText t body c := by
  obtain ⟨accepts, moves⟩ := entry_moves mode
  have found : ∀ c, tokenAutomaton.accepted mode.entry c none = none := by
    intro c
    rw [Automaton.accepted, accepts]
  induction rest generalizing pos with
  | nil =>
    refine ⟨[], ⟨pos, []⟩, fun _ mem => absurd mem (List.not_mem_nil), .refl _, ?_⟩
    rw [Automaton.runFrom, found]
    cases atEnd : (tokenAutomaton.state mode.entry).atEnd with
    | none => exact ⟨rfl, ⟨[], .refl _⟩, fun t c h => absurd h (by simp)⟩
    | some m =>
      refine ⟨rfl, ⟨[], .refl _⟩, fun t c h => ?_⟩
      simp only [Automaton.accepted, entry_atEnd atEnd, Option.some.injEq, Prod.mk.injEq] at h
      obtain ⟨rfl, rfl⟩ := h
      exact ⟨[], .refl _, .inl ⟨rfl, rfl, rfl⟩⟩
  | cons g rest ih =>
    rw [Automaton.runFrom, found]
    have first := Cursor.Reaches.glyph pos g rest
    cases moved : (tokenAutomaton.state mode.entry).move? g with
    | none =>
      exact ⟨[], ⟨pos, g :: rest⟩, fun _ mem => absurd mem (List.not_mem_nil), .refl _, rfl,
        ⟨[], .refl _⟩, fun t c h => absurd h (by simp)⟩
    | some move =>
      obtain ⟨mem, admits⟩ := move?_mem moved
      rcases moves move mem with ⟨skips, target, guard⟩ | ⟨stays, inner⟩
      · obtain ⟨blanks, d, blank, reaches, rest⟩ := ih (pos + g.extent)
        simp only [skips, if_true, target]
        refine ⟨g :: blanks, d, ?_, first.trans reaches, rest⟩
        intro g' mem'
        rcases List.mem_cons.mp mem' with rfl | mem'
        · exact guard g' ▸ admits
        · exact blank g' mem'
      · simp only [stays, Bool.false_eq_true, if_false]
        obtain ⟨startEq, between, stops⟩ := runFrom_inner inner none pos (pos + g.extent) rest
        refine ⟨[], ⟨pos, g :: rest⟩, fun _ mem => absurd mem (List.not_mem_nil), .refl _, startEq,
          ⟨_, first.trans stops⟩, fun t c h => ?_⟩
        rcases inner_accepted inner h with h | ⟨ne, between', reaches⟩
        · cases h
        · exact ⟨_, first.trans reaches, .inr ⟨ne, by simp⟩⟩

/-- What may stand between a place and the token behind it: blanks, and at the very beginning of the
text a byte order mark before them. -/
def IsGap (p : Extent) (gap : Text) : Prop :=
  ∃ mark blanks, gap = mark ++ blanks ∧
    (mark = [] ∨ p.bytes = 0 ∧ mark = [Glyph.byteOrderMark]) ∧ IsBlank blanks

theorem reaches_passByteOrderMark (c : Cursor) : ∃ mark,
    (mark = [] ∨ c.pos.bytes = 0 ∧ mark = [Glyph.byteOrderMark]) ∧
      c.Reaches mark c.passByteOrderMark := by
  rw [Cursor.passByteOrderMark]
  split
  · rename_i isMark
    simp only [Bool.and_eq_true, decide_eq_true_eq, beq_iff_eq] at isMark
    obtain ⟨atStart, head⟩ := isMark
    obtain ⟨pos, rest⟩ := c
    cases rest with
    | nil => cases head
    | cons g rest =>
      obtain rfl := Option.some.inj head
      exact ⟨[Glyph.byteOrderMark], .inr ⟨atStart, rfl⟩, rfl, by simp [Cursor.advance]⟩
  · exact ⟨[], .inl rfl, .refl c⟩

/-- A run in a lex mode: a gap, then the token if one is accepted. -/
theorem runMode_spec (mode : LexMode) (c : Cursor) :
    ∃ gap d, IsGap c.pos gap ∧ c.Reaches gap d ∧ (runMode mode c).start = d.pos ∧
      (∃ between, d.Reaches between (runMode mode c).stop) ∧
      ∀ t e, (runMode mode c).accepted = some (t, e) →
        ∃ body, d.Reaches body e ∧ IsTokenText t body e := by
  obtain ⟨mark, isMark, marked⟩ := reaches_passByteOrderMark c
  obtain ⟨blanks, d, blank, reaches, rest⟩ :=
    runFrom_entry mode c.passByteOrderMark.pos c.passByteOrderMark.rest
  exact ⟨mark ++ blanks, d, ⟨mark, blanks, rfl, isMark, blank⟩, marked.trans reaches, rest⟩

/-- Reading on from a place ends at a place further on. -/
theorem unreadableEnd_reaches (fuel : Nat) (c : Cursor) :
    ∃ between d, c.Reaches between d ∧ unreadableEnd fuel c = d.pos := by
  induction fuel generalizing c with
  | zero => exact ⟨[], c, .refl c, rfl⟩
  | succ fuel ih =>
    rw [unreadableEnd]
    split
    · exact ⟨[], c, .refl c, rfl⟩
    · split
      · split
        · exact ⟨[], c, .refl c, rfl⟩
        · obtain ⟨a, ahead⟩ := c.reaches_advance
          obtain ⟨b, d, further, ends⟩ := ih c.advance
          exact ⟨a ++ b, d, ahead.trans further, ends⟩
      · obtain ⟨gap, d, _, toStart, _, ⟨between, toStop⟩, _⟩ := runMode_spec .anything c
        obtain ⟨b, e, further, ends⟩ := ih (runMode .anything c).stop
        exact ⟨_, e, (toStart.trans toStop).trans further, ends⟩

/-! ### Lexemes -/

namespace Lexeme

/-- A lexeme stands behind the place `p` of a text: there is a gap, then what it covers. Where it is
the end of the text, nothing is left. -/
def StandsAt (text : Text) (p : Extent) (x : Lexeme) : Prop :=
  ∃ before gap body after, text = before ++ (gap ++ (body ++ after)) ∧ p = before.extent ∧
    IsGap p gap ∧ x.padding = gap.extent ∧ x.size = body.extent ∧
    (x.isEnd = true → body = [] ∧ after = [])

end Lexeme

/-- From a gap and what was reached behind it to the lexeme that stands there. -/
theorem standsAt_of_reaches {before after gap body : Text} {d e : Cursor} {x : Lexeme}
    (isGap : IsGap before.extent gap)
    (toStart : Cursor.Reaches ⟨before.extent, after⟩ gap d) (toStop : d.Reaches body e)
    (padding : x.padding = d.pos - before.extent) (size : x.size = e.pos - d.pos)
    (ends : x.isEnd = true → body = [] ∧ e.rest = []) :
    x.StandsAt (before ++ after) before.extent := by
  refine ⟨before, gap, body, e.rest, ?_, rfl, isGap, ?_, ?_, ends⟩
  · rw [← toStop.1, ← toStart.1]
  · rw [padding, ← toStart.sub]
  · rw [size, toStop.sub]

theorem readable_padding (text : Text) (s : State) (c : Cursor) (start : Extent) (t : Token)
    (stop : Extent) : (readable text s c start t stop).padding = start - c.pos := by
  rw [readable]
  split <;> rfl

theorem readable_size (text : Text) (s : State) (c : Cursor) (start : Extent) (t : Token)
    (stop : Extent) : (readable text s c start t stop).size = stop - start := by
  rw [readable]
  split <;> rfl

theorem atEnd_keyword (n : Nat) : (keywordAutomaton.state n).atEnd = none :=
  Option.isNone_iff_eq_none.mp
    (states_hold keywordAutomaton (fun _ s => s.atEnd.isNone) (by decide) (fun _ => rfl) n)

/-- The keyword automaton accepts keywords only. -/
theorem mem_keywords_of_accepted {c d : Cursor} {t : Token}
    (h : (keywordAutomaton.run 0 c).accepted = some (t, d)) : t ∈ Token.keywords := by
  have ended := accepted_induction (fun _ => True)
    (P := fun _ _ t _ => t ∈ Token.keywords) (fun n _ => ⟨atEnd_keyword n, fun _ _ _ => trivial⟩)
    (fun n c t _ ends _ => List.contains_iff_mem.mp
      (accepts_hold (fun _ t => Token.keywords.contains t) (by decide) ends))
    (fun _ _ _ _ _ _ _ _ _ keyword => keyword) trivial h
  rcases ended with ⟨never, _⟩ | keyword
  · cases never
  · exact keyword

/-- Between two places a text is read as a keyword: the keyword automaton accepts it there. -/
def SpellsKeyword (text : Text) (start stop : Extent) (k : Token) : Prop :=
  ∃ c, (keywordAutomaton.run 0 (.ofPosition text start)).accepted = some (k, c) ∧
    c.pos.bytes = stop.bytes

theorem SpellsKeyword.mem_keywords {text : Text} {start stop : Extent} {k : Token}
    (h : SpellsKeyword text start stop k) : k ∈ Token.keywords := by
  obtain ⟨c, accepted, _⟩ := h
  exact mem_keywords_of_accepted accepted

/-- What an accepted token is read as: itself, or an identifier as the keyword that it spells. -/
theorem readable_leaf (text : Text) (s : State) (c : Cursor) (start : Extent) (t : Token)
    (stop : Extent) : ∃ u, (readable text s c start t stop).leaf = .read u ∧
      (u = t ∨ t = .identifier ∧ SpellsKeyword text start stop u) := by
  rw [readable]
  split
  · rename_i isName
    refine ⟨_, rfl, ?_⟩
    rw [keyword?]
    split
    · rename_i k d accepted
      split
      · rename_i fits
        have ends := (Bool.and_eq_true_iff.mp fits).1
        exact .inr ⟨isName, d, accepted, of_decide_eq_true ends⟩
      · exact .inl isName.symm
    · exact .inl isName.symm
  · exact ⟨t, rfl, .inl rfl⟩

theorem eof_of_readable_isEnd {text : Text} {s : State} {c : Cursor} {start stop : Extent}
    {t : Token} (h : (readable text s c start t stop).isEnd = true) : t = .eof := by
  obtain ⟨u, leaf, same | ⟨_, keyword⟩⟩ := readable_leaf text s c start t stop
  · rw [Lexeme.isEnd, leaf, beq_iff_eq, Leaf.read.injEq] at h
    rw [← same, h]
  · rw [Lexeme.isEnd, leaf, beq_iff_eq, Leaf.read.injEq] at h
    rw [h] at keyword
    exact absurd keyword.mem_keywords (by decide)

/-- The lexeme of an accepted token stands in the text. -/
theorem readable_standsAt {before after : Text} (s : State) (mode : LexMode) {t : Token}
    {e : Cursor} (accepted : (runMode mode ⟨before.extent, after⟩).accepted = some (t, e)) :
    (readable (before ++ after) s ⟨before.extent, after⟩
      (runMode mode ⟨before.extent, after⟩).start t e.pos).StandsAt (before ++ after)
        before.extent := by
  obtain ⟨gap, d, isGap, toStart, start, _, accepts⟩ := runMode_spec mode ⟨before.extent, after⟩
  obtain ⟨body, toStop, isText⟩ := accepts t e accepted
  refine standsAt_of_reaches isGap toStart toStop ?_ ?_ fun ends => ?_
  · rw [readable_padding, start]
  · rw [readable_size, start]
  · rcases isText with ⟨_, empty, atEnd⟩ | ⟨ne, _⟩
    · exact ⟨empty, atEnd⟩
    · exact absurd (eof_of_readable_isEnd ends) ne

/-- The lexeme of unreadable text stands in the text. -/
theorem unreadable_standsAt {before after : Text} (s : State) (mode : LexMode) :
    (unreadable s ⟨before.extent, after⟩ (runMode mode ⟨before.extent, after⟩)).StandsAt
      (before ++ after) before.extent := by
  obtain ⟨gap, d, isGap, toStart, start, ⟨between, toStuck⟩, _⟩ :=
    runMode_spec mode ⟨before.extent, after⟩
  obtain ⟨body, e, toStop, size⟩ : ∃ body e, d.Reaches body e ∧
      (unreadable s ⟨before.extent, after⟩ (runMode mode ⟨before.extent, after⟩)).size =
        e.pos - d.pos := by
    rw [unreadable, start]
    split
    · split
      · exact ⟨[], d, .refl d, rfl⟩
      · obtain ⟨a, ahead⟩ := (runMode mode ⟨before.extent, after⟩).stop.reaches_advance
        obtain ⟨b, e, further, ends⟩ := unreadableEnd_reaches
          ((runMode mode ⟨before.extent, after⟩).stop.rest.length + 1)
          (runMode mode ⟨before.extent, after⟩).stop.advance
        exact ⟨_, e, (toStuck.trans ahead).trans further, by rw [ends]⟩
    · obtain ⟨b, e, further, ends⟩ := unreadableEnd_reaches
        ((runMode mode ⟨before.extent, after⟩).stop.rest.length + 1)
        (runMode mode ⟨before.extent, after⟩).stop
      exact ⟨_, e, toStuck.trans further, by rw [ends]⟩
  refine standsAt_of_reaches isGap toStart toStop ?_ size fun ends => ?_
  · rw [unreadable, start]
  · exact absurd ends (by simp [unreadable, Lexeme.isEnd])

/-- What is read behind a place stands there. -/
theorem scan_standsAt {text : Text} {p : Extent} (s : State) (h : text.IsPlace p) :
    (scan text s p).StandsAt text p := by
  obtain ⟨before, after, rfl, rfl⟩ := h
  rw [scan, Cursor.ofPosition_extent]
  split
  · rename_i t e accepted
    exact readable_standsAt s s.lexMode accepted
  · dsimp only
    split
    · rename_i t e accepted
      exact readable_standsAt s .anything accepted
    · exact unreadable_standsAt s .anything

end SusSyntax.Lexical
