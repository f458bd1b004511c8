import SusSyntax.Proofs.Lexical.Stretch

/-!
Tokens, read from where they begin.

Before a token there is a gap, and all lex modes pass over it in the same way (`runMode_eq`). Behind
it the automaton reads glyph after glyph: the text of an accepted token leads from the entry to a
state where the token may end (`Leads`). What tokens can look like is read off the states: no token
holds the character NUL, and only comments hold a slash behind their first character.
-/

namespace SusSyntax

open Grammar Lexical

namespace Cursor

/-- The place behind the blanks that are ahead at `pos`. -/
def passBlanks (pos : Extent) : Text → Cursor
  | [] => ⟨pos, []⟩
  | g :: rest => if Guard.blank.admits g then passBlanks (pos + g.extent) rest else ⟨pos, g :: rest⟩

/-- The place where the next token begins. -/
def tokenStart (c : Cursor) : Cursor :=
  passBlanks c.passByteOrderMark.pos c.passByteOrderMark.rest

theorem passBlanks_spec (pos : Extent) (rest : Text) :
    ∃ blanks, IsBlank blanks ∧ Reaches ⟨pos, rest⟩ blanks (passBlanks pos rest) ∧
      ∀ g ∈ (passBlanks pos rest).rest.head?, Guard.blank.admits g = false := by
  induction rest generalizing pos with
  | nil => exact ⟨[], fun _ mem => absurd mem List.not_mem_nil, .refl _, fun _ mem => by cases mem⟩
  | cons g rest ih =>
    rw [passBlanks]
    split
    · rename_i blank
      obtain ⟨blanks, allBlank, reaches, behind⟩ := ih (pos + g.extent)
      exact ⟨g :: blanks, List.forall_mem_cons.mpr ⟨blank, allBlank⟩,
        (Reaches.glyph pos g rest).trans reaches, behind⟩
    · rename_i notBlank
      refine ⟨[], fun _ mem => absurd mem List.not_mem_nil, .refl _, fun g' mem => ?_⟩
      obtain rfl := Option.some.inj mem
      simpa using notBlank

/-- Before a token there is a gap, and the token does not begin with a blank. -/
theorem tokenStart_spec (c : Cursor) :
    ∃ gap, IsGap c.pos gap ∧ c.Reaches gap c.tokenStart ∧
      ∀ g ∈ c.tokenStart.rest.head?, Guard.blank.admits g = false := by
  obtain ⟨mark, isMark, marked⟩ := reaches_passByteOrderMark c
  obtain ⟨blanks, blank, reaches, behind⟩ :=
    passBlanks_spec c.passByteOrderMark.pos c.passByteOrderMark.rest
  exact ⟨mark ++ blanks, ⟨mark, blanks, rfl, isMark, blank⟩, marked.trans reaches, behind⟩

end Cursor

namespace Lexical

/-! ### Passing over the gap -/

/-- A run that is entered where a token begins. -/
def tokenRun (mode : LexMode) (d : Cursor) : Run :=
  tokenAutomaton.runFrom mode.entry none d.pos d.pos d.rest

/-- At an entry a blank is passed over. -/
theorem move?_blank (mode : LexMode) {g : Glyph} (blank : Guard.blank.admits g = true) :
    (tokenAutomaton.state mode.entry).move? g = some (.skip .blank mode.entry) := by
  simp only [Guard.admits, Glyph.isChar, Bool.or_eq_true, beq_iff_eq] at blank
  rcases blank with (rfl | rfl) | rfl <;> cases mode <;> rfl

theorem runFrom_passBlanks (mode : LexMode) (pos : Extent) (rest : Text) :
    tokenAutomaton.runFrom mode.entry none pos pos rest =
      tokenRun mode (Cursor.passBlanks pos rest) := by
  induction rest generalizing pos with
  | nil => rfl
  | cons g rest ih =>
    rw [Cursor.passBlanks]
    split
    · rename_i blank
      have found : tokenAutomaton.accepted mode.entry ⟨pos, g :: rest⟩ none = none := by
        rw [Automaton.accepted, (entry_moves mode).1]
      rw [Automaton.runFrom, move?_blank mode blank, found, ← ih]
      rfl
    · rfl

/-- All lex modes pass over the same gap. -/
theorem runMode_eq (mode : LexMode) (c : Cursor) : runMode mode c = tokenRun mode c.tokenStart :=
  runFrom_passBlanks mode c.passByteOrderMark.pos c.passByteOrderMark.rest

/-! ### From state to state -/

/-- Reading a text leads from one state of the token automaton to another. -/
inductive Leads : Nat → Text → Nat → Prop where
  | done {n : Nat} : Leads n [] n
  | step {n m : Nat} {g : Glyph} {body : Text} {move : Move} :
      (tokenAutomaton.state n).move? g = some move → Leads move.target body m →
      Leads n (g :: body) m

/-- What a run inside a token accepts was accepted before, or the text up to there leads to a state
where the token may end. -/
theorem leads_of_accepted {n : Nat} (inner : isInner n = true) {found : Option (Token × Cursor)}
    {start pos : Extent} {rest : Text} {t : Token} {c : Cursor}
    (h : (tokenAutomaton.runFrom n found start pos rest).accepted = some (t, c)) :
    found = some (t, c) ∨ ∃ body m, Cursor.Reaches ⟨pos, rest⟩ body c ∧ Leads n body m ∧
      (tokenAutomaton.state m).accepts = some t := by
  refine (accepted_induction _ (P := fun n d t c => ∃ body m, d.Reaches body c ∧ Leads n body m ∧
    (tokenAutomaton.state m).accepts = some t) inner_stays ?here ?onward inner h).imp_left And.left
  case here =>
    intro n d t inner ends _
    exact ⟨[], n, .refl d, .done, ends⟩
  case onward =>
    rintro n g pos rest move t c inner moved ⟨body, m, reaches, leads, ends⟩
    exact ⟨g :: body, m, (Cursor.Reaches.glyph pos g rest).trans reaches, .step moved leads, ends⟩

/-! ### What tokens look like -/

/-- The character NUL. -/
def nul : Glyph :=
  .char 0

/-- The character that begins comments. -/
def slash : Glyph :=
  .char '/'.toNat

/-- The states behind a slash at the beginning of a token. -/
def isBehindSlash (n : Nat) : Bool :=
  [4, 5, 6, 33, 44, 45].contains n

/-- What is so for every move of the token automaton. -/
def isSaneMove (n : Nat) (m : Move) : Bool :=
  !m.guard.admits nul && (!isBehindSlash n || isBehindSlash m.target) &&
    (!isInner n || isBehindSlash n || !m.guard.admits slash && !isBehindSlash m.target)

theorem isSaneMove_of_move? {n : Nat} {g : Glyph} {m : Move}
    (h : (tokenAutomaton.state n).move? g = some m) : isSaneMove n m = true :=
  moves_hold isSaneMove (by decide) h

/-- No token holds the character NUL. -/
theorem Leads.nul_not_mem {n m : Nat} {body : Text} (h : Leads n body m) : nul ∉ body := by
  induction h with
  | done => exact List.not_mem_nil
  | @step n m g body move moved _ ih =>
    intro mem
    rcases List.mem_cons.mp mem with rfl | mem
    · have sane := isSaneMove_of_move? moved
      simp [isSaneMove, (move?_mem moved).2] at sane
    · exact ih mem

/-- A token that does not begin with a slash holds none. -/
theorem Leads.slash_not_mem {n m : Nat} {body : Text} (h : Leads n body m)
    (inner : isInner n = true) (free : isBehindSlash n = false) :
    slash ∉ body ∧ isBehindSlash m = false := by
  induction h with
  | done => exact ⟨List.not_mem_nil, free⟩
  | @step n m g body move moved _ ih =>
    have sane := isSaneMove_of_move? moved
    simp only [isSaneMove, inner, free, Bool.not_true, Bool.false_or, Bool.and_eq_true,
      Bool.not_eq_true'] at sane
    obtain ⟨_, noSlash, free⟩ := sane
    obtain ⟨rest, last⟩ := ih (inner_moves inner (move?_mem moved).1).2 free
    refine ⟨fun mem => ?_, last⟩
    rcases List.mem_cons.mp mem with rfl | mem
    · rw [(move?_mem moved).2] at noSlash
      cases noSlash
    · exact rest mem

/-- The character of multiplication, which also begins and ends comments. -/
def star : Glyph :=
  .char '*'.toNat

/-- A text that is read as a token in a lex mode, from where the token begins. -/
inductive IsSpelling (mode : LexMode) (t : Token) : Text → Prop where
  | intro {g : Glyph} {body : Text} {move : Move} {m : Nat} :
      (tokenAutomaton.state mode.entry).move? g = some move → isInner move.target = true →
      Leads move.target body m → (tokenAutomaton.state m).accepts = some t →
      IsSpelling mode t (g :: body)

/-- What is accepted where a token begins is spelled there. The end of the text is accepted where
nothing is left. -/
theorem tokenRun_accepted {mode : LexMode} {d c : Cursor} {t : Token}
    (notBlank : ∀ g ∈ d.rest.head?, Guard.blank.admits g = false)
    (h : (tokenRun mode d).accepted = some (t, c)) :
    t = .eof ∧ d.rest = [] ∧ c = d ∨ ∃ body, d.Reaches body c ∧ IsSpelling mode t body := by
  obtain ⟨pos, rest⟩ := d
  have nothing : ∀ c, tokenAutomaton.accepted mode.entry c none = none := by
    intro c
    rw [Automaton.accepted, (entry_moves mode).1]
  rw [tokenRun] at h
  cases rest with
  | nil =>
    rw [Automaton.runFrom, nothing] at h
    cases atEnd : (tokenAutomaton.state mode.entry).atEnd with
    | none =>
      rw [atEnd] at h
      cases h
    | some m =>
      rw [atEnd] at h
      simp only [Automaton.accepted, entry_atEnd atEnd, Option.some.injEq, Prod.mk.injEq] at h
      exact .inl ⟨h.1.symm, rfl, h.2.symm⟩
  | cons g rest =>
    rw [Automaton.runFrom, nothing] at h
    cases moved : (tokenAutomaton.state mode.entry).move? g with
    | none =>
      rw [moved] at h
      cases h
    | some move =>
      rw [moved] at h
      obtain ⟨mem, admits⟩ := move?_mem moved
      rcases (entry_moves mode).2 move mem with ⟨_, _, same⟩ | ⟨_, inner⟩
      · rw [same, notBlank g rfl] at admits
        cases admits
      · rcases leads_of_accepted inner h with h | ⟨body, m, reaches, leads, ends⟩
        · cases h
        · exact .inr ⟨g :: body, (Cursor.Reaches.glyph pos g rest).trans reaches,
            .intro moved inner leads ends⟩

namespace IsSpelling

variable {mode : LexMode} {t : Token} {text : Text}

theorem nul_not_mem (h : IsSpelling mode t text) : nul ∉ text := by
  obtain ⟨moved, _, leads, _⟩ := h
  exact (Leads.step moved leads).nul_not_mem

/-- A token that ends behind one character only is that character. -/
theorem eq_singleton (h : IsSpelling mode t text) {c : Char}
    (single : ((List.range tokenAutomaton.states.size).all fun n =>
      (tokenAutomaton.state n).moves.all fun m =>
        (tokenAutomaton.state m.target).accepts != some t ||
          !isInner n && match m.guard with | .char d => c == d | _ => false) = true) :
    text = [.char c.toNat] := by
  have check {n : Nat} {g : Glyph} {move : Move} (moved : (tokenAutomaton.state n).move? g = some move)
      (ends : (tokenAutomaton.state move.target).accepts = some t) :
      isInner n = false ∧ g = .char c.toNat := by
    have holds := moves_hold (fun n m => (tokenAutomaton.state m.target).accepts != some t ||
      !isInner n && match m.guard with | .char d => c == d | _ => false) single moved
    simp only [ends, bne_self_eq_false, Bool.false_or, Bool.and_eq_true, Bool.not_eq_true'] at holds
    have admits := (move?_mem moved).2
    obtain ⟨guard, skips, target⟩ := move
    cases guard with
    | char d =>
      obtain ⟨outside, same⟩ := holds
      obtain rfl := eq_of_beq same
      exact ⟨outside, eq_of_beq admits⟩
    | _ => cases holds.2
  have nothing {n m : Nat} {body : Text} (leads : Leads n body m) (inner : isInner n = true)
      (ends : (tokenAutomaton.state m).accepts = some t) : body = [] := by
    induction leads with
    | done => rfl
    | @step n m g body move moved leads ih =>
      obtain rfl := ih (inner_moves inner (move?_mem moved).1).2 ends
      cases leads
      rw [(check moved ends).1] at inner
      cases inner
  obtain ⟨moved, inner, leads, ends⟩ := h
  obtain rfl := nothing leads inner ends
  cases leads
  rw [(check moved ends).2]

theorem eq_slash (h : IsSpelling mode .slash text) : text = [slash] :=
  h.eq_singleton (by decide)

theorem eq_star (h : IsSpelling mode .star text) : text = [star] :=
  h.eq_singleton (by decide)

/-- Behind a slash at the beginning there is the slash itself or a comment. -/
theorem isComment_of_slash_mem (h : IsSpelling mode t text) (mem : slash ∈ text.tail) :
    t.isComment = true := by
  have stays {n m : Nat} {body : Text} (leads : Leads n body m) (behind : isBehindSlash n = true) :
      isBehindSlash m = true := by
    induction leads with
    | done => exact behind
    | step moved _ ih =>
      have sane := isSaneMove_of_move? moved
      simp only [isSaneMove, behind, Bool.and_eq_true, Bool.not_true, Bool.false_or] at sane
      exact ih sane.1.2
  have isSlash : t = .slash ∨ t.isComment = true := by
    obtain ⟨moved, inner, leads, ends⟩ := h
    rename_i g body move m
    have behind : isBehindSlash m = true := by
      refine stays leads ?_
      rw [← Bool.not_eq_false]
      intro free
      exact (leads.slash_not_mem inner free).1 mem
    have holds := accepts_hold (fun m t => !isBehindSlash m || t == .slash || t.isComment)
      (by decide) ends
    simpa [behind] using holds
  refine isSlash.resolve_left ?_
  rintro rfl
  rw [h.eq_slash] at mem
  cases mem

end IsSpelling

/-! ### Lexemes -/

theorem tokenRun_start {mode : LexMode} {d : Cursor}
    (notBlank : ∀ g ∈ d.rest.head?, Guard.blank.admits g = false) :
    (tokenRun mode d).start = d.pos := by
  obtain ⟨pos, rest⟩ := d
  rw [tokenRun]
  cases rest with
  | nil =>
    rw [Automaton.runFrom]
    cases (tokenAutomaton.state mode.entry).atEnd <;> rfl
  | cons g rest =>
    rw [Automaton.runFrom]
    cases moved : (tokenAutomaton.state mode.entry).move? g with
    | none => rfl
    | some move =>
      obtain ⟨mem, admits⟩ := move?_mem moved
      rcases (entry_moves mode).2 move mem with ⟨_, _, same⟩ | ⟨stays, inner⟩
      · rw [same, notBlank g rfl] at admits
        cases admits
      · simp only [stays, Bool.false_eq_true, if_false]
        exact (runFrom_inner inner _ _ _ _).1

/-- What is read is what a run accepts from where the token begins: in the lex mode of the state, or
where that accepts nothing, as anything. -/
theorem scan_cases (text : Text) (s : State) (p : Extent) {d : Cursor}
    (begins : (Cursor.ofPosition text p).tokenStart = d) :
    (∃ mode t e, (mode = s.lexMode ∨ mode = .anything ∧ (tokenRun s.lexMode d).accepted = none) ∧
      (tokenRun mode d).accepted = some (t, e) ∧
      scan text s p = readable text s (.ofPosition text p) d.pos t e.pos) ∨
    (tokenRun s.lexMode d).accepted = none ∧ (tokenRun .anything d).accepted = none ∧
      scan text s p = unreadable s (.ofPosition text p) (tokenRun .anything d) := by
  have notBlank : ∀ g ∈ d.rest.head?, Guard.blank.admits g = false := by
    obtain ⟨_, _, _, notBlank⟩ := Cursor.tokenStart_spec (.ofPosition text p)
    rwa [begins] at notBlank
  rw [scan]
  simp only [runMode_eq, begins, tokenRun_start notBlank]
  cases asked : (tokenRun s.lexMode d).accepted with
  | some found => exact .inl ⟨s.lexMode, found.1, found.2, .inl rfl, asked, rfl⟩
  | none =>
    cases any : (tokenRun .anything d).accepted with
    | some found => exact .inl ⟨.anything, found.1, found.2, .inr ⟨rfl, rfl⟩, any, rfl⟩
    | none => exact .inr ⟨rfl, rfl, rfl⟩

/-- Between two places a text is read as a token: a run accepts it there. -/
inductive Spells (text : Text) (start stop : Extent) (t : Token) : Prop where
  | intro {before body after : Text} {mode : LexMode} :
      text = before ++ (body ++ after) → start = before.extent → stop = (before ++ body).extent →
      (tokenRun mode ⟨before.extent, body ++ after⟩).accepted =
        some (t, ⟨(before ++ body).extent, after⟩) →
      t = .eof ∨ IsSpelling mode t body → Spells text start stop t

theorem isKeyword_readable {text : Text} {s : State} {c : Cursor} {start stop : Extent} {t : Token}
    (h : (readable text s c start t stop).isKeyword = true) : t = .identifier := by
  rw [readable] at h
  split at h
  · assumption
  · cases h

/-- What is read as a token is spelled in the text, but for identifiers that are taken for the keywords
they spell. -/
theorem spells_scan {text : Text} {s : State} {p : Extent} {u : Token} (place : text.IsPlace p)
    (leaf : (scan text s p).leaf = .read u) :
    ∃ t, Spells text (p + (scan text s p).padding) (p + (scan text s p).extent) t ∧
      (u = t ∨ t = .identifier ∧
        SpellsKeyword text (p + (scan text s p).padding) (p + (scan text s p).extent) u) ∧
      ((scan text s p).isKeyword = true → t = .identifier) := by
  obtain ⟨before, after, rfl, rfl⟩ := place
  obtain ⟨gap, _, toStart, notBlank⟩ :=
    Cursor.tokenStart_spec (.ofPosition (before ++ after) before.extent)
  generalize begins : (Cursor.ofPosition (before ++ after) before.extent).tokenStart = d
    at toStart notBlank
  rcases scan_cases (before ++ after) s before.extent begins with
    ⟨mode, t, e, _, accepted, same⟩ | ⟨_, _, same⟩
  · rw [same] at leaf ⊢
    obtain ⟨u', leaf', known⟩ := readable_leaf (before ++ after) s
      (.ofPosition (before ++ after) before.extent) d.pos t e.pos
    obtain rfl := Leaf.read.inj (leaf'.symm.trans leaf)
    obtain ⟨body, toStop, spelled⟩ :
        ∃ body, d.Reaches body e ∧ (t = .eof ∨ IsSpelling mode t body) := by
      rcases tokenRun_accepted notBlank accepted with ⟨isEnd, _, rfl⟩ | ⟨body, reaches, spelled⟩
      · exact ⟨[], .refl _, .inl isEnd⟩
      · exact ⟨body, reaches, .inr spelled⟩
    rw [Cursor.ofPosition_extent] at toStart ⊢
    have start : before.extent + (d.pos - before.extent) = d.pos := by
      rw [toStart.sub]
      exact toStart.2.symm
    have stop : d.pos + (e.pos - d.pos) = e.pos := by
      rw [toStop.sub]
      exact toStop.2.symm
    rw [Lexeme.extent, readable_padding, readable_size, ← Extent.add_assoc, start, stop]
    refine ⟨t, ?_, known, isKeyword_readable⟩
    obtain ⟨dpos, drest⟩ := d
    obtain ⟨epos, erest⟩ := e
    obtain ⟨behindGap, rfl⟩ := toStart
    obtain ⟨behindBody, rfl⟩ := toStop
    dsimp only at behindGap behindBody accepted
    subst behindBody behindGap
    refine .intro (List.append_assoc before gap (body ++ erest)).symm ?_ ?_ ?_ spelled
    · simp
    · simp [Extent.add_assoc]
    · simpa [Extent.add_assoc] using accepted
  · rw [same] at leaf
    cases leaf

end Lexical

end SusSyntax
