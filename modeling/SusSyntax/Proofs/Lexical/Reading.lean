import SusSyntax.Proofs.Lexical.Modes
import SusSyntax.Proofs.Lexical.Spellings

/-!
What is read depends on what is ahead only.

Where a run accepts is the same wherever the text stands (`runFrom_shift`), and it does not depend on
what stands behind the place from which on nothing longer can be accepted (`reach_congr`). So behind
the gap before a token, the lexeme is a matter of the text ahead and of the state (`scan_eq`), and of
the text ahead only the token itself counts, as long as it does not go on (`reading_congr`).
-/

namespace SusSyntax.Lexical

open Grammar

/-! ### Where a run accepts -/

namespace Run

/-- The token that a run accepts, and the place behind it. -/
def reach (run : Run) : Option (Token × Extent) :=
  run.accepted.map fun (t, c) => (t, c.pos)

theorem reach_eq_some {run : Run} {t : Token} {e : Extent} :
    run.reach = some (t, e) ↔ ∃ rest, run.accepted = some (t, ⟨e, rest⟩) := by
  rw [reach, Option.map_eq_some_iff]
  constructor
  · rintro ⟨⟨t', c⟩, accepted, same⟩
    obtain ⟨rfl, rfl⟩ := Prod.mk.inj same
    exact ⟨c.rest, accepted⟩
  · rintro ⟨rest, accepted⟩
    exact ⟨_, accepted, rfl⟩

theorem reach_eq_none {run : Run} : run.reach = none ↔ run.accepted = none :=
  Option.map_eq_none_iff

end Run

namespace Automaton

variable {a : Automaton} {n : Nat} {found found' : Option (Token × Cursor)}
  {start start' pos : Extent}

theorem map_accepted (f : Token × Cursor → Token × Extent) (n : Nat) (c : Cursor)
    (found : Option (Token × Cursor)) :
    (a.accepted n c found).map f =
      ((a.state n).accepts.map fun t => f (t, c)).or (found.map f) := by
  rw [accepted]
  cases (a.state n).accepts <;> rfl

/-- A run goes on in the same way wherever the text stands. -/
theorem runFrom_shift (a : Automaton) (p : Extent) {rest : Text}
    (same : found'.map (fun x => (x.1, x.2.pos)) = found.map fun x => (x.1, p + x.2.pos)) :
    (a.runFrom n found' start' (p + pos) rest).reach =
      (a.runFrom n found start pos rest).reach.map fun (t, e) => (t, p + e) := by
  have here (n : Nat) (rest : Text) {pos : Extent} {found found' : Option (Token × Cursor)}
      (same : found'.map (fun x => (x.1, x.2.pos)) = found.map fun x => (x.1, p + x.2.pos)) :
      (a.accepted n ⟨p + pos, rest⟩ found').map (fun x => (x.1, x.2.pos)) =
        (a.accepted n ⟨pos, rest⟩ found).map fun x => (x.1, p + x.2.pos) := by
    rw [map_accepted, map_accepted, same]
  have whole (run : Run) : run.reach.map (fun (t, e) => (t, p + e)) =
      run.accepted.map fun x => (x.1, p + x.2.pos) := by
    rw [Run.reach, Option.map_map]
    rfl
  rw [whole]
  induction rest generalizing n found found' start start' pos with
  | nil =>
    simp only [runFrom]
    cases (a.state n).atEnd with
    | none => exact here n [] same
    | some m => exact here m [] (here n [] same)
  | cons g rest ih =>
    simp only [runFrom]
    cases (a.state n).move? g with
    | none => exact here n (g :: rest) same
    | some move =>
      dsimp only
      rw [Extent.add_assoc]
      exact ih (here n (g :: rest) same)

/-! ### Where nothing longer is accepted -/

/-- With this text ahead nothing is accepted any more behind the state `n`. -/
def Ends (a : Automaton) : Nat → Text → Prop
  | n, [] => (a.state n).atEnd = none
  | n, g :: rest => ∀ move, (a.state n).move? g = some move →
      (a.state move.target).accepts = none ∧ a.Ends move.target rest

/-- With `after` ahead nothing is accepted any more behind the text `body`, read from the state `n`. -/
def EndsBehind (a : Automaton) : Nat → Text → Text → Prop
  | n, [], after => a.Ends n after
  | n, g :: body, after => ∀ move, (a.state n).move? g = some move →
      a.EndsBehind move.target body after

theorem Ends.accepted_eq {rest : Text} (h : a.Ends n rest) (found : Option (Token × Cursor))
    (start pos : Extent) :
    (a.runFrom n found start pos rest).accepted = a.accepted n ⟨pos, rest⟩ found := by
  induction rest generalizing n found start pos with
  | nil =>
    have atEnd : (a.state n).atEnd = none := h
    simp only [runFrom, atEnd]
  | cons g rest ih =>
    simp only [runFrom]
    cases moved : (a.state n).move? g with
    | none => rfl
    | some move =>
      obtain ⟨nothing, ends⟩ := h move moved
      dsimp only
      rw [ih ends, accepted, nothing]

/-- What a run accepts does not depend on a text from which on nothing more is accepted. -/
theorem reach_congr {body after after' : Text} (h : a.EndsBehind n body after)
    (h' : a.EndsBehind n body after')
    (same : found.map (fun x => (x.1, x.2.pos)) = found'.map fun x => (x.1, x.2.pos)) :
    (a.runFrom n found start pos (body ++ after)).reach =
      (a.runFrom n found' start' pos (body ++ after')).reach := by
  induction body generalizing n found found' start start' pos with
  | nil =>
    rw [Run.reach, Run.reach, List.nil_append, List.nil_append, Ends.accepted_eq h,
      Ends.accepted_eq h', map_accepted, map_accepted, same]
  | cons g body ih =>
    have next : (a.accepted n ⟨pos, g :: (body ++ after)⟩ found).map (fun x => (x.1, x.2.pos)) =
        (a.accepted n ⟨pos, g :: (body ++ after')⟩ found').map fun x => (x.1, x.2.pos) := by
      rw [map_accepted, map_accepted, same]
    simp only [List.cons_append, runFrom]
    cases moved : (a.state n).move? g with
    | none => exact next
    | some move => exact ih (h move moved) (h' move moved) next

/-- What was accepted once is not lost. -/
theorem exists_accepted {c : Cursor} {t : Token} {rest : Text}
    (known : a.accepted n ⟨pos, rest⟩ found = some (t, c)) (le : c.pos.bytes ≤ pos.bytes) :
    ∃ t' c', (a.runFrom n found start pos rest).accepted = some (t', c') ∧
      c.pos.bytes ≤ c'.pos.bytes := by
  have here {n : Nat} {d : Cursor} {found : Option (Token × Cursor)} {t : Token} {c : Cursor}
      (le : c.pos.bytes ≤ d.pos.bytes) (known : found = some (t, c)) :
      ∃ t' c', a.accepted n d found = some (t', c') ∧ c.pos.bytes ≤ c'.pos.bytes ∧
        c'.pos.bytes ≤ d.pos.bytes := by
    rw [accepted, known]
    cases (a.state n).accepts with
    | none => exact ⟨t, c, rfl, Nat.le_refl _, le⟩
    | some u => exact ⟨u, d, rfl, le, Nat.le_refl _⟩
  induction rest generalizing n found start pos t c with
  | nil =>
    simp only [runFrom, known]
    cases (a.state n).atEnd with
    | none => exact ⟨t, c, rfl, Nat.le_refl _⟩
    | some m =>
      obtain ⟨t', c', accepted, further, -⟩ := here (n := m) (d := ⟨pos, []⟩) le rfl
      exact ⟨t', c', accepted, further⟩
  | cons g rest ih =>
    simp only [runFrom, known]
    cases (a.state n).move? g with
    | none => exact ⟨t, c, rfl, Nat.le_refl _⟩
    | some move =>
      have le : c.pos.bytes ≤ (pos + g.extent).bytes := Nat.le_trans le (Nat.le_add_right ..)
      obtain ⟨t', c', accepted, further, le'⟩ :=
        here (n := move.target) (d := ⟨pos + g.extent, rest⟩) le rfl
      obtain ⟨t'', c'', accepted', further'⟩ := ih accepted le'
      exact ⟨t'', c'', accepted', Nat.le_trans further further'⟩

end Automaton

/-! ### Inside a token -/

/-- If nothing is accepted further on, nothing can be. -/
theorem ends_of_reach {n : Nat} (inner : isInner n = true) {found : Option (Token × Cursor)}
    {start pos : Extent} {rest : Text}
    (last : ∀ t e, (tokenAutomaton.runFrom n found start pos rest).reach = some (t, e) →
      e.bytes ≤ pos.bytes) : tokenAutomaton.Ends n rest := by
  induction rest generalizing n found start pos with
  | nil => exact (inner_accepts inner).2
  | cons g rest ih =>
    intro move moved
    have inner := (inner_moves inner (move?_mem moved).1).2
    simp only [Automaton.runFrom, moved] at last
    refine ⟨?_, ih inner fun t e reach => Nat.le_trans (last t e reach) (Nat.le_add_right ..)⟩
    cases accepts : (tokenAutomaton.state move.target).accepts with
    | none => rfl
    | some t =>
      have known (found : Option (Token × Cursor)) : tokenAutomaton.accepted move.target
          ⟨pos + g.extent, rest⟩ found = some (t, ⟨pos + g.extent, rest⟩) := by
        rw [Automaton.accepted, accepts]
      obtain ⟨t', c', accepted, further⟩ :=
        Automaton.exists_accepted (known _) (Nat.le_refl (pos + g.extent).bytes)
      have := last t' c'.pos (Run.reach_eq_some.mpr ⟨c'.rest, accepted⟩)
      have := g.width_pos
      simp only [Extent.bytes_add, Glyph.bytes_extent] at further
      omega

theorem endsBehind_of_reach {n : Nat} (inner : isInner n = true) {found : Option (Token × Cursor)}
    {start pos : Extent} {body after : Text}
    (last : ∀ t e, (tokenAutomaton.runFrom n found start pos (body ++ after)).reach = some (t, e) →
      e.bytes ≤ (pos + body.extent).bytes) : tokenAutomaton.EndsBehind n body after := by
  induction body generalizing n found start pos with
  | nil =>
    rw [Text.extent_nil, Extent.add_zero] at last
    exact ends_of_reach inner last
  | cons g body ih =>
    intro move moved
    simp only [List.cons_append, Automaton.runFrom, moved] at last
    rw [Text.extent_cons, ← Extent.add_assoc] at last
    exact ih (inner_moves inner (move?_mem moved).1).2 last

theorem endsBehind_iff {n : Nat} {body after : Text} :
    tokenAutomaton.EndsBehind n body after ↔
      ∀ m, Leads n body m → tokenAutomaton.Ends m after := by
  constructor
  · intro ends m leads
    induction leads with
    | done => exact ends
    | step moved _ ih => exact ih (ends _ moved)
  · intro ends
    induction body generalizing n with
    | nil => exact ends n .done
    | cons g body ih => exact fun move moved => ih fun m leads => ends m (.step moved leads)

/-! ### From where a token begins -/

/-- The longest token that is ahead in a lex mode, with its extent. -/
def longest (mode : LexMode) (rest : Text) : Option (Token × Extent) :=
  (tokenRun mode ⟨.zero, rest⟩).reach

theorem reach_tokenRun (mode : LexMode) (p : Extent) (rest : Text) :
    (tokenRun mode ⟨p, rest⟩).reach = (longest mode rest).map fun (t, e) => (t, p + e) := by
  have shift : (tokenAutomaton.runFrom mode.entry none p (p + .zero) rest).reach =
      (longest mode rest).map fun (t, e) => (t, p + e) :=
    Automaton.runFrom_shift tokenAutomaton p rfl
  rw [Extent.add_zero] at shift
  exact shift

/-- The word that the keyword automaton accepts first of what is ahead, with its extent. -/
def keywordAhead (rest : Text) : Option (Token × Extent) :=
  (keywordAutomaton.runFrom 0 none .zero .zero rest).reach

/-- The keyword that is ahead with the extent of a name, if the state knows it. -/
def keywordOf? (s : State) (rest : Text) (size : Extent) : Option Token :=
  (keywordAhead rest).bind fun (k, e) =>
    if e.bytes = size.bytes && s.knows (.token k) then some k else none

/-- What is read of a text ahead in a state: the token, whether it is a name that begins like a
keyword, and its extent. -/
def reading (s : State) (rest : Text) : Option (Token × Bool × Extent) :=
  ((longest s.lexMode rest).or (longest .anything rest)).map fun (t, size) =>
    if t = .identifier then
      ((keywordOf? s rest size).getD .identifier, (keywordAhead rest).isSome, size)
    else (t, false, size)

/-- The text `rest` stands behind the gap `gap` from the place `p` on. -/
def Begins (p : Extent) (gap rest : Text) : Prop :=
  Cursor.tokenStart ⟨p, gap ++ rest⟩ = ⟨p + gap.extent, rest⟩

/-- What is ahead as a token: nothing at the end, and otherwise a text of the token. -/
theorem exists_of_longest {mode : LexMode} {rest : Text} {t : Token} {size : Extent}
    (notBlank : ∀ g ∈ rest.head?, Guard.blank.admits g = false)
    (h : longest mode rest = some (t, size)) :
    t = .eof ∧ rest = [] ∧ size = .zero ∨
      ∃ body after, rest = body ++ after ∧ size = body.extent ∧ IsSpelling mode t body ∧
        Fits t body after := by
  obtain ⟨after, accepted⟩ := Run.reach_eq_some.mp h
  rcases tokenRun_accepted notBlank accepted with ⟨isEnd, isEmpty, same⟩ | ⟨body, reaches, spelled⟩
  · exact .inl ⟨isEnd, isEmpty, congrArg Cursor.pos same⟩
  · obtain ⟨split, stop⟩ := reaches
    dsimp only at split stop
    subst split
    exact .inr ⟨body, after, rfl, by simpa using stop, spelled, spelled.fits accepted⟩

theorem head_of_identifier {mode : LexMode} {rest : Text} {size : Extent}
    (notBlank : ∀ g ∈ rest.head?, Guard.blank.admits g = false)
    (h : longest mode rest = some (.identifier, size)) :
    ∃ g others, rest = g :: others ∧ Guard.identifierStart.admits g = true := by
  rcases exists_of_longest notBlank h with ⟨isEnd, _⟩ | ⟨_, after, rfl, _, _, g, others, rfl, first, _⟩
  · cases isEnd
  · exact ⟨g, others ++ after, rfl, first⟩

/-- The keyword automaton runs over a name in the same way wherever the name stands. -/
theorem reach_keywordRun {p : Extent} {g : Glyph} (others : Text)
    (first : Guard.identifierStart.admits g = true) :
    (keywordAutomaton.run 0 ⟨p, g :: others⟩).reach =
      (keywordAhead (g :: others)).map fun (k, e) => (k, p + e) := by
  have start : Cursor.passByteOrderMark ⟨p, g :: others⟩ = ⟨p, g :: others⟩ := by
    simp [Cursor.passByteOrderMark, (ne_of_identifierStart first).2]
  have shift : (keywordAutomaton.runFrom 0 none p (p + .zero) (g :: others)).reach =
      (keywordAhead (g :: others)).map fun (k, e) => (k, p + e) :=
    Automaton.runFrom_shift keywordAutomaton p rfl
  rw [Extent.add_zero] at shift
  rw [Automaton.run, start]
  exact shift

theorem keyword?_eq (s : State) (run : Run) (stop : Extent) :
    keyword? s run stop = run.reach.bind fun (k, e) =>
      if e.bytes = stop.bytes && s.knows (.token k) then some k else none := by
  rw [keyword?, Run.reach]
  cases run.accepted with
  | none => rfl
  | some found => rfl

/-- The lexeme of an accepted token, behind a gap. -/
theorem readable_eq {before gap rest : Text} (s : State) {mode : LexMode} {t : Token} {size : Extent}
    (notBlank : ∀ g ∈ rest.head?, Guard.blank.admits g = false)
    (accepts : longest mode rest = some (t, size)) :
    readable (before ++ (gap ++ rest)) s ⟨before.extent, gap ++ rest⟩
        (before.extent + gap.extent) t (before.extent + gap.extent + size) =
      if t = .identifier then
        ⟨.read ((keywordOf? s rest size).getD .identifier), gap.extent, size,
          (keywordAhead rest).isSome, s⟩
      else ⟨.read t, gap.extent, size, false, s⟩ := by
  rw [readable]
  dsimp only
  rw [Extent.add_sub_self, Extent.add_sub_self]
  by_cases isName : t = .identifier
  · subst isName
    rw [if_pos rfl, if_pos rfl]
    obtain ⟨g, others, rfl, first⟩ := head_of_identifier notBlank accepts
    have place : Cursor.ofPosition (before ++ (gap ++ g :: others)) (before.extent + gap.extent) =
        ⟨before.extent + gap.extent, g :: others⟩ := by
      rw [← Text.extent_append, ← List.append_assoc, Cursor.ofPosition_extent]
    have reach := reach_keywordRun (p := before.extent + gap.extent) others first
    rw [place, keyword?_eq, reach, keywordOf?]
    have isSome := congrArg Option.isSome reach
    rw [Run.reach, Option.isSome_map, Option.isSome_map] at isSome
    rw [isSome]
    cases keywordAhead (g :: others) with
    | none => rfl
    | some found => simp
  · rw [if_neg isName, if_neg isName]

/-- The lexeme behind a gap is what is read of the text ahead, and unreadable if nothing is. -/
theorem scan_eq {before gap rest : Text} (s : State) (begins : Begins before.extent gap rest) :
    match reading s rest with
    | some (t, k, size) => scan (before ++ (gap ++ rest)) s before.extent =
        ⟨.read t, gap.extent, size, k, s⟩
    | none => ∃ stuck, (scan (before ++ (gap ++ rest)) s before.extent).leaf = .unread stuck := by
  have start : (Cursor.ofPosition (before ++ (gap ++ rest)) before.extent).tokenStart =
      ⟨before.extent + gap.extent, rest⟩ := by
    rw [Cursor.ofPosition_extent]
    exact begins
  have notBlank : ∀ g ∈ rest.head?, Guard.blank.admits g = false := by
    obtain ⟨_, _, _, notBlank⟩ := Cursor.tokenStart_spec ⟨before.extent, gap ++ rest⟩
    rwa [begins] at notBlank
  rcases scan_cases _ s before.extent start with ⟨mode, t, e, asked, accepted, same⟩ | ⟨asked, any, same⟩
  · have reach := reach_tokenRun mode (before.extent + gap.extent) rest
    rw [Run.reach, accepted] at reach
    obtain ⟨⟨t', size⟩, accepts, found⟩ := Option.map_eq_some_iff.mp reach.symm
    obtain ⟨rfl, stop⟩ := Prod.mk.inj found
    have first : (longest s.lexMode rest).or (longest .anything rest) = some (t', size) := by
      rcases asked with isMode | ⟨isMode, none⟩
      · rw [← isMode, accepts, Option.some_or]
      · have nothing := reach_tokenRun s.lexMode (before.extent + gap.extent) rest
        rw [Run.reach_eq_none.mpr none] at nothing
        rw [Option.map_eq_none_iff.mp nothing.symm, Option.none_or, ← isMode, accepts]
    rw [same, Cursor.ofPosition_extent, ← stop, readable_eq s notBlank accepts, reading, first]
    dsimp only [Option.map_some]
    split <;> rfl
  · have nothing {mode : LexMode}
        (none : (tokenRun mode ⟨before.extent + gap.extent, rest⟩).accepted = none) :
        longest mode rest = .none := by
      have reach := reach_tokenRun mode (before.extent + gap.extent) rest
      rw [Run.reach_eq_none.mpr none] at reach
      exact Option.map_eq_none_iff.mp reach.symm
    have unread : reading s rest = none := by
      rw [reading, nothing asked, nothing any]
      rfl
    rw [unread]
    exact ⟨_, congrArg Lexeme.leaf same⟩

/-! ### Texts that go on differently -/

theorem Leads.unique {n m m' : Nat} {body : Text} (h : Leads n body m) (h' : Leads n body m') :
    m = m' := by
  induction h with
  | done =>
    cases h'
    rfl
  | step moved _ ih =>
    cases h' with
    | step moved' leads =>
      obtain rfl := Option.some.inj (moved.symm.trans moved')
      exact ih leads

/-- What has been read from the entry of a lex mode, if that does not begin with a blank. -/
theorem isReadIn_of_leads {mode : LexMode} {m : Nat} {g : Glyph} {body : Text}
    (leads : Leads mode.entry (g :: body) m) (notBlank : Guard.blank.admits g = false) :
    isInner m = true ∧ IsReadIn m (g :: body) := by
  have entry : isStraight mode.entry = true ∧ tokenWord mode.entry = [] := by
    cases mode <;> decide
  cases leads with
  | @step _ _ _ _ move moved leads =>
    obtain ⟨mem, admits⟩ := move?_mem moved
    rcases (entry_moves mode).2 move mem with ⟨_, _, same⟩ | ⟨_, inner⟩
    · rw [same, notBlank] at admits
      cases admits
    · have first := (IsReadIn.word entry.1).step moved inner
      rw [entry.2] at first
      exact ⟨leads.isInner inner, first.leads leads inner⟩

/-- A text that is read as a token is not the beginning of a block comment. -/
theorem IsSpelling.ne_commentState {mode : LexMode} {t : Token} {body : Text}
    (h : IsSpelling mode t body) (notBlank : ∀ g ∈ body.head?, Guard.blank.admits g = false)
    {m : Nat} (read : IsReadIn m body) (behindStar : Bool) : m ≠ commentState behindStar := by
  intro same
  obtain ⟨rest, rfl, open'⟩ : ∃ rest, body = slash :: star :: rest ∧ ¬Closes rest := by
    cases read with
    | word straight => cases behindStar <;> subst same <;> cases straight
    | inComment open' => exact ⟨_, rfl, open'⟩
    | _ => cases behindStar <;> cases same
  obtain ⟨moved, inner, leads, ends⟩ := h
  rename_i move m'
  obtain ⟨inner', read'⟩ := isReadIn_of_leads (.step moved leads) (notBlank _ rfl)
  generalize whole : slash :: star :: rest = body at read'
  cases read' with
  | word straight =>
    obtain ⟨fixed, word⟩ := tokenWord_of_accepts straight inner' ends
    have none : ∀ t ∈ Token.all, isFixed t = true →
        (Text.ofChars t.name.toList).take 2 ≠ [slash, star] := by
      decide
    refine none t (Token.mem_all t) fixed ?_
    rw [← word, ← whole]
    rfl
  | identifier first =>
    obtain ⟨rfl, -⟩ := List.cons.inj whole
    revert first
    decide
  | number first =>
    obtain ⟨rfl, -⟩ := List.cons.inj whole
    cases first
  | lineComment => simp [slash, star] at whole
  | @inComment _ behindStar => cases behindStar <;> cases ends
  | @blockComment rest' =>
    obtain rfl : rest = rest' ++ [star, slash] := by simpa using whole
    exact open' ⟨rest', [], by simp⟩

/-- The states in which the token `t` with the text `body` can end, or in which a lex mode that does
not know the token is left with the text. -/
structure MayEnd (t : Token) (body : Text) (m : Nat) : Prop where
  inner : isInner m = true
  isReadIn : IsReadIn m body
  outside : ∀ behindStar, m ≠ commentState behindStar
  accepts : ∀ u, (tokenAutomaton.state m).accepts = some u → u = t ∨ u = .identifier

/-- In a lex mode that reads no further than to the end of a text, it is read in the same way where
something else comes behind it, if it does not go on there either. -/
theorem longest_congr {mode : LexMode} {g : Glyph} {body after after' : Text}
    (notBlank : Guard.blank.admits g = false)
    (last : ∀ t e, longest mode (g :: body ++ after) = some (t, e) →
      e.bytes ≤ (Text.extent (g :: body)).bytes)
    (keeps : ∀ m, Leads mode.entry (g :: body) m → tokenAutomaton.Ends m after →
      tokenAutomaton.Ends m after') :
    longest mode (g :: body ++ after') = longest mode (g :: body ++ after) ∧
      ∀ m, Leads mode.entry (g :: body) m → tokenAutomaton.Ends m after := by
  have ends : tokenAutomaton.EndsBehind mode.entry (g :: body) after := by
    intro move moved
    obtain ⟨mem, admits⟩ := move?_mem moved
    rcases (entry_moves mode).2 move mem with ⟨_, _, same⟩ | ⟨_, inner⟩
    · rw [same, notBlank] at admits
      cases admits
    · rw [longest, tokenRun] at last
      simp only [List.cons_append, Automaton.runFrom, moved, Extent.zero_add,
        Text.extent_cons] at last
      exact endsBehind_of_reach inner last
  have known := endsBehind_iff.mp ends
  refine ⟨Automaton.reach_congr (endsBehind_iff.mpr fun m leads => ?_) ends rfl, known⟩
  exact keeps m leads (known m leads)

/-- A run through a state where a token can end accepts something. -/
theorem accepted_ne_none {n m : Nat} {body : Text} {u : Token} (leads : Leads n body m)
    (accepts : (tokenAutomaton.state m).accepts = some u) (found : Option (Token × Cursor))
    (start pos : Extent) (after : Text) :
    (tokenAutomaton.runFrom n found start pos (body ++ after)).accepted ≠ none := by
  induction leads generalizing found start pos with
  | @done n =>
    have known : tokenAutomaton.accepted n ⟨pos, after⟩ found = some (u, ⟨pos, after⟩) := by
      rw [Automaton.accepted, accepts]
    obtain ⟨t, c, accepted, -⟩ := Automaton.exists_accepted known (Nat.le_refl _)
    rw [List.nil_append, accepted]
    exact Option.some_ne_none _
  | step moved _ ih =>
    simp only [List.cons_append, Automaton.runFrom, moved]
    exact ih accepts _ _ _

theorem ends_identifier_iff {after : Text} : tokenAutomaton.Ends nameState after ↔
    ∀ h ∈ after.head?, Guard.identifierContinue.admits h = false := by
  cases after with
  | nil => simp [Automaton.Ends, show (tokenAutomaton.state nameState).atEnd = none from rfl]
  | cons h after =>
    simp only [Automaton.Ends, move?_nameState, List.head?_cons, Option.mem_def, Option.some.injEq,
      forall_eq']
    cases Guard.identifierContinue.admits h with
    | true =>
      refine ⟨fun ends => ?_, nofun⟩
      cases (ends _ rfl).1
    | false => simp

/-- Keywords are in characters that go on names. -/
theorem endsBehind_keyword {n : Nat} (ne : n ≠ 0) {body after : Text}
    (stops : ∀ h ∈ after.head?, Guard.identifierContinue.admits h = false) :
    keywordAutomaton.EndsBehind n body after := by
  induction body generalizing n with
  | nil =>
    cases after with
    | nil => exact atEnd_keyword n
    | cons h after =>
      intro move moved
      have word := moves_hold (fun _ m => (keywordWord m.target).all fun c =>
        Lexical.identifierContinue.contains c.toNat) (by decide) moved
      obtain ⟨c, rfl, -, extended⟩ := exists_char_of_keywordMove moved (.inl ne)
      rw [extended] at word
      have goesOn : Guard.identifierContinue.admits (.char c.toNat) = true :=
        List.all_eq_true.mp word c (List.mem_append_right _ List.mem_cons_self)
      exact absurd (goesOn.symm.trans (stops _ rfl)) (by decide)
  | cons g body ih =>
    intro move moved
    obtain ⟨-, -, off, -⟩ := exists_char_of_keywordMove moved (.inl ne)
    exact ih off

theorem keywordAhead_congr {g : Glyph} (body : Text) {after after' : Text}
    (notBlank : Guard.blank.admits g = false)
    (stops : ∀ h ∈ after.head?, Guard.identifierContinue.admits h = false)
    (stops' : ∀ h ∈ after'.head?, Guard.identifierContinue.admits h = false) :
    keywordAhead (g :: body ++ after') = keywordAhead (g :: body ++ after) := by
  have ends {after : Text} (stops : ∀ h ∈ after.head?, Guard.identifierContinue.admits h = false) :
      keywordAutomaton.EndsBehind 0 (g :: body) after := by
    intro move moved
    obtain ⟨-, -, off, -⟩ := exists_char_of_keywordMove moved (.inr notBlank)
    exact endsBehind_keyword off stops
  exact Automaton.reach_congr (ends stops') (ends stops) rfl

section

variable {mode : LexMode} {t u : Token} {g : Glyph} {body after after' : Text} {m : Nat}

/-- What a lex mode reads of a text is a spelling of its token. -/
theorem isSpelling_of_longest (notBlank : Guard.blank.admits g = false)
    (accepts : longest mode (g :: body ++ after) = some (u, Text.extent (g :: body))) :
    IsSpelling mode u (g :: body) := by
  have begins : ∀ h ∈ (g :: body ++ after).head?, Guard.blank.admits h = false :=
    fun h mem => Option.some.inj mem ▸ notBlank
  rcases exists_of_longest begins accepts with
    ⟨-, isEmpty, -⟩ | ⟨body', rest, split, extent, spelled, -⟩
  · cases isEmpty
  · obtain ⟨rfl, -⟩ := Text.prefix_unique split (congrArg Extent.bytes extent)
    exact spelled

/-- Where the text of a token leads to, the token may end, if no other token is accepted there. -/
theorem IsSpelling.mayEnd {mode' : LexMode} (spelled : IsSpelling mode' u (g :: body))
    (notBlank : Guard.blank.admits g = false) (leads : Leads mode.entry (g :: body) m)
    (accepts : ∀ v, (tokenAutomaton.state m).accepts = some v → v = t ∨ v = .identifier) :
    MayEnd t (g :: body) m := by
  obtain ⟨inner, read⟩ := isReadIn_of_leads leads notBlank
  exact ⟨inner, read, spelled.ne_commentState (fun h mem => Option.some.inj mem ▸ notBlank) read,
    accepts⟩

/-- A lex mode that reads a text ends in a state where the token may end. -/
theorem mayEnd_of_longest (notBlank : Guard.blank.admits g = false)
    (accepts : longest mode (g :: body ++ after) = some (u, Text.extent (g :: body)))
    (known : u = t ∨ u = .identifier) (leads : Leads mode.entry (g :: body) m) :
    MayEnd t (g :: body) m := by
  have spelled := isSpelling_of_longest notBlank accepts
  refine spelled.mayEnd notBlank leads fun v ends => ?_
  obtain ⟨moved, -, leads', ends'⟩ := spelled
  obtain rfl := (Leads.step moved leads').unique leads
  obtain rfl := Option.some.inj (ends'.symm.trans ends)
  exact known

/-- A lex mode that reads a text reads it in the same way where something else comes behind it, if it
does not go on there either; and a name ends in both places. -/
theorem longest_keeps (notBlank : Guard.blank.admits g = false)
    (accepts : longest mode (g :: body ++ after) = some (u, Text.extent (g :: body)))
    (known : u = t ∨ u = .identifier)
    (keeps : ∀ m, MayEnd t (g :: body) m → tokenAutomaton.Ends m after →
      tokenAutomaton.Ends m after') :
    longest mode (g :: body ++ after') = some (u, Text.extent (g :: body)) ∧
      (u = .identifier → tokenAutomaton.Ends nameState after ∧
        tokenAutomaton.Ends nameState after') := by
  have mayEnd {m : Nat} (leads : Leads mode.entry (g :: body) m) : MayEnd t (g :: body) m :=
    mayEnd_of_longest notBlank accepts known leads
  have last : ∀ v e, longest mode (g :: body ++ after) = some (v, e) →
      e.bytes ≤ (Text.extent (g :: body)).bytes := by
    intro v e found
    obtain ⟨-, rfl⟩ := Prod.mk.inj (Option.some.inj (accepts.symm.trans found))
    exact Nat.le_refl _
  obtain ⟨congr, ends⟩ := longest_congr notBlank last fun m leads => keeps m (mayEnd leads)
  refine ⟨congr.trans accepts, ?_⟩
  rintro rfl
  obtain ⟨moved, inner, leads, isEnd⟩ := isSpelling_of_longest notBlank accepts
  have leads := Leads.step moved leads
  obtain rfl := eq_endOfClass isEnd rfl
  exact ⟨ends _ leads, keeps _ (mayEnd leads) (ends _ leads)⟩

/-- A lex mode that accepts nothing of the text of a token accepts nothing either where something else
comes behind it. -/
theorem longest_keeps_none {mode' : LexMode} (spelled : IsSpelling mode' u (g :: body))
    (notBlank : Guard.blank.admits g = false) (fails : longest mode (g :: body ++ after) = none)
    (keeps : ∀ m, MayEnd t (g :: body) m → tokenAutomaton.Ends m after →
      tokenAutomaton.Ends m after') :
    longest mode (g :: body ++ after') = none := by
  have mayEnd {m : Nat} (leads : Leads mode.entry (g :: body) m) : MayEnd t (g :: body) m :=
    spelled.mayEnd notBlank leads fun v ends => absurd (Run.reach_eq_none.mp fails)
      (accepted_ne_none leads ends none .zero .zero after)
  obtain ⟨congr, -⟩ := longest_congr notBlank (fun v e found => by rw [fails] at found; cases found)
    fun m leads => keeps m (mayEnd leads)
  exact congr.trans fails

end

/-- A text is read in the same way where something else comes behind it, if it does not go on there
either. -/
theorem reading_congr {s : State} {t : Token} {k : Bool} {g : Glyph} {body after after' : Text}
    (notBlank : Guard.blank.admits g = false)
    (h : reading s (g :: body ++ after) = some (t, k, Text.extent (g :: body)))
    (keeps : ∀ m, MayEnd t (g :: body) m → tokenAutomaton.Ends m after →
      tokenAutomaton.Ends m after') :
    reading s (g :: body ++ after') = some (t, k, Text.extent (g :: body)) := by
  obtain ⟨⟨u, size⟩, first, same⟩ := Option.map_eq_some_iff.mp h
  obtain ⟨rfl, known⟩ : size = Text.extent (g :: body) ∧ (u = t ∨ u = .identifier) := by
    dsimp only at same
    split at same
    · rename_i isName
      exact ⟨(Prod.mk.inj (Prod.mk.inj same).2).2, .inr isName⟩
    · exact ⟨(Prod.mk.inj (Prod.mk.inj same).2).2, .inl (Prod.mk.inj same).1⟩
  obtain ⟨found, names⟩ : (longest s.lexMode (g :: body ++ after')).or
        (longest .anything (g :: body ++ after')) = some (u, Text.extent (g :: body)) ∧
      (u = .identifier → tokenAutomaton.Ends nameState after ∧
        tokenAutomaton.Ends nameState after') := by
    cases asked : longest s.lexMode (g :: body ++ after) with
    | some found =>
      rw [asked, Option.some_or] at first
      obtain rfl := Option.some.inj first
      obtain ⟨congr, names⟩ := longest_keeps notBlank asked known keeps
      exact ⟨by rw [congr, Option.some_or], names⟩
    | none =>
      rw [asked, Option.none_or] at first
      obtain ⟨congr, names⟩ := longest_keeps notBlank first known keeps
      have spelled := isSpelling_of_longest notBlank first
      rw [longest_keeps_none spelled notBlank asked keeps, Option.none_or]
      exact ⟨congr, names⟩
  rw [reading, found, Option.map_some, ← same]
  dsimp only
  split
  · rename_i isName
    obtain ⟨ends, ends'⟩ := names isName
    have ahead := keywordAhead_congr body notBlank (ends_identifier_iff.mp ends)
      (ends_identifier_iff.mp ends')
    rw [keywordOf?, keywordOf?, ahead]
  · rfl

end SusSyntax.Lexical
