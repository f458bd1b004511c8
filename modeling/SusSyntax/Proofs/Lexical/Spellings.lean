import SusSyntax.Proofs.Lexical.BlockComment

/-!
What the text of a token is.

Most states of the token automaton are entered over one sequence of characters only; the others are
inside a name, a number or a comment. So what has been read when the automaton is in a state is known
(`IsReadIn`), and a run ends only where no longer token could be read. The keyword automaton is a
tree, whose leaves are behind the spellings of the keywords. Together, the text of a token is its
name, or what its class says of it (`IsSpelling.fits`, `SpellsKeyword.fits`).
-/

namespace SusSyntax

/-- The text of some characters. -/
def Text.ofChars (cs : List Char) : Text :=
  cs.map fun c => .char c.toNat

theorem Text.ofChars_append (cs ds : List Char) : ofChars (cs ++ ds) = ofChars cs ++ ofChars ds :=
  List.map_append

namespace Lexical

open Grammar

/-! ### What the text of a token has to be -/

/-- Whether a number may go on with a glyph. -/
def isNumberPart (g : Glyph) : Bool :=
  Guard.digit.admits g || g.isChar '_'

/-- Whether a line comment may go on with a glyph. -/
def isInLine (g : Glyph) : Bool :=
  g != nul && !g.isChar '\n'

/-- All the glyphs of one kind that are ahead, with `after` behind them. -/
def IsStretch (inside : Glyph → Bool) (body after : Text) : Prop :=
  (∀ g ∈ body, inside g = true) ∧ ∀ g ∈ after.head?, inside g = false

/-- The texts of a token, where `after` is ahead behind it. Names, numbers and line comments go on as
long as they can, a block comment ends where it is first closed, and any other token is spelled as it
is called. -/
def Fits (t : Token) (body after : Text) : Prop :=
  match t with
  | .identifier => ∃ g rest, body = g :: rest ∧ Guard.identifierStart.admits g = true ∧
      IsStretch Guard.identifierContinue.admits rest after
  | .number => ∃ g rest, body = g :: rest ∧ Guard.digit.admits g = true ∧
      IsStretch isNumberPart rest after
  | .lineComment => ∃ rest, body = slash :: slash :: rest ∧ IsStretch isInLine rest after
  | .blockComment => ∃ rest, body = slash :: star :: (rest ++ [star, slash]) ∧
      ¬Closes (rest ++ [star])
  | t => body.bytes = t.name.toUTF8.data.toList

/-- Whether a token has one spelling only. -/
def isFixed (t : Token) : Bool :=
  !([.identifier, .number, .lineComment, .blockComment] : List Token).contains t

theorem fits_of_isFixed {t : Token} (fixed : isFixed t = true) (after : Text) :
    Fits t (.ofChars t.name.toList) after := by
  have checked : ∀ t ∈ Token.all,
      (Text.ofChars t.name.toList).bytes = t.name.toUTF8.data.toList := by
    decide
  have same := checked t (Token.mem_all t)
  cases t <;> first | exact same | cases fixed

/-! ### The words of an automaton -/

namespace Automaton

/-- Where a state is entered from by a character, the first place of several, and the character. -/
def entrance? (a : Automaton) (n : Nat) : Option (Nat × Char) :=
  (List.range a.states.size).findSome? fun p => (a.state p).moves.findSome? fun m =>
    match m.guard with
    | .char c => if m.target = n then some (p, c) else none
    | _ => none

/-- The characters on the way to a state, at most `fuel` of them. -/
def wordTo (a : Automaton) : Nat → Nat → List Char
  | 0, _ => []
  | fuel + 1, n =>
    match a.entrance? n with
    | some (p, c) => a.wordTo fuel p ++ [c]
    | none => []

end Automaton

/-- The characters on the way to a state of the token automaton that is entered over one word only. -/
def tokenWord (n : Nat) : List Char :=
  tokenAutomaton.wordTo 2 n

/-- The characters on the way to a state of the keyword automaton. -/
def keywordWord (n : Nat) : List Char :=
  keywordAutomaton.wordTo 12 n

/-- The states of the token automaton that are not in the midst of a name, a number or a comment, nor
behind a block comment. -/
def isStraight (n : Nat) : Bool :=
  !([5, 6, 40, 41, 44, 45] : List Nat).contains n

/-- What is so for every move from a state that is entered over one word only. -/
def isStraightMove (n : Nat) (m : Move) : Bool :=
  !isInner m.target || !isStraight n || match m.guard with
    | .char c => (isStraight m.target || m.target == 6 || m.target == 44) &&
        tokenWord m.target == tokenWord n ++ [c]
    | .digit => m.target == 41 && tokenWord n == []
    | .identifierStart => m.target == 40 && tokenWord n == []
    | _ => false

theorem isStraightMove_of_move? {n : Nat} {g : Glyph} {m : Move}
    (h : (tokenAutomaton.state n).move? g = some m) : isStraightMove n m = true :=
  moves_hold isStraightMove (by decide) h

/-- The name of the token that may end in a state is the word on the way to it. -/
theorem tokenWord_of_accepts {m : Nat} {t : Token} (straight : isStraight m = true)
    (inner : isInner m = true) (ends : (tokenAutomaton.state m).accepts = some t) :
    isFixed t = true ∧ tokenWord m = t.name.toList := by
  have holds := accepts_hold (fun m t => !isStraight m || !isInner m ||
    isFixed t && tokenWord m == t.name.toList) (by decide) ends
  simpa [straight, inner] using holds

/-! ### Inside a token -/

/-- What can have been read since the beginning of a token when the automaton is in a state. -/
inductive IsReadIn : Nat → Text → Prop where
  | word {n : Nat} : isStraight n = true → IsReadIn n (.ofChars (tokenWord n))
  | identifier {g : Glyph} {rest : Text} : Guard.identifierStart.admits g = true →
      (∀ h ∈ rest, Guard.identifierContinue.admits h = true) → IsReadIn 40 (g :: rest)
  | number {g : Glyph} {rest : Text} : Guard.digit.admits g = true →
      (∀ h ∈ rest, isNumberPart h = true) → IsReadIn 41 (g :: rest)
  | lineComment {rest : Text} :
      (∀ h ∈ rest, isInLine h = true) → IsReadIn 44 (slash :: slash :: rest)
  | inComment {rest : Text} {behindStar : Bool} : ¬Closes rest →
      (behindStar = true ↔ ∃ front, rest = front ++ [star]) →
      IsReadIn (commentState behindStar) (slash :: star :: rest)
  | blockComment {rest : Text} :
      ¬Closes (rest ++ [star]) → IsReadIn 45 (slash :: star :: (rest ++ [star, slash]))

/-- One more glyph closes a comment if it is the slash behind a star. -/
theorem closes_concat {text : Text} {g : Glyph} (h : Closes (text ++ [g])) :
    Closes text ∨ g = slash ∧ ∃ front, text = front ++ [star] := by
  obtain ⟨u, v, split⟩ := h
  obtain rfl | ⟨v, last, rfl⟩ := List.eq_nil_or_concat v
  · have split : (u ++ [star]) ++ [slash] = text ++ [g] := by simpa using split
    obtain ⟨rfl, last⟩ := List.append_inj' split rfl
    exact .inr ⟨(List.cons.inj last).1.symm, u, rfl⟩
  · have split : (u ++ [star, slash] ++ v) ++ [last] = text ++ [g] := by simpa using split
    obtain ⟨rfl, _⟩ := List.append_inj' split rfl
    exact .inl ⟨u, v, rfl⟩

theorem isInLine_eq (g : Glyph) : isInLine g = (Guard.anyBut ['\n']).admits g := by
  cases g with
  | malformed => rfl
  | char code =>
    rw [Bool.eq_iff_iff]
    simp only [isInLine, Guard.admits, Glyph.isChar, nul, List.all_cons, List.all_nil, Bool.and_true,
      Bool.and_eq_true, Bool.not_eq_true', beq_eq_false_iff_ne, bne_iff_ne, ne_eq, Glyph.char.injEq]
    rw [eq_comm (a := code) (b := '\n'.toNat)]

/-- A move over one character extends the word, or leads into a name, a number or a comment. -/
theorem IsReadIn.step_word {n : Nat} {g : Glyph} {move : Move} (straight : isStraight n = true)
    (moved : (tokenAutomaton.state n).move? g = some move) (inner : isInner move.target = true) :
    IsReadIn move.target (.ofChars (tokenWord n) ++ [g]) := by
  have admits := (move?_mem moved).2
  have known := isStraightMove_of_move? moved
  simp only [isStraightMove, inner, straight, Bool.not_true, Bool.false_or] at known
  obtain ⟨guard, skips, target⟩ := move
  cases guard with
  | char c =>
    obtain ⟨kind, word⟩ := Bool.and_eq_true_iff.mp known
    obtain rfl := eq_of_beq admits
    have read : Text.ofChars (tokenWord n) ++ [.char c.toNat] = .ofChars (tokenWord target) := by
      rw [eq_of_beq word, Text.ofChars_append]
      rfl
    rw [read]
    simp only [Bool.or_eq_true, beq_iff_eq] at kind
    rcases kind with (straight | rfl) | rfl
    · exact .word straight
    · have opened : IsReadIn (commentState false) [slash, star] :=
        .inComment not_closes_nil (by simp)
      exact opened
    · have opened : IsReadIn 44 [slash, slash] := .lineComment nofun
      exact opened
  | digit =>
    simp only [Bool.and_eq_true, beq_iff_eq] at known
    obtain ⟨rfl, word⟩ := known
    rw [word]
    exact .number admits nofun
  | identifierStart =>
    simp only [Bool.and_eq_true, beq_iff_eq] at known
    obtain ⟨rfl, word⟩ := known
    rw [word]
    exact .identifier admits nofun
  | _ => cases known

/-- A move inside a comment closes it, or remembers whether it was over a star. -/
theorem IsReadIn.step_inComment {behindStar : Bool} {g : Glyph} {rest : Text} {move : Move}
    (open' : ¬Closes rest) (front : behindStar = true ↔ ∃ front, rest = front ++ [star])
    (moved : (tokenAutomaton.state (commentState behindStar)).move? g = some move) :
    IsReadIn move.target (slash :: star :: (rest ++ [g])) := by
  have ne : g ≠ nul := by
    rintro rfl
    have sane := isSaneMove_of_move? moved
    simp [isSaneMove, (move?_mem moved).2] at sane
  have target := move?_commentState ne behindStar
  rw [moved, Option.map_some, Option.some.injEq] at target
  rw [target]
  by_cases closed : behindStar = true ∧ g = slash
  · obtain ⟨isBehind, rfl⟩ := closed
    obtain ⟨front, rfl⟩ := front.mp isBehind
    rw [if_pos ⟨isBehind, rfl⟩, List.append_assoc]
    exact .blockComment open'
  · rw [if_neg closed]
    refine .inComment (fun closes => ?_) ?_
    · rcases closes_concat closes with closes | ⟨isSlash, isBehind⟩
      · exact open' closes
      · exact closed ⟨front.mpr isBehind, isSlash⟩
    · rw [beq_iff_eq]
      constructor
      · rintro rfl
        exact ⟨rest, rfl⟩
      · rintro ⟨front, same⟩
        exact (List.cons.inj (List.append_inj' same rfl).2).1

theorem IsReadIn.step {n : Nat} {g : Glyph} {text : Text} {move : Move} (h : IsReadIn n text)
    (moved : (tokenAutomaton.state n).move? g = some move) (inner : isInner move.target = true) :
    IsReadIn move.target (text ++ [g]) := by
  obtain ⟨mem, admits⟩ := move?_mem moved
  have further {rest : Text} {p : Glyph → Bool} (others : ∀ h ∈ rest, p h = true) (here : p g = true) :
      ∀ h ∈ rest ++ [g], p h = true :=
    List.forall_mem_append.mpr ⟨others, List.forall_mem_singleton.mpr here⟩
  cases h with
  | word straight => exact .step_word straight moved inner
  | identifier first others =>
    obtain rfl := List.mem_singleton.mp mem
    exact .identifier first (further others admits)
  | number first others =>
    obtain ⟨target, part⟩ : move.target = 41 ∧ isNumberPart g = true := by
      rcases List.mem_cons.mp mem with rfl | mem
      · exact ⟨rfl, Bool.or_eq_true_iff.mpr (.inl admits)⟩
      · obtain rfl := List.mem_singleton.mp mem
        exact ⟨rfl, Bool.or_eq_true_iff.mpr (.inr admits)⟩
    rw [target]
    exact .number first (further others part)
  | lineComment others =>
    obtain rfl := List.mem_singleton.mp mem
    exact .lineComment (further others ((isInLine_eq g).trans admits))
  | inComment open' front => exact .step_inComment open' front moved
  | blockComment => cases mem

theorem Leads.isInner {n m : Nat} {body : Text} (leads : Leads n body m)
    (inner : isInner n = true) : isInner m = true := by
  induction leads with
  | done => exact inner
  | step moved _ ih => exact ih (inner_moves inner (move?_mem moved).1).2

theorem IsReadIn.leads {n m : Nat} {text body : Text} (h : IsReadIn n text) (leads : Leads n body m)
    (inner : isInner n = true) : IsReadIn m (text ++ body) := by
  induction leads generalizing text with
  | done => rwa [List.append_nil]
  | @step n m g body move moved _ ih =>
    have inner := (inner_moves inner (move?_mem moved).1).2
    rw [List.append_cons]
    exact ih (h.step moved inner) inner

/-! ### Where a token ends -/

/-- No longer token could be read than up to the state `m`, with `after` ahead. -/
def Stops (m : Nat) (after : Text) : Prop :=
  ∀ g ∈ after.head?, ∀ move, (tokenAutomaton.state m).move? g = some move →
    (tokenAutomaton.state move.target).accepts = none

/-- What a run inside a token accepts was accepted before, or ends in a state where it stops. -/
theorem stops_of_accepted {n : Nat} (inner : isInner n = true) {found : Option (Token × Cursor)}
    {start pos : Extent} {rest : Text} {t : Token} {c : Cursor}
    (h : (tokenAutomaton.runFrom n found start pos rest).accepted = some (t, c)) :
    found = some (t, c) ∨ ∃ m, (tokenAutomaton.state m).accepts = some t ∧ Stops m c.rest :=
  (accepted_induction _ (P := fun _ _ t c => ∃ m, (tokenAutomaton.state m).accepts = some t ∧
    Stops m c.rest) inner_stays (fun n _ _ _ ends stops => ⟨n, ends, stops⟩)
    (fun _ _ _ _ _ _ _ _ _ stops => stops) inner h).imp_left And.left

/-- The state where a token ends that has more than one spelling. -/
def endOfClass : Token → Nat
  | .identifier => 40
  | .number => 41
  | .lineComment => 44
  | _ => 45

theorem eq_endOfClass {m : Nat} {t : Token} (h : (tokenAutomaton.state m).accepts = some t)
    (free : isFixed t = false) : m = endOfClass t := by
  have holds := accepts_hold (fun m t => isFixed t || m == endOfClass t) (by decide) h
  simpa [free] using holds

/-- A state that is left for itself only stops before what it is not left by. -/
theorem isStretch_of_stops {m : Nat} {t : Token} {inside : Glyph → Bool} {body after : Text}
    (all : ∀ g ∈ body, inside g = true) (stops : Stops m after)
    (loops : ∀ g, inside g = true → ∃ move, (tokenAutomaton.state m).move? g = some move ∧
      (tokenAutomaton.state move.target).accepts = some t) : IsStretch inside body after := by
  refine ⟨all, fun g ahead => ?_⟩
  rw [← Bool.not_eq_true]
  intro isInside
  obtain ⟨move, moved, accepts⟩ := loops g isInside
  rw [stops g ahead move moved] at accepts
  cases accepts

theorem IsReadIn.fits {m : Nat} {t : Token} {body after : Text} (h : IsReadIn m body)
    (inner : isInner m = true) (ends : (tokenAutomaton.state m).accepts = some t)
    (stops : isFixed t = false → Stops m after) : Fits t body after := by
  cases h with
  | word straight =>
    obtain ⟨fixed, word⟩ := tokenWord_of_accepts straight inner ends
    rw [word]
    exact fits_of_isFixed fixed after
  | identifier first others =>
    obtain rfl : Token.identifier = t := Option.some.inj ends
    exact ⟨_, _, rfl, first, isStretch_of_stops others (stops rfl) fun g isInside =>
      ⟨.via .identifierContinue 40, List.find?_cons_of_pos isInside, rfl⟩⟩
  | number first others =>
    obtain rfl : Token.number = t := Option.some.inj ends
    refine ⟨_, _, rfl, first, isStretch_of_stops (t := .number) others (stops rfl) fun g isInside => ?_⟩
    cases digit : Guard.digit.admits g with
    | true => exact ⟨.via .digit 41, List.find?_cons_of_pos digit, rfl⟩
    | false =>
      rw [isNumberPart, digit, Bool.false_or] at isInside
      exact ⟨.on '_' 41, (List.find?_cons_of_neg (by simp [Move.via, digit])).trans
        (List.find?_cons_of_pos isInside), rfl⟩
  | lineComment others =>
    obtain rfl : Token.lineComment = t := Option.some.inj ends
    exact ⟨_, rfl, isStretch_of_stops others (stops rfl) fun g isInside =>
      ⟨.via (.anyBut ['\n']) 44, List.find?_cons_of_pos ((isInLine_eq g).symm.trans isInside), rfl⟩⟩
  | @inComment rest behindStar => cases behindStar <;> cases ends
  | blockComment open' =>
    obtain rfl : Token.blockComment = t := Option.some.inj ends
    exact ⟨_, rfl, open'⟩

/-- What a run accepts as a token is a text of the token, and goes on as long as such a text can. -/
theorem IsSpelling.fits {mode : LexMode} {t : Token} {body after : Text} {pos stop : Extent}
    (h : IsSpelling mode t body)
    (accepted : (tokenRun mode ⟨pos, body ++ after⟩).accepted = some (t, ⟨stop, after⟩)) :
    Fits t body after := by
  obtain ⟨moved, inner, leads, ends⟩ := h
  rename_i g body move m
  have entry : isStraight mode.entry = true ∧ tokenWord mode.entry = [] := by
    cases mode <;> decide
  have read : IsReadIn m (g :: body) := by
    have first := (IsReadIn.word entry.1).step moved inner
    rw [entry.2] at first
    exact first.leads leads inner
  refine read.fits (leads.isInner inner) ends fun free => ?_
  have nothing : tokenAutomaton.accepted mode.entry ⟨pos, g :: (body ++ after)⟩ none = none := by
    rw [Automaton.accepted, (entry_moves mode).1]
  rw [tokenRun, List.cons_append, Automaton.runFrom, moved, nothing] at accepted
  rcases stops_of_accepted inner accepted with never | ⟨m', ends', stops⟩
  · cases never
  · rw [eq_endOfClass ends free, ← eq_endOfClass ends' free]
    exact stops

/-! ### Keywords -/

/-- What is so for every move of the keyword automaton: blanks are passed over at the entry, and any
other move extends the word. -/
def isKeywordMove (n : Nat) (m : Move) : Bool :=
  match m.guard with
  | .blank => n == 0
  | .char c => m.target != 0 && keywordWord m.target == keywordWord n ++ [c]
  | _ => false

theorem isKeywordMove_of_move? {n : Nat} {g : Glyph} {m : Move}
    (h : (keywordAutomaton.state n).move? g = some m) : isKeywordMove n m = true :=
  moves_hold isKeywordMove (by decide) h

theorem keywordWord_of_accepts {m : Nat} {k : Token}
    (ends : (keywordAutomaton.state m).accepts = some k) : keywordWord m = k.name.toList :=
  eq_of_beq (accepts_hold (fun m k => keywordWord m == k.name.toList) (by decide) ends)

/-- Off the entry a move is over the next character of a word. -/
theorem exists_char_of_keywordMove {n : Nat} {g : Glyph} {move : Move}
    (moved : (keywordAutomaton.state n).move? g = some move)
    (off : n ≠ 0 ∨ Guard.blank.admits g = false) :
    ∃ c : Char, g = .char c.toNat ∧ move.target ≠ 0 ∧
      keywordWord move.target = keywordWord n ++ [c] := by
  have known := isKeywordMove_of_move? moved
  have admits := (move?_mem moved).2
  obtain ⟨guard, skips, target⟩ := move
  cases guard with
  | char c =>
    simp only [isKeywordMove, Bool.and_eq_true, bne_iff_ne, beq_iff_eq] at known
    exact ⟨c, eq_of_beq admits, known⟩
  | blank =>
    rcases off with ne | notBlank
    · exact absurd (eq_of_beq known) ne
    · rw [show Guard.blank.admits g = true from admits] at notBlank
      cases notBlank
  | _ => cases known

/-- Off the entry, what a run accepts was accepted before, or is the rest of the name of a keyword. -/
theorem keyword_of_accepted {n : Nat} (ne : n ≠ 0) {found : Option (Token × Cursor)}
    {start pos : Extent} {rest : Text} {k : Token} {c : Cursor}
    (h : (keywordAutomaton.runFrom n found start pos rest).accepted = some (k, c)) :
    found = some (k, c) ∨ ∃ cs, Cursor.Reaches ⟨pos, rest⟩ (.ofChars cs) c ∧
      keywordWord n ++ cs = k.name.toList := by
  refine (accepted_induction (· ≠ 0) (P := fun n d k c => ∃ cs, d.Reaches (.ofChars cs) c ∧
    keywordWord n ++ cs = k.name.toList) ?stays ?here ?onward ne h).imp_left And.left
  case stays =>
    intro n ne
    refine ⟨atEnd_keyword n, fun g move moved => ?_⟩
    obtain ⟨_, _, off, _⟩ := exists_char_of_keywordMove moved (.inl ne)
    exact off
  case here =>
    intro n d k _ ends _
    exact ⟨[], .refl d, by rw [List.append_nil, keywordWord_of_accepts ends]⟩
  case onward =>
    rintro n g pos rest move k c ne moved ⟨cs, reaches, name⟩
    obtain ⟨ch, rfl, _, word⟩ := exists_char_of_keywordMove moved (.inl ne)
    refine ⟨ch :: cs, (Cursor.Reaches.glyph pos _ rest).trans reaches, ?_⟩
    rw [← name, word, List.append_assoc]
    rfl

/-- A name begins with neither a blank nor a byte order mark. -/
theorem ne_of_identifierStart {g : Glyph} (first : Guard.identifierStart.admits g = true) :
    Guard.blank.admits g = false ∧ g ≠ Glyph.byteOrderMark := by
  constructor
  · rw [← Bool.not_eq_true]
    intro blank
    simp only [Guard.admits, Glyph.isChar, Bool.or_eq_true, beq_iff_eq] at blank
    rcases blank with (rfl | rfl) | rfl <;> revert first <;> decide
  · rintro rfl
    revert first
    decide +kernel

/-- A name that is read as a keyword is spelled as the keyword is called. -/
theorem SpellsKeyword.eq_name {before body after : Text} {k : Token}
    (h : SpellsKeyword (before ++ (body ++ after)) before.extent (before ++ body).extent k)
    (isName : Fits .identifier body after) : body = .ofChars k.name.toList := by
  obtain ⟨e, accepted, ends⟩ := h
  obtain ⟨g, rest, rfl, first, _⟩ := isName
  obtain ⟨notBlank, notMark⟩ := ne_of_identifierStart first
  have start : Cursor.passByteOrderMark ⟨before.extent, g :: (rest ++ after)⟩ =
      ⟨before.extent, g :: (rest ++ after)⟩ := by
    simp [Cursor.passByteOrderMark, notMark]
  have nothing : keywordAutomaton.accepted 0 ⟨before.extent, g :: (rest ++ after)⟩ none = none := rfl
  rw [Cursor.ofPosition_extent, Automaton.run, List.cons_append, start] at accepted
  dsimp only at accepted
  rw [Automaton.runFrom, nothing] at accepted
  cases moved : (keywordAutomaton.state 0).move? g with
  | none =>
    rw [moved] at accepted
    cases accepted
  | some move =>
    rw [moved] at accepted
    obtain ⟨c, rfl, off, word⟩ := exists_char_of_keywordMove moved (.inr notBlank)
    rcases keyword_of_accepted off accepted with none | ⟨cs, ⟨split, reaches⟩, name⟩
    · cases none
    have chars : Text.ofChars k.name.toList = .char c.toNat :: Text.ofChars cs := by
      have atEntry : keywordWord 0 = [] := by decide
      rw [← name, word, atEntry]
      rfl
    have whole : Text.ofChars k.name.toList ++ e.rest = (.char c.toNat :: rest) ++ after := by
      rw [chars, List.cons_append, ← split]
      rfl
    have bytes : (Text.ofChars k.name.toList).extent.bytes =
        (Text.extent (.char c.toNat :: rest)).bytes := by
      rw [reaches] at ends
      rw [chars]
      simp at ends ⊢
      omega
    exact (Text.prefix_unique whole bytes).1.symm

theorem SpellsKeyword.fits {before body after : Text} {k : Token}
    (h : SpellsKeyword (before ++ (body ++ after)) before.extent (before ++ body).extent k)
    (isName : Fits .identifier body after) : Fits k body after := by
  have fixed : ∀ k ∈ Token.keywords, isFixed k = true := by decide
  rw [h.eq_name isName]
  exact fits_of_isFixed (fixed k h.mem_keywords) after

end Lexical

end SusSyntax
