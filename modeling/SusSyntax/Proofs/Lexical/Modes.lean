import SusSyntax.Proofs.Grammar.Entries
import SusSyntax.Proofs.Lexical.TokenStart

/-!
Reading on behind an index.

A name with an index may be a type or an expression, and the next lexeme is read as for an
expression. Where the type has no use for it, the lexeme is read once more for the type, and that in
another lex mode. Either this changes a keyword into a name, or it gives nothing that could stand
behind a type (`scan_typeIndexed`): names, brackets and comments are the same in both modes.
-/

namespace SusSyntax.Lexical

open Grammar

/-! ### Names -/

/-- The state of the token automaton inside a name. -/
def nameState : Nat := 40

/-- Whether a guard admits no character that begins a name. -/
def Guard.shutsNamesOut : Guard → Bool
  | .char c => !Lexical.identifierStart.contains c.toNat
  | .blank | .digit => true
  | _ => false

theorem not_contains_of_lt {code : Nat} (low : code < 65) :
    Lexical.identifierStart.contains code = false :=
  if_pos low

theorem Guard.not_admits_of_shutsNamesOut {guard : Guard} {code : Nat}
    (shuts : guard.shutsNamesOut = true) (starts : Lexical.identifierStart.contains code = true) :
    guard.admits (.char code) = false := by
  have high : 65 ≤ code := by
    rw [← Nat.not_lt]
    intro low
    rw [not_contains_of_lt low] at starts
    cases starts
  cases guard with
  | char c =>
    rw [← Bool.not_eq_true]
    intro admits
    obtain rfl := Glyph.char.inj (eq_of_beq admits)
    rw [shutsNamesOut, starts] at shuts
    cases shuts
  | blank =>
    simp [admits, Glyph.isChar]
    omega
  | digit =>
    simp [admits]
    omega
  | _ => cases shuts

/-- In all lex modes a character that begins a name leads into it. -/
theorem move?_identifierStart (mode : LexMode) {code : Nat}
    (starts : Lexical.identifierStart.contains code = true) :
    (tokenAutomaton.state mode.entry).move? (.char code) =
      some (.via .identifierStart nameState) := by
  have moves : (tokenAutomaton.state mode.entry).moves =
      (tokenAutomaton.state mode.entry).moves.dropLast ++ [.via .identifierStart nameState] := by
    cases mode <;> rfl
  have shut : (tokenAutomaton.state mode.entry).moves.dropLast.all (·.guard.shutsNamesOut) =
      true := by
    cases mode <;> decide
  have others : (tokenAutomaton.state mode.entry).moves.dropLast.find?
      (·.guard.admits (.char code)) = none := by
    refine List.find?_eq_none.mpr fun m mem => ?_
    rw [Guard.not_admits_of_shutsNamesOut (List.all_eq_true.mp shut m mem) starts]
    exact Bool.false_ne_true
  have last : (Guard.identifierStart).admits (.char code) = true := starts
  rw [LexState.move?, moves, List.find?_append, others]
  simp [Move.via, last]

/-- A name is only gone on with by what may stand in it. -/
theorem move?_nameState (g : Glyph) : (tokenAutomaton.state nameState).move? g =
    if Guard.identifierContinue.admits g then some (.via .identifierContinue nameState)
    else none := by
  cases admits : Guard.identifierContinue.admits g with
  | true => exact List.find?_cons_of_pos admits
  | false => exact (List.find?_cons_of_neg (by simp [Move.via, admits])).trans List.find?_nil

/-- Inside a token there is no way into a name. -/
theorem Leads.eq_nameState {n m : Nat} {body : Text} (h : Leads n body m)
    (isName : m = nameState) (inner : isInner n = true) : n = nameState := by
  induction h with
  | done => exact isName
  | @step n m g body move moved _ ih =>
    have into := ih isName (inner_moves inner (move?_mem moved).1).2
    have holds := moves_hold (fun n m => m.target != nameState || !isInner n || n == nameState)
      (by decide) moved
    simp only [into, inner, bne_self_eq_false, Bool.not_true, Bool.false_or] at holds
    exact eq_of_beq holds

/-! ### The tokens behind an index -/

/-- Where the first character leads to the same place, two lex modes read on in the same way. -/
theorem tokenRun_eq_of_move? {mode mode' : LexMode} {pos : Extent} {g : Glyph} {rest : Text}
    {m : Move} (moved : (tokenAutomaton.state mode.entry).move? g = some m)
    (moved' : (tokenAutomaton.state mode'.entry).move? g = some m) :
    tokenRun mode ⟨pos, g :: rest⟩ = tokenRun mode' ⟨pos, g :: rest⟩ := by
  have nothing (mode : LexMode) :
      tokenAutomaton.accepted mode.entry ⟨pos, g :: rest⟩ none = none := by
    rw [Automaton.accepted, (entry_moves mode).1]
  rw [tokenRun, tokenRun, Automaton.runFrom, Automaton.runFrom, nothing, nothing, moved, moved']

/-- The tokens that a type goes on with. -/
def followsType (t : Token) : Bool :=
  t == .identifier || t == .lbracket || t.isComment

/-- Where a state of the token automaton lies in one of the tokens a type goes on with. -/
def isSaneEnd (n : Nat) (t : Token) : Bool :=
  (t != .identifier || n == nameState) && (!t.isComment || isBehindSlash n)

/-- What is so for the moves that begin a token: only certain characters begin names and comments.
-/
def isSaneStart (n : Nat) (m : Move) : Bool :=
  isInner n ||
    (m.target != nameState || match m.guard with | .identifierStart => true | _ => false) &&
      (!isBehindSlash m.target || match m.guard with | .char c => c == '/' | _ => false)

theorem isInner_entry (mode : LexMode) : isInner mode.entry = false := by
  cases mode <;> rfl

/-- Before a name all lex modes agree. -/
theorem IsSpelling.move?_identifier {mode : LexMode} {g : Glyph} {body : Text}
    (h : IsSpelling mode .identifier (g :: body)) (mode' : LexMode) :
    (tokenAutomaton.state mode'.entry).move? g = (tokenAutomaton.state mode.entry).move? g := by
  obtain ⟨moved, inner, leads, ends⟩ := h
  rename_i move m
  have admits := (move?_mem moved).2
  have start := moves_hold isSaneStart (by decide) moved
  have stop := accepts_hold isSaneEnd (by decide) ends
  simp only [isSaneStart, isInner_entry, Bool.false_or, Bool.and_eq_true] at start
  simp only [isSaneEnd, Bool.and_eq_true] at stop
  obtain ⟨guard, skips, target⟩ := move
  obtain rfl := leads.eq_nameState (by simpa using stop.1) inner
  cases guard with
  | identifierStart =>
    cases g with
    | char code => rw [move?_identifierStart _ admits, move?_identifierStart _ admits]
    | malformed => cases admits
  | _ => cases start.1

/-- Before the tokens that a type goes on with, the lex modes that read operators agree. -/
theorem IsSpelling.move?_operator {t : Token} {g : Glyph} {body : Text}
    (h : IsSpelling .anything t (g :: body)) (follows : followsType t = true) :
    (tokenAutomaton.state LexMode.operator.entry).move? g =
      (tokenAutomaton.state LexMode.anything.entry).move? g := by
  have spelled := h
  obtain ⟨moved, inner, leads, ends⟩ := h
  rename_i move m
  have admits := (move?_mem moved).2
  have start := moves_hold isSaneStart (by decide) moved
  have stop := accepts_hold isSaneEnd (by decide) ends
  simp only [isSaneStart, isInner_entry, Bool.false_or, Bool.and_eq_true] at start
  simp only [isSaneEnd, Bool.and_eq_true] at stop
  simp only [followsType, Bool.or_eq_true, beq_iff_eq] at follows
  obtain ⟨guard, skips, target⟩ := move
  rcases follows with (rfl | rfl) | comment
  · exact spelled.move?_identifier _
  · obtain ⟨rfl, _⟩ := List.cons.inj (spelled.eq_singleton (c := '[') (by decide))
    rfl
  · have behind : isBehindSlash m = true := by simpa [comment] using stop.2
    have into : isBehindSlash target = true := by
      rw [← Bool.not_eq_false]
      intro free
      rw [(leads.slash_not_mem inner free).2] at behind
      cases behind
    cases guard with
    | char c =>
      obtain rfl : c = '/' := by simpa [into] using start.2
      obtain rfl := eq_of_beq admits
      rfl
    | _ => simp [into] at start

/-- Where a name is read, it is read in every lex mode. -/
theorem tokenRun_identifier {mode : LexMode} {d e : Cursor}
    (notBlank : ∀ g ∈ d.rest.head?, Guard.blank.admits g = false)
    (h : (tokenRun mode d).accepted = some (.identifier, e)) (mode' : LexMode) :
    tokenRun mode' d = tokenRun mode d := by
  rcases tokenRun_accepted notBlank h with ⟨isEnd, _, _⟩ | ⟨body, ahead, spelled⟩
  · cases isEnd
  · have spelled' := spelled
    obtain ⟨moved, _, _, _⟩ := spelled
    obtain ⟨pos, rest⟩ := d
    obtain ⟨rfl, _⟩ := ahead
    exact tokenRun_eq_of_move? ((spelled'.move?_identifier mode').trans moved) moved

/-! ### Reading once more -/

/-- What a lexeme `x` that was read behind an index becomes as `y`, where it is read once more for a
type: a name, or what it was, or something that no type goes on with. -/
inductive Rereads (x y : Lexeme) : Prop where
  | name : x.leaf = .read .identifier ∨ x.leaf = .read .inKw ∧ x.isKeyword = true →
      y.leaf = .read .identifier → y.toTree = x.asIdentifier.toTree → Rereads x y
  | same : y.leaf = x.leaf → x.isKeyword = false → y.isKeyword = false → Rereads x y
  | other : (∀ t, y.leaf = .read t → followsType t = false) → x.isKeyword = false →
      y.isKeyword = false → Rereads x y

/-- What an identifier is read as for a keyword is known in the state. -/
theorem keyword?_spec {s : State} {run : Run} {stop : Extent} {k : Token}
    (h : keyword? s run stop = some k) :
    (∃ c, run.accepted = some (k, c)) ∧ s.knows (.token k) = true := by
  rw [keyword?] at h
  split at h
  · rename_i k' c accepted
    split at h
    · rename_i known
      obtain rfl := Option.some.inj h
      exact ⟨⟨c, accepted⟩, (Bool.and_eq_true_iff.mp known).2⟩
    · cases h
  · cases h

/-- An identifier stays one, but for the only keyword that may stand behind an index. -/
theorem rereads_identifier (text : Text) (c : Cursor) (start stop : Extent) :
    Rereads (readable text State.indexRead c start .identifier stop)
      (readable text State.typeIndexed c start .identifier stop) := by
  generalize spelled : keywordAutomaton.run 0 (.ofPosition text start) = run
  have isKeyword {k d} (accepted : run.accepted = some (k, d)) : k ∈ Token.keywords :=
    mem_keywords_of_accepted (spelled ▸ accepted)
  have isName : keyword? State.typeIndexed run stop = none := by
    cases found : keyword? State.typeIndexed run stop with
    | none => rfl
    | some k =>
      obtain ⟨⟨d, accepted⟩, knows⟩ := keyword?_spec found
      rw [(State.knows_keyword (isKeyword accepted)).1] at knows
      cases knows
  simp only [readable, if_true, spelled, isName, Option.getD_none]
  refine .name ?_ rfl rfl
  cases found : keyword? State.indexRead run stop with
  | none => exact .inl rfl
  | some k =>
    obtain ⟨⟨d, accepted⟩, knows⟩ := keyword?_spec found
    obtain rfl := (State.knows_keyword (isKeyword accepted)).2 knows
    exact .inr ⟨rfl, by rw [accepted]; rfl⟩

theorem rereads_readable {text : Text} {c : Cursor} {start stop : Extent} {t : Token} :
    Rereads (readable text State.indexRead c start t stop)
      (readable text State.typeIndexed c start t stop) := by
  by_cases isName : t = .identifier
  · subst isName
    exact rereads_identifier text c start stop
  · rw [readable, if_neg isName, readable, if_neg isName]
    exact .same rfl rfl rfl

/-- An identifier that begins like a keyword is read where every lex mode reads a name. -/
theorem accepted_of_isKeyword {text : Text} {s : State} {p : Extent} {d : Cursor}
    (begins : (Cursor.ofPosition text p).tokenStart = d)
    (h : (scan text s p).isKeyword = true) (mode' : LexMode) :
    ∃ e, (tokenRun mode' d).accepted = some (.identifier, e) ∧
      scan text s p = readable text s (.ofPosition text p) d.pos .identifier e.pos := by
  obtain ⟨_, _, _, notBlank⟩ := Cursor.tokenStart_spec (.ofPosition text p)
  rw [begins] at notBlank
  rcases scan_cases text s p begins with ⟨mode, t, e, _, accepted, same⟩ | ⟨_, _, same⟩
  · rw [same] at h
    obtain rfl := isKeyword_readable h
    exact ⟨e, by rw [tokenRun_identifier notBlank accepted mode', accepted], same⟩
  · rw [same] at h
    cases h

/-- What is read behind an index, read once more for a type. -/
theorem scan_typeIndexed (text : Text) (p : Extent) :
    Rereads (scan text State.indexRead p) (scan text State.typeIndexed p) := by
  obtain ⟨_, _, _, notBlank⟩ := Cursor.tokenStart_spec (.ofPosition text p)
  generalize begins : (Cursor.ofPosition text p).tokenStart = d at notBlank
  have operator : State.indexRead.lexMode = .operator := by decide +kernel
  have anything : State.typeIndexed.lexMode = .anything := by decide +kernel
  rcases scan_cases text State.typeIndexed p begins with
    ⟨mode, t, e, same, accepted, second⟩ | ⟨_, none, second⟩
  · obtain rfl : mode = .anything := by
      rcases same with same | ⟨same, _⟩
      · rw [same, anything]
      · exact same
    cases follows : followsType t with
    | false =>
      have ne : t ≠ .identifier := by
        rintro rfl
        cases follows
      rw [second, readable, if_neg ne]
      refine .other (fun u leaf => ?_) (Bool.eq_false_iff.mpr fun keyword => ?_) rfl
      · obtain rfl := Leaf.read.inj leaf
        exact follows
      · obtain ⟨e', accepted', _⟩ := accepted_of_isKeyword begins keyword .anything
        rw [accepted] at accepted'
        exact ne (Prod.mk.inj (Option.some.inj accepted')).1
    | true =>
      have agree : tokenRun .operator d = tokenRun .anything d := by
        rcases tokenRun_accepted notBlank accepted with ⟨rfl, _, _⟩ | ⟨body, ahead, spelled⟩
        · cases follows
        · have spelled' := spelled
          obtain ⟨moved, _, _, _⟩ := spelled
          obtain ⟨pos, rest⟩ := d
          obtain ⟨rfl, _⟩ := ahead
          exact tokenRun_eq_of_move? ((spelled'.move?_operator follows).trans moved) moved
      rcases scan_cases text State.indexRead p begins with
        ⟨mode, u, e', same, accepted', first⟩ | ⟨none, _, _⟩
      · have isRun : tokenRun mode d = tokenRun .anything d := by
          rcases same with same | ⟨same, _⟩
          · rw [same, operator, agree]
          · rw [same]
        rw [isRun, accepted] at accepted'
        obtain ⟨rfl, rfl⟩ := Prod.mk.inj (Option.some.inj accepted')
        rw [first, second]
        exact rereads_readable
      · rw [operator, agree, accepted] at none
        cases none
  · rw [second]
    refine .other (fun u leaf => ?_) (Bool.eq_false_iff.mpr fun keyword => ?_) rfl
    · cases leaf
    · obtain ⟨e', accepted', _⟩ := accepted_of_isKeyword begins keyword .anything
      rw [none] at accepted'
      cases accepted'

/-! ### Keywords -/

/-- A lexeme that begins like a keyword is a name, or a keyword that its state knows. -/
theorem leaf_of_isKeyword {text : Text} {s : State} {p : Extent}
    (h : (scan text s p).isKeyword = true) :
    (scan text s p).leaf = .read .identifier ∨
      ∃ k ∈ Token.keywords, (scan text s p).leaf = .read k ∧ s.knows (.token k) = true := by
  obtain ⟨e, _, same⟩ := accepted_of_isKeyword rfl h .anything
  rw [same, readable, if_pos rfl]
  dsimp only
  cases found : keyword? s (keywordAutomaton.run 0
      (.ofPosition text (Cursor.ofPosition text p).tokenStart.pos)) e.pos with
  | none => exact .inl rfl
  | some k =>
    obtain ⟨⟨c, accepted⟩, knows⟩ := keyword?_spec found
    exact .inr ⟨k, mem_keywords_of_accepted accepted, rfl, knows⟩

/-! ### How far a lexeme reaches -/

/-- Every token but the end takes up text. -/
theorem size_pos_of_scan {text : Text} {s : State} {p : Extent} {t : Token}
    (place : text.IsPlace p) (leaf : (scan text s p).leaf = .read t) (ne : t ≠ .eof) :
    0 < (scan text s p).size.bytes := by
  obtain ⟨u, spells, read, _⟩ := spells_scan place leaf
  have notEnd : u ≠ .eof := by
    rintro rfl
    rcases read with same | ⟨isName, _⟩
    · exact ne same
    · cases isName
  cases spells with
  | @intro before body after mode _ start stop _ spelled =>
    have covers : body.extent.bytes ≠ 0 := by
      intro none
      rw [Text.eq_nil_of_bytes_eq_zero none] at spelled
      rcases spelled with isEnd | spelled
      · exact notEnd isEnd
      · cases spelled
    have start := congrArg Extent.bytes start
    have stop := congrArg Extent.bytes stop
    rw [Text.extent_append] at stop
    simp only [Lexeme.extent, Extent.bytes_add] at start stop
    omega

end SusSyntax.Lexical
