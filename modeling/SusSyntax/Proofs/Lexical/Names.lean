import SusSyntax.Proofs.Lexical.Seams

/-!
Names that are written together.

What begins a name may also go on with one, so two names with nothing between them are a name again
(`SpellsName.append`). And a name is read as a whole in every lex mode, up to where no character
comes that goes on with it (`runMode_name`). So no name is cut in two (`runMode_names_append`).
-/

namespace SusSyntax.Lexical

open Grammar

/-- A text that is a name: a character that begins names, and others that go on with them. -/
def SpellsName (text : Text) : Prop :=
  ∃ g rest, text = g :: rest ∧ Guard.identifierStart.admits g = true ∧
    ∀ h ∈ rest, Guard.identifierContinue.admits h = true

/-- Where a text ends that goes on with names, as far as it is ahead. -/
def NameEnds (after : Text) : Prop :=
  ∀ g ∈ after.head?, Guard.identifierContinue.admits g = false

namespace SpellsName

variable {u v : Text}

/-- All of a name may stand behind the beginning of another one. -/
theorem continues (h : SpellsName u) : ∀ g ∈ u, Guard.identifierContinue.admits g = true := by
  obtain ⟨g, rest, rfl, starts, others⟩ := h
  exact List.forall_mem_cons.mpr ⟨identifierContinue_of_start starts, others⟩

/-- Two names that are written together are a name. -/
theorem append (hu : SpellsName u) (hv : SpellsName v) : SpellsName (u ++ v) := by
  obtain ⟨g, rest, rfl, starts, others⟩ := hu
  exact ⟨g, rest ++ v, rfl, starts, List.forall_mem_append.mpr ⟨others, hv.continues⟩⟩

end SpellsName

/-- Inside a name a run goes on to where the name ends. -/
theorem runFrom_name {rest after : Text}
    (others : ∀ h ∈ rest, Guard.identifierContinue.admits h = true) (ends : NameEnds after)
    (found : Option (Token × Cursor)) (start pos : Extent) :
    tokenAutomaton.runFrom nameState found start pos (rest ++ after) =
      ⟨some (.identifier, ⟨pos + rest.extent, after⟩), start, ⟨pos + rest.extent, after⟩⟩ := by
  have accepts (c : Cursor) (found : Option (Token × Cursor)) :
      tokenAutomaton.accepted nameState c found = some (.identifier, c) := rfl
  induction rest generalizing found pos with
  | nil =>
    rw [List.nil_append, Text.extent_nil, Extent.add_zero]
    cases after with
    | nil => rfl
    | cons g after =>
      simp only [Automaton.runFrom, accepts, move?_nameState, ends g rfl, Bool.false_eq_true, if_false]
  | cons g rest ih =>
    obtain ⟨goesOn, others⟩ := List.forall_mem_cons.mp others
    simp only [List.cons_append, Automaton.runFrom, move?_nameState, goesOn, if_true, Move.via,
      Bool.false_eq_true, if_false]
    rw [ih others, Text.extent_cons, Extent.add_assoc]

/-- A name is read as a whole in every lex mode, from its first character on. -/
theorem runMode_name {name after : Text} (h : SpellsName name) (ends : NameEnds after)
    (mode : LexMode) (pos : Extent) :
    runMode mode ⟨pos, name ++ after⟩ =
      ⟨some (.identifier, ⟨pos + name.extent, after⟩), pos, ⟨pos + name.extent, after⟩⟩ := by
  obtain ⟨g, rest, rfl, starts, others⟩ := h
  obtain ⟨notBlank, notMark⟩ := ne_of_identifierStart starts
  have here : Cursor.tokenStart ⟨pos, g :: rest ++ after⟩ = ⟨pos, g :: rest ++ after⟩ := by
    simp [Cursor.tokenStart, Cursor.passByteOrderMark, Cursor.passBlanks, notMark, notBlank]
  cases g with
  | malformed => cases starts
  | char code =>
    rw [runMode_eq, here, tokenRun, List.cons_append]
    simp only [Automaton.runFrom, move?_identifierStart mode starts, Move.via, Bool.false_eq_true,
      if_false]
    rw [runFrom_name others ends, Text.extent_cons, Extent.add_assoc]

/-- Every character that begins names also goes on with them. So two names that are written together
are one name, and in every lex mode they are read as a whole, and nothing else with them, where no
character is ahead that goes on with names. -/
theorem runMode_names_append :
    (∀ code, Lexical.identifierStart.contains code = true →
      Lexical.identifierContinue.contains code = true) ∧
    ∀ u v after : Text, SpellsName u → SpellsName v → NameEnds after →
      ∀ (mode : LexMode) (pos : Extent), runMode mode ⟨pos, u ++ v ++ after⟩ =
        ⟨some (.identifier, ⟨pos + (u ++ v).extent, after⟩), pos, ⟨pos + (u ++ v).extent, after⟩⟩ := by
  constructor
  · intro code starts
    have admits : Guard.identifierStart.admits (.char code) = true := starts
    exact identifierContinue_of_start admits
  · intro u v after hu hv ends mode pos
    exact runMode_name (hu.append hv) ends mode pos

/-- With another name behind it a keyword is a part of one name, in letters of whatever script. -/
theorem runMode_names_append_keyword :
    SpellsName (.ofChars "in".toList) ∧ SpellsName (.ofChars "été".toList) ∧
      NameEnds (.ofChars " x".toList) ∧
      runMode .operator ⟨.zero, .ofChars "inété x".toList⟩ =
        ⟨some (.identifier, ⟨⟨7, 0, 7⟩, .ofChars " x".toList⟩), .zero,
          ⟨⟨7, 0, 7⟩, .ofChars " x".toList⟩⟩ := by
  have first : SpellsName (.ofChars "in".toList) := ⟨_, _, rfl, by decide, by decide⟩
  have second : SpellsName (.ofChars "été".toList) := ⟨_, _, rfl, by decide, by decide⟩
  have ends : NameEnds (.ofChars " x".toList) := by
    rintro g ⟨⟩
    decide
  exact ⟨first, second, ends, runMode_names_append.2 _ _ _ first second ends .operator .zero⟩

end SusSyntax.Lexical
