import SusSyntax.Proofs.Lexical.Pieces

/-!
Which names are keywords.

The keyword automaton is run over every name, and it also accepts where a keyword is only the
beginning of the name. What counts is that it accepts where the name ends: so a name is read as a
keyword just if it is spelled as the keyword is called and the state knows the keyword
(`keywordOf?_eq_some_iff`), and stays a name otherwise (`leaf_scan_of_identifier`).
-/

namespace SusSyntax.Lexical

open Grammar

/-- The spelling of a keyword, by itself, is accepted as the keyword. -/
theorem keywordAhead_name {k : Token} (isKeyword : k ∈ Token.keywords) :
    keywordAhead (.ofChars k.name.toList) = some (k, Text.extent (.ofChars k.name.toList)) := by
  have checked : ∀ k ∈ Token.keywords,
      keywordAhead (.ofChars k.name.toList) = some (k, Text.extent (.ofChars k.name.toList)) := by
    decide
  exact checked k isKeyword

/-- What the keyword automaton accepts up to the end of a name is how the name is spelled. -/
theorem keywordAhead_iff {word after : Text} {k : Token} (isName : Fits .identifier word after) :
    (∃ e, keywordAhead (word ++ after) = some (k, e) ∧ e.bytes = word.extent.bytes) ↔
      k ∈ Token.keywords ∧ word = .ofChars k.name.toList := by
  obtain ⟨g, others, rfl, first, -, stops⟩ := id isName
  constructor
  · rintro ⟨e, ahead, ends⟩
    have reach := reach_keywordRun (p := .zero) (others ++ after) first
    rw [show g :: (others ++ after) = g :: others ++ after from rfl, ahead] at reach
    obtain ⟨rest, accepted⟩ := Run.reach_eq_some.mp reach
    have spells : SpellsKeyword ([] ++ (g :: others ++ after)) (Text.extent [])
        (Text.extent ([] ++ g :: others)) k := by
      refine ⟨_, accepted, ?_⟩
      rw [Extent.zero_add]
      exact ends
    exact ⟨spells.mem_keywords, spells.eq_name isName⟩
  · rintro ⟨isKeyword, word⟩
    have alone : keywordAhead (g :: others ++ after) = keywordAhead (g :: others ++ []) :=
      keywordAhead_congr others (ne_of_identifierStart first).1 nofun stops
    rw [alone, List.append_nil, word]
    exact ⟨_, keywordAhead_name isKeyword, rfl⟩

/-- The state `s` takes a name for the keyword `k`: it is spelled as the keyword is called, and the
state knows the keyword. -/
def TakesFor (s : State) (word : Text) (k : Token) : Prop :=
  k ∈ Token.keywords ∧ word = .ofChars k.name.toList ∧ s.knows (.token k) = true

theorem keywordOf?_eq_some_iff {s : State} {word after : Text} {k : Token}
    (isName : Fits .identifier word after) :
    keywordOf? s (word ++ after) word.extent = some k ↔ TakesFor s word k := by
  rw [TakesFor, ← and_assoc, ← keywordAhead_iff isName, keywordOf?, Option.bind_eq_some_iff]
  constructor
  · rintro ⟨⟨k', e⟩, ahead, known⟩
    dsimp only at known
    split at known
    · rename_i fits
      obtain rfl := Option.some.inj known
      obtain ⟨ends, knows⟩ := Bool.and_eq_true_iff.mp fits
      exact ⟨⟨e, ahead, of_decide_eq_true ends⟩, knows⟩
    · cases known
  · rintro ⟨⟨e, ahead, ends⟩, knows⟩
    refine ⟨(k, e), ahead, ?_⟩
    dsimp only
    rw [if_pos (by simp [knows, ends])]

/-! ### Names -/

/-- What is accepted as an identifier is a name. -/
theorem exists_name {mode : LexMode} {pos : Extent} {rest : Text} {stop : Cursor}
    (notBlank : ∀ g ∈ rest.head?, Guard.blank.admits g = false)
    (accepts : (tokenRun mode ⟨pos, rest⟩).accepted = some (.identifier, stop)) :
    ∃ word, rest = word ++ stop.rest ∧ stop.pos = pos + word.extent ∧
      Fits .identifier word stop.rest := by
  rcases tokenRun_accepted notBlank accepts with ⟨isEnd, -⟩ | ⟨word, ⟨split, ends⟩, spelled⟩
  · cases isEnd
  · obtain ⟨stopPos, after⟩ := stop
    dsimp only at split ends
    subst split ends
    exact ⟨word, rfl, rfl, spelled.fits accepts⟩

/-- Wherever an identifier is accepted, it is read as the keyword that it is spelled like, if the
state has an action for that, and otherwise it stays an identifier. So what only begins like a
keyword, or is only the beginning of one, is read as none. -/
theorem leaf_scan_of_identifier {text : Text} {p : Extent} {mode : LexMode} {stop : Cursor}
    (s : State) (place : text.IsPlace p)
    (accepts : (runMode mode (.ofPosition text p)).accepted = some (.identifier, stop)) :
    ∃ before word, text = before ++ (word ++ stop.rest) ∧
      before.extent = (runMode mode (.ofPosition text p)).start ∧
      stop.pos = (before ++ word).extent ∧
      before.extent = p + (scan text s p).padding ∧ (scan text s p).size = word.extent ∧
      (∀ t, (scan text s p).leaf = .read t ↔
        TakesFor s word t ∨ t = .identifier ∧ ∀ k, ¬TakesFor s word k) ∧
      ((∀ k ∈ Token.keywords, word ≠ .ofChars k.name.toList) →
        (scan text s p).leaf = .read .identifier) ∧
      ∀ k ∈ Token.keywords, ∀ more ≠ [], word = Text.ofChars k.name.toList ++ more ∨
        word ++ more = Text.ofChars k.name.toList → (scan text s p).leaf ≠ .read k := by
  obtain ⟨front, ahead, rfl, rfl⟩ := place
  obtain ⟨gap, rest, rfl, isGap⟩ := exists_gap (decide (front.extent.bytes = 0)) ahead
  have begins : Begins front.extent gap rest := begins_of_isGapBefore (by simp) isGap
  rw [Cursor.ofPosition_extent, runMode_eq, begins] at accepts ⊢
  obtain ⟨word, rfl, ends, isName⟩ := exists_name isGap.1 accepts
  have scanned := scan_eq s begins
  rw [reading_of_fits s isName] at scanned
  dsimp only at scanned
  have leaf (t : Token) : (scan (front ++ (gap ++ (word ++ stop.rest))) s front.extent).leaf =
      .read t ↔ TakesFor s word t ∨ t = .identifier ∧ ∀ k, ¬TakesFor s word k := by
    rw [scanned]
    simp only [← keywordOf?_eq_some_iff isName]
    cases keyword : keywordOf? s (word ++ stop.rest) word.extent with
    | none => simp [eq_comm]
    | some k => simp [eq_comm]
  have notName : .identifier ∉ Token.keywords := by decide
  have notTaken {k : Token} (isKeyword : k ∈ Token.keywords)
      (takes : (scan (front ++ (gap ++ (word ++ stop.rest))) s front.extent).leaf = .read k) :
      word = .ofChars k.name.toList := by
    rcases (leaf k).mp takes with taken | ⟨rfl, -⟩
    · exact taken.2.1
    · exact absurd isKeyword notName
  refine ⟨front ++ gap, word, by simp, ?_, ?_, by simp [scanned], by rw [scanned], leaf,
    fun none => ?_, fun k isKeyword more some other takes => ?_⟩
  · rw [tokenRun_start isGap.1, Text.extent_append]
  · rw [ends, Text.extent_append, Text.extent_append]
  · exact (leaf .identifier).mpr (.inr ⟨rfl, fun k takes => none k takes.1 takes.2.1⟩)
  · rw [← notTaken isKeyword takes] at other
    rcases other with longer | shorter
    · exact some (List.self_eq_append_right.mp longer)
    · exact some (List.append_right_eq_self.mp shorter)

/-- Behind an index, where `in` may stand, `inx` is a name all the same. -/
theorem leaf_scan_of_identifier_inx :
    (scan (.ofChars "in x".toList) State.indexRead .zero).leaf = .read .inKw ∧
      (scan (.ofChars "inx".toList) State.indexRead .zero).leaf = .read .identifier := by
  constructor
  · have accepts : (runMode .operator (.ofPosition (.ofChars "in x".toList) .zero)).accepted =
        some (.identifier, ⟨⟨2, 0, 2⟩, .ofChars " x".toList⟩) := by
      decide
    obtain ⟨before, word, split, starts, -, -, -, leaf, -⟩ :=
      leaf_scan_of_identifier State.indexRead (Text.isPlace_zero _) accepts
    obtain rfl := Text.eq_nil_of_bytes_eq_zero (congrArg Extent.bytes starts)
    have word : word = .ofChars "in".toList := List.append_cancel_right split.symm
    have knows : State.indexRead.knows (.token .inKw) = true := by decide +kernel
    exact (leaf .inKw).mpr (.inl ⟨by decide, word, knows⟩)
  · have accepts : (runMode .operator (.ofPosition (.ofChars "inx".toList) .zero)).accepted =
        some (.identifier, ⟨⟨3, 0, 3⟩, []⟩) := by
      decide
    obtain ⟨before, word, split, starts, -, -, -, -, stays, -⟩ :=
      leaf_scan_of_identifier State.indexRead (Text.isPlace_zero _) accepts
    obtain rfl := Text.eq_nil_of_bytes_eq_zero (congrArg Extent.bytes starts)
    have word : word = .ofChars "inx".toList := by simpa using split.symm
    refine stays ?_
    rw [word]
    decide

end SusSyntax.Lexical
