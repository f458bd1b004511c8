import SusSyntax.Grammar.Table

/-!
What the parse table says about the states that follow one another.

Every fact here is read off the rows by a check of the whole table. The error state is never left
by a symbol (`next_errorState`), the state of a parse at its beginning is never entered
(`next_ne_startState`), a shift leads where the symbol leads (`next_of_shift`), and text is accepted
only behind the start symbol (`accept_spec`).
-/

namespace SusSyntax.Grammar

/-! ### Reading rows -/

/-- The rule that an action reduces, with the number of symbols that it takes. -/
def Action.reduced? : Action → Option (Rule × Nat)
  | .reduce rule size _ => some (rule, size)
  | _ => none

namespace Row

theorem mem_entries {r : Row} {t : Token} {a : Action} (h : a ∈ (r.entry t).actions) :
    ∃ ts, (r.entry t, ts) ∈ r.entries ∧ t ∈ ts := by
  rw [entry] at h ⊢
  cases found : r.entries.find? (·.2.contains t) with
  | none =>
    rw [found] at h
    cases h
  | some e =>
    refine ⟨e.2, List.mem_of_find?_eq_some found, ?_⟩
    simpa using List.find?_some found

theorem mem_gotos {r : Row} {rule : Rule} {n : State} (h : r.goto? rule = some n) :
    (rule, n) ∈ r.gotos := by
  rw [goto?] at h
  generalize r.gotos = gotos at h
  induction gotos with
  | nil => cases h
  | cons g rest ih =>
    obtain ⟨rule', n'⟩ := g
    rw [List.lookup_cons] at h
    split at h
    · rename_i same
      obtain rfl := eq_of_beq same
      obtain rfl := Option.some.inj h
      exact List.mem_cons_self
    · exact List.mem_cons_of_mem _ (ih h)

theorem action_holds {r : Row} {t : Token} {a : Action} (check : Token → Entry → Action → Bool)
    (checked : (r.entries.all fun e => e.2.all fun t =>
      e.1.actions.all fun a => check t e.1 a) = true)
    (h : a ∈ (r.entry t).actions) : check t (r.entry t) a = true := by
  obtain ⟨ts, mem, known⟩ := mem_entries h
  exact List.all_eq_true.mp (List.all_eq_true.mp (List.all_eq_true.mp checked _ mem) t known) a h

end Row

namespace State

variable {s : State} {t : Token} {a : Action} {rule : Rule} {n size layout : Nat}

theorem row_eq_empty (h : ¬ s < stateCount) : s.row = ⟨.anything, [], []⟩ := by
  rw [row, Array.getElem?_eq_none (Nat.not_lt.mp h)]
  rfl

theorem lt_of_mem_actions (h : a ∈ (s.row.entry t).actions) : s < stateCount := by
  by_cases bound : s < stateCount
  · exact bound
  · rw [row_eq_empty bound] at h
    cases h

theorem lt_of_goto? (h : s.row.goto? rule = some n) : s < stateCount := by
  by_cases bound : s < stateCount
  · exact bound
  · rw [row_eq_empty bound] at h
    cases h

theorem mem_rows (h : s < stateCount) : (s.row, s) ∈ rows.zipIdx := by
  have bound : s < rows.length := h
  have found : s.row = rows[s] := by
    rw [row, table, List.getElem?_toArray, List.getElem?_eq_getElem bound]
    rfl
  rw [found]
  exact List.mem_zipIdx_iff_getElem?.mpr (List.getElem?_eq_getElem bound)

/-- A property of all rows of the table. -/
theorem row_holds (check : State → Row → Bool)
    (checked : (rows.zipIdx.all fun x => check x.2 x.1) = true) (h : s < stateCount) :
    check s s.row = true := by
  have mem := mem_rows h
  generalize s.row = r at mem
  exact List.all_eq_true.mp checked _ mem

/-- A property of all actions of the table, with the state, the token and the entry. -/
theorem action_holds (check : State → Token → Entry → Action → Bool)
    (checked : (rows.zipIdx.all fun x => x.1.entries.all fun e => e.2.all fun t =>
      e.1.actions.all fun a => check x.2 t e.1 a) = true)
    (h : a ∈ (s.row.entry t).actions) : check s t (s.row.entry t) a = true :=
  Row.action_holds (fun t e a => check s t e a)
    (row_holds (fun s r => r.entries.all fun e => e.2.all fun t =>
      e.1.actions.all fun a => check s t e.1 a) checked (lt_of_mem_actions h)) h

/-- A property of all reductions of the table, with the state and the tokens that they are made at. -/
theorem reduction_holds (check : State → List Token → Rule → Nat → Nat → Bool)
    (checked : (rows.zipIdx.all fun x => x.1.entries.all fun e => e.1.actions.all fun
      | .reduce r size layout => check x.2 e.2 r size layout
      | _ => true) = true)
    (h : .reduce rule size layout ∈ (s.row.entry t).actions) :
    ∃ ts, t ∈ ts ∧ check s ts rule size layout = true := by
  obtain ⟨ts, entry, known⟩ := Row.mem_entries h
  have row := List.all_eq_true.mp checked _ (mem_rows (lt_of_mem_actions h))
  exact ⟨ts, known, List.all_eq_true.mp (List.all_eq_true.mp row _ entry) _ h⟩

/-- A property of all gotos of the table. -/
theorem goto_holds (check : State → Rule → State → Bool)
    (checked : (rows.zipIdx.all fun x => x.1.gotos.all fun g => check x.2 g.1 g.2) = true)
    (h : s.row.goto? rule = some n) : check s rule n = true :=
  List.all_eq_true.mp (row_holds (fun s r => r.gotos.all fun g => check s g.1 g.2)
    checked (lt_of_goto? h)) _ (Row.mem_gotos h)

/-! ### Actions -/

/-- Only tokens have actions. -/
theorem exists_of_mem_entry {x : Symbol} (h : a ∈ (s.entry x).actions) :
    ∃ t, x = .token t ∧ a ∈ (s.row.entry t).actions := by
  cases x with
  | token t => exact ⟨t, rfl, h⟩
  | rule r => cases h
  | error => cases h
  | skipped => cases h

/-- The state behind the start symbol. -/
def acceptState : State :=
  (startState.row.goto? .sourceFile).getD errorState

theorem acceptState_eq : acceptState = 225 := by
  decide +kernel

theorem acceptState_ne_startState : acceptState ≠ startState := by
  rw [acceptState_eq]
  decide

theorem acceptState_ne_errorState : acceptState ≠ errorState := by
  rw [acceptState_eq]
  decide

/-- What is so for every action of the table. -/
def isSane (s : State) (t : Token) (e : Entry) : Action → Bool
  | .shift n => e.actions.getLast? == some (.shift n) && n != errorState && t != .eof &&
      !t.isComment
  | .shiftRepeat _ => !t.isComment
  | .shiftExtra => t.isComment
  | .reduce .. => s != errorState && !t.isComment
  | .accept => t == .eof && s == acceptState
  | .recover => !t.isComment

theorem isSane_of_mem (h : a ∈ (s.row.entry t).actions) :
    isSane s t (s.row.entry t) a = true :=
  action_holds isSane (by decide +kernel) h

/-- A shift is the last action of its entry, and leads out of the error state. -/
theorem next_of_shift (h : .shift n ∈ (s.row.entry t).actions) :
    s.next (.token t) = n ∧ n ≠ errorState := by
  have sane := isSane_of_mem h
  simp only [isSane, Bool.and_eq_true, beq_iff_eq, bne_iff_ne] at sane
  obtain ⟨⟨⟨last, ne⟩, _⟩, _⟩ := sane
  unfold next
  simp only [last]
  exact ⟨trivial, ne⟩

/-- The end of the text is never shifted. -/
theorem ne_eof_of_shift (h : .shift n ∈ (s.row.entry t).actions) : t ≠ .eof := by
  have sane := isSane_of_mem h
  simp only [isSane, Bool.and_eq_true, bne_iff_ne] at sane
  exact sane.1.2

/-- Only comments are taken in as extras. -/
theorem isComment_of_shiftExtra (h : .shiftExtra ∈ (s.row.entry t).actions) :
    t.isComment = true :=
  isSane_of_mem h

/-- A comment is taken in where it stands, and nothing else is done with it. -/
theorem eq_shiftExtra_of_isComment (h : a ∈ (s.row.entry t).actions)
    (comment : t.isComment = true) : a = .shiftExtra := by
  have sane := isSane_of_mem h
  cases a with
  | shiftExtra => rfl
  | accept =>
    simp only [isSane, Bool.and_eq_true, beq_iff_eq] at sane
    rw [sane.1] at comment
    cases comment
  | _ => simp [isSane, comment] at sane

theorem isComment_eq_false (h : a ∈ (s.row.entry t).actions) (ne : a ≠ .shiftExtra) :
    t.isComment = false :=
  Bool.eq_false_iff.mpr fun comment => ne (eq_shiftExtra_of_isComment h comment)

/-- Comments are what is taken in as an extra in the state that a parse begins in. -/
theorem takesExtra_startState (t : Token) :
    (entry startState (.token t)).takesExtra = t.isComment := by
  have checked : (Token.all.all fun t =>
      (entry startState (.token t)).takesExtra == t.isComment) = true := by
    decide +kernel
  exact eq_of_beq (List.all_eq_true.mp checked t (Token.mem_all t))

/-- There are no reductions in the error state. -/
theorem ne_errorState_of_reduce (h : .reduce rule size layout ∈ (s.row.entry t).actions) :
    s ≠ errorState := by
  have sane := isSane_of_mem h
  simp only [isSane, Bool.and_eq_true, bne_iff_ne] at sane
  exact sane.1

/-- A text is accepted at its end only, in the state behind the start symbol. -/
theorem accept_spec (h : .accept ∈ (s.row.entry t).actions) : t = .eof ∧ s = acceptState := by
  simpa [isSane] using isSane_of_mem h

/-! ### Symbols -/

/-- A rule leads where its goto says, and never to the error state. -/
theorem next_of_goto? (h : s.row.goto? rule = some n) :
    s.next (.rule rule) = n ∧ n ≠ errorState := by
  have holds := goto_holds (fun _ _ n => n != errorState) (by decide) h
  unfold next
  simp only [h]
  exact ⟨rfl, by simpa using holds⟩

/-- Where a symbol leads is the target of an action or of a goto, or nowhere. -/
theorem next_cases (s : State) (x : Symbol) :
    s.next x = errorState ∨
      (∃ t a, x = .token t ∧ a ∈ (s.row.entry t).actions ∧
        (a = .shift (s.next x) ∨ a = .shiftRepeat (s.next x) ∨
          a = .shiftExtra ∧ s.next x = s)) ∨
      ∃ r, x = .rule r ∧ s.row.goto? r = some (s.next x) := by
  cases x with
  | error => exact .inl rfl
  | skipped => exact .inl rfl
  | rule r =>
    unfold next
    dsimp only
    generalize s.row = row
    cases found : row.goto? r with
    | none => exact .inl rfl
    | some n => exact .inr (.inr ⟨r, rfl, found⟩)
  | token t =>
    unfold next
    dsimp only
    generalize same : (s.row.entry t).actions = actions
    split
    · rename_i n last
      exact .inr (.inl ⟨t, _, rfl, same ▸ List.mem_of_getLast? last, .inl rfl⟩)
    · rename_i n last
      exact .inr (.inl ⟨t, _, rfl, same ▸ List.mem_of_getLast? last, .inr (.inl rfl)⟩)
    · rename_i last
      exact .inr (.inl ⟨t, _, rfl, same ▸ List.mem_of_getLast? last, .inr (.inr ⟨rfl, rfl⟩)⟩)
    · exact .inl rfl

/-- A property of all states that symbols lead to. -/
theorem next_holds (check : State → Symbol → State → Bool)
    (actions : (rows.zipIdx.all fun x => x.1.entries.all fun e => e.2.all fun t =>
      e.1.actions.all fun a => match a with
        | .shift n | .shiftRepeat n => check x.2 (.token t) n
        | .shiftExtra => check x.2 (.token t) x.2
        | _ => true) = true)
    (gotos : (rows.zipIdx.all fun x => x.1.gotos.all fun g =>
      check x.2 (.rule g.1) g.2) = true)
    {x : Symbol} (ne : s.next x ≠ errorState) : check s x (s.next x) = true := by
  rcases next_cases s x with h | ⟨t, a, rfl, mem, kind⟩ | ⟨r, rfl, found⟩
  · exact absurd h ne
  · have holds := action_holds (fun s t _ a => match a with
      | .shift n | .shiftRepeat n => check s (.token t) n
      | .shiftExtra => check s (.token t) s
      | _ => true) actions mem
    rcases kind with rfl | rfl | ⟨rfl, same⟩
    · exact holds
    · exact holds
    · rw [same]
      exact holds
  · exact goto_holds (fun s r n => check s (.rule r) n) gotos found

/-- What is so wherever a symbol leads from one state to another. -/
def isSaneStep (s : State) (x : Symbol) (n : State) : Bool :=
  (s != errorState || n == errorState) && match x with
    | .token t => if t.isComment then n == s else n != startState && n != acceptState
    | x => n != startState && (n != acceptState || s == startState && x == .rule .sourceFile)

theorem isSaneStep_next {x : Symbol} (ne : s.next x ≠ errorState) :
    s ≠ errorState ∧ isSaneStep s x (s.next x) = true := by
  have sane := next_holds isSaneStep (by decide +kernel) (by decide +kernel) ne
  refine ⟨?_, sane⟩
  rintro rfl
  simp [isSaneStep, ne] at sane

/-- No symbol leads out of the error state. -/
@[simp] theorem next_errorState (x : Symbol) : State.next errorState x = errorState := by
  by_cases ne : State.next errorState x = errorState
  · exact ne
  · exact absurd rfl (isSaneStep_next ne).1

/-- No symbol but a comment leads to the state that a parse begins in. -/
theorem next_ne_startState {x : Symbol} (h : ∀ t, x = .token t → t.isComment = false) :
    s.next x ≠ startState := by
  intro same
  have sane := (isSaneStep_next (s := s) (x := x) (by rw [same]; decide)).2
  rw [same] at sane
  cases x with
  | token t => simp [isSaneStep, h t rfl] at sane
  | rule r => simp [isSaneStep] at sane
  | error => simp [isSaneStep] at sane
  | skipped => simp [isSaneStep] at sane

/-- A comment leads nowhere else. -/
theorem next_of_isComment (comment : t.isComment = true) :
    s.next (.token t) = s ∨ s.next (.token t) = errorState := by
  by_cases ne : s.next (.token t) = errorState
  · exact .inr ne
  · have sane := (isSaneStep_next ne).2
    exact .inl (by simpa [isSaneStep, comment] using (Bool.and_eq_true_iff.mp sane).2)

/-! ### Acceptance -/

/-- The state behind the start symbol is entered by it alone, from the beginning. -/
theorem next_eq_acceptState {x : Symbol} (ne : s ≠ acceptState)
    (h : s.next x = acceptState) : s = startState ∧ x = .rule .sourceFile := by
  have sane := (isSaneStep_next (s := s) (x := x) (by rw [h]; exact acceptState_ne_errorState)).2
  rw [h] at sane
  cases x with
  | token t =>
    by_cases comment : t.isComment = true
    · simp [isSaneStep, comment, ne.symm] at sane
    · simp [isSaneStep, comment] at sane
  | rule r => simpa [isSaneStep] using (Bool.and_eq_true_iff.mp (Bool.and_eq_true_iff.mp sane).2).2
  | error => simp [isSaneStep] at sane
  | skipped => simp [isSaneStep] at sane

/-- Only comments are taken in behind the start symbol. -/
theorem isComment_of_next_acceptState {x : Symbol} (h : acceptState.next x = acceptState) :
    ∃ t, x = .token t ∧ t.isComment = true := by
  have sane := (isSaneStep_next (s := acceptState) (x := x)
    (by rw [h]; exact acceptState_ne_errorState)).2
  rw [h] at sane
  cases x with
  | token t =>
    by_cases comment : t.isComment = true
    · exact ⟨t, rfl, comment⟩
    · simp [isSaneStep, comment] at sane
  | rule r => simp [isSaneStep, acceptState_ne_startState] at sane
  | error => simp [isSaneStep] at sane
  | skipped => simp [isSaneStep] at sane

end State

end SusSyntax.Grammar
