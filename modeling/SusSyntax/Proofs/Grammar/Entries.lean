import SusSyntax.Proofs.Grammar.Brackets

/-!
What the entries of the table can hold.

Outside the error state an entry holds one action, or a reduction with a superfluous shift behind it,
or the two reductions of the choice (`State.form_entry`). The tokens that may stand behind an index
are sorted by what the two readings do with them: a bracket goes on with both, a name with the type
alone, and anything else with the expression alone (`State.isBehindIndex_of_reduce`).
-/

namespace SusSyntax.Grammar

namespace Action

/-- The forms of the actions of an entry outside the error state. -/
inductive Form : List Action → Prop where
  | none : Form []
  | shift (n : State) : Form [.shift n]
  | shiftExtra : Form [.shiftExtra]
  | accept : Form [.accept]
  | reduce (rule : Rule) (size layout : Nat) : Form [.reduce rule size layout]
  | repeats (rule : Rule) (size layout : Nat) (n : State) :
      Form [.reduce rule size layout, .shiftRepeat n]
  | choice : Form [.reduce .type 1 0, .reduce .expression 1 0]

/-- Whether actions have one of the forms. -/
def isFormed : List Action → Bool
  | [] | [.shift _] | [.shiftExtra] | [.accept] | [.reduce ..] => true
  | [.reduce .., .shiftRepeat _] => true
  | [a, b] => a == .reduce .type 1 0 && b == .reduce .expression 1 0
  | _ => false

theorem form_of_isFormed {actions : List Action} (h : isFormed actions = true) : Form actions := by
  unfold isFormed at h
  split at h
  · exact .none
  · exact .shift _
  · exact .shiftExtra
  · exact .accept
  · exact .reduce ..
  · exact .repeats ..
  · rw [Bool.and_eq_true, beq_iff_eq, beq_iff_eq] at h
    rw [h.1, h.2]
    exact .choice
  · cases h

end Action

namespace State

variable {s n : State} {t : Token} {rule : Rule} {size layout : Nat}

/-- Outside the error state every entry has one of the forms. -/
theorem form_entry (ne : s ≠ errorState) (x : Symbol) : Action.Form (s.entry x).actions := by
  have checked : (rows.zipIdx.all fun x => x.2 == errorState ||
      x.1.entries.all fun e => Action.isFormed e.1.actions) = true := by
    decide
  cases x with
  | token t =>
    by_cases inside : s < stateCount
    · have row := row_holds (fun s r => s == errorState ||
        r.entries.all fun e => Action.isFormed e.1.actions) checked inside
      rw [Bool.or_eq_true, beq_iff_eq] at row
      refine Action.form_of_isFormed ?_
      change Action.isFormed (s.row.entry t).actions = true
      rw [Row.entry]
      cases found : s.row.entries.find? (·.2.contains t) with
      | none => rfl
      | some e => exact List.all_eq_true.mp (row.resolve_left ne) e (List.mem_of_find?_eq_some found)
    · change Action.Form (s.row.entry t).actions
      rw [row_eq_empty inside]
      exact .none
  | _ => exact .none

/-! ### Behind an index -/

/-- The state behind the closing bracket of an index. -/
def indexRead : State := 33

/-- An index is made in one state only. -/
theorem eq_indexRead (h : .reduce .arrayBracketExpression size layout ∈ (s.row.entry t).actions) :
    s = indexRead := by
  have holds := action_holds (fun s _ _ a => a.reduced?.all fun r =>
    r.1 != .arrayBracketExpression || s == indexRead) (by decide) h
  simpa [Action.reduced?] using holds

/-- No rule leads to that state, and only an index leads to the state behind an indexed type. -/
theorem goto_spec (h : s.row.goto? rule = some n) :
    n ≠ indexRead ∧ (n = typeIndexed → rule = .arrayBracketExpression) := by
  have holds := goto_holds (fun _ rule n => n != indexRead &&
    (n != typeIndexed || rule == .arrayBracketExpression)) (by decide) h
  simpa [Decidable.imp_iff_not_or] using holds

/-- What the two readings of a name with an index begin with before a token `t` that may stand there.
-/
def IsBehindIndex (t : Token) : Prop :=
  t ≠ .eof ∧
    (termIndexed.row.entry t).actions = (if t = .identifier then [] else [.reduce .arrayOp 2 8]) ∧
    ((typeIndexed.row.entry t).actions = [.reduce .arrayType 2 8] ∧
        (typeIndexed.row.entry t).reusable = true ∨
      typeIndexed.row.entry t = .empty ∧ t ≠ .identifier ∧ t ≠ .lbracket)

instance (t : Token) : Decidable (IsBehindIndex t) :=
  inferInstanceAs (Decidable (_ ∧ _ ∧ _))

/-- What is so for every token behind an index, behind an indexed type and behind a type. -/
theorem tokens_behind : ∀ t ∈ Token.all,
    (t.isComment = true ∨ (indexRead.row.entry t).actions = [] ∨ IsBehindIndex t) ∧
      ((indexRead.row.entry t).actions = [] ∨ (indexRead.row.entry t).actions = [.shiftExtra] ∨
        (indexRead.row.entry t).actions = [.reduce .arrayBracketExpression 3 24]) ∧
      (t = .identifier ∨ t = .lbracket ∨ t.isComment = true ∨
        ((typeIndexed.row.entry t).actions = [] ∨
          (typeIndexed.row.entry t).actions = [.reduce .arrayType 2 8]) ∧
        (typeRead.row.entry t).actions = []) ∧
      (t ∈ Token.keywords → typeIndexed.knows (.token t) = false ∧
        (indexRead.knows (.token t) = true → t = .inKw)) := by
  decide +kernel

theorem isBehindIndex_of_reduce (h : .reduce rule size layout ∈ (indexRead.row.entry t).actions) :
    IsBehindIndex t := by
  rcases (tokens_behind t (Token.mem_all t)).1 with comment | empty | holds
  · cases eq_shiftExtra_of_isComment h comment
  · rw [empty] at h
    cases h
  · exact holds

/-- Behind a type a name or a bracket is taken in. -/
theorem entry_typeRead :
    (typeRead.row.entry .identifier).actions = [.shift 101] ∧
      typeRead.row.entry .lbracket = .shared (.shift bracket) := by
  decide +kernel

/-- Behind an indexed type a name or a bracket shows that it is one, in whatever state it was read.
-/
theorem entry_typeIndexed (h : t = .identifier ∨ t = .lbracket) :
    typeIndexed.row.entry t = .shared (.reduce .arrayType 2 8) := by
  have checked : typeIndexed.row.entry .identifier = .shared (.reduce .arrayType 2 8) ∧
      typeIndexed.row.entry .lbracket = .shared (.reduce .arrayType 2 8) := by
    decide +kernel
  rcases h with rfl | rfl
  · exact checked.1
  · exact checked.2

/-- Behind an index there is nothing to do but to make one, or to take a comment in. -/
theorem actions_indexRead (t : Token) : (indexRead.row.entry t).actions = [] ∨
    (indexRead.row.entry t).actions = [.shiftExtra] ∨
      (indexRead.row.entry t).actions = [.reduce .arrayBracketExpression 3 24] :=
  (tokens_behind t (Token.mem_all t)).2.1

/-- Whatever is not a name, a bracket or a comment has no place behind a type: behind an indexed one
there is at most the reduction to a type. -/
theorem actions_of_not_follows (name : t ≠ .identifier) (bracket : t ≠ .lbracket)
    (comment : t.isComment = false) :
    ((typeIndexed.row.entry t).actions = [] ∨
      (typeIndexed.row.entry t).actions = [.reduce .arrayType 2 8]) ∧
    (typeRead.row.entry t).actions = [] := by
  simpa [name, bracket, comment] using (tokens_behind t (Token.mem_all t)).2.2.1

/-- Behind an expression a bracket is taken in, but no name, and not the keyword that might be one.
-/
theorem entry_termRead (isTerm : s.IsTermRead) :
    (s.row.entry .lbracket).actions = [.shift bracket] ∧ (s.row.entry .identifier).actions = [] ∧
      (s.row.entry .inKw).actions = [] := by
  have checked : ∀ s ∈ [49, 50], ((row s).entry .lbracket).actions = [.shift bracket] ∧
      ((row s).entry .identifier).actions = [] ∧ ((row s).entry .inKw).actions = [] := by
    decide +kernel
  exact checked s (by rcases isTerm with rfl | rfl <;> decide)

/-- Behind an indexed type every keyword is a name, and behind an index all but one are. -/
theorem knows_keyword (h : t ∈ Token.keywords) :
    typeIndexed.knows (.token t) = false ∧ (indexRead.knows (.token t) = true → t = .inKw) :=
  (tokens_behind t (Token.mem_all t)).2.2.2 h

end State

end SusSyntax.Grammar
