import SusSyntax.Proofs.Grammar.Handles

/-!
Where the table leaves a choice, and what happens behind it.

A name with an index in brackets behind it may be an array type or an element of an array. The
table has both reductions there (`State.choice_of_ne`), and from then on there are two readings:
one that waits for the name of a declaration (`State.typeRead`), and one that goes on with an
expression (`State.IsTermRead`). Both read the brackets in the same states. What is read in brackets
never comes to a choice (`State.ne_choice_of_isBracketed`), and it is taken off again together with
the opening bracket only (`State.eq_of_reduce_over_bracket`).
-/

namespace SusSyntax.Grammar

namespace Action

/-- Whether the machine may take an action: superfluous shifts are passed over. -/
def isTaken : Action → Bool
  | .shiftRepeat _ => false
  | _ => true

end Action

namespace State

/-! ### The choice -/

/-- The state behind a name where a declaration or an expression may begin. -/
def choice : State := 51

/-- The state behind a type where a declaration begins. -/
def typeRead : State := 177

/-- The state behind an array type where a declaration begins, with the bracket not yet put to the
type. -/
def typeIndexed : State := 134

/-- The states behind an expression where a declaration might have begun. -/
def IsTermRead (s : State) : Prop :=
  s = 49 ∨ s = 50

/-- The state behind an expression with an index. -/
def termIndexed : State := 40

/-- The state behind an opening bracket. -/
def bracket : State := 71

variable {s n m : State} {t : Token} {a b : Action} {size layout : Nat} {rule : Rule}

/-- If two actions can be taken then a name with a bracket behind it is a type or an expression. -/
theorem choice_of_ne (first : a ∈ (s.row.entry t).actions) (second : b ∈ (s.row.entry t).actions)
    (taken : a.isTaken = true) (taken' : b.isTaken = true) (ne : a ≠ b) :
    s = choice ∧ t = .lbracket ∧
      (a = .reduce .type 1 0 ∧ b = .reduce .expression 1 0 ∨
        a = .reduce .expression 1 0 ∧ b = .reduce .type 1 0) := by
  have holds := action_holds (fun s t e a => e.actions.all fun b =>
    a == b || !a.isTaken || !b.isTaken || s == choice && t == .lbracket &&
      (a == .reduce .type 1 0 && b == .reduce .expression 1 0 ||
        a == .reduce .expression 1 0 && b == .reduce .type 1 0)) (by decide +kernel) first
  simpa [taken, taken', ne, and_assoc] using List.all_eq_true.mp holds b second

example : (choice.row.entry .lbracket).actions =
    [.reduce .type 1 0, .reduce .expression 1 0] := by decide +kernel

/-- Where a type or an expression may begin, these are the states behind them. -/
theorem gotos_of_choice (type : s.row.goto? .type = some n)
    (term : s.row.goto? .expression = some m) :
    n = typeRead ∧ m.IsTermRead ∧ s.row.goto? .arrayType = some n ∧
      s.row.goto? .arrayOp = some m := by
  have holds := row_holds (fun _ r => (r.goto? .type).all fun n => (r.goto? .expression).all fun m =>
    n == typeRead && (m == 49 || m == 50) && r.goto? .arrayType == some n &&
      r.goto? .arrayOp == some m) (by decide) (lt_of_goto? type)
  simp only [type, term, Option.all_some] at holds
  simpa [IsTermRead, and_assoc] using holds

/-! ### Behind the choice -/

/-- What is so for the actions of the states behind the choice. -/
def isSaneBehind (s : State) (t : Token) (a : Action) : Bool :=
  t.isComment ||
    if s == typeRead then t == .identifier || t == .lbracket && a == .shift bracket
    else if s == typeIndexed then a == .reduce .arrayType 2 8
    else t != .identifier &&
      (if s == termIndexed then a == .reduce .arrayOp 2 8 else t != .lbracket || a == .shift bracket)

theorem isSaneBehind_of_mem (h : a ∈ (s.row.entry t).actions)
    (known : s ∈ [typeRead, typeIndexed, termIndexed, 49, 50]) : isSaneBehind s t a = true := by
  have checked : ([typeRead, typeIndexed, termIndexed, 49, 50].all fun s => Token.all.all fun t =>
      (row s).entry t |>.actions.all fun a => isSaneBehind s t a) = true := by
    decide +kernel
  exact List.all_eq_true.mp (List.all_eq_true.mp (List.all_eq_true.mp checked s known) t
    (Token.mem_all t)) a h

theorem IsTermRead.mem (h : s.IsTermRead) : s ∈ [typeRead, typeIndexed, termIndexed, 49, 50] := by
  rcases h with rfl | rfl <;> decide

/-- Behind a type there may be a name or a bracket. -/
theorem action_typeRead (h : a ∈ (typeRead.row.entry t).actions) :
    t = .identifier ∨ t = .lbracket ∧ a = .shift bracket ∨ t.isComment = true := by
  have sane := isSaneBehind_of_mem h (by decide)
  simp only [isSaneBehind, Bool.or_eq_true, beq_self_eq_true, if_true, Bool.and_eq_true,
    beq_iff_eq] at sane
  rcases sane with comment | name | bracket
  · exact .inr (.inr comment)
  · exact .inl name
  · exact .inr (.inl bracket)

/-- Behind an expression there may be a bracket, but no name. -/
theorem action_termRead (isTerm : s.IsTermRead) (h : a ∈ (s.row.entry t).actions) :
    t ≠ .identifier ∧ (t = .lbracket → a = .shift bracket) := by
  have sane := isSaneBehind_of_mem h isTerm.mem
  by_cases comment : t.isComment = true
  · constructor <;> rintro rfl <;> cases comment
  · rcases isTerm with rfl | rfl <;>
      simpa [isSaneBehind, comment, typeRead, typeIndexed, termIndexed,
        Decidable.imp_iff_not_or] using sane

/-- Behind an array type with its index there is nothing to do but to put them together. -/
theorem action_typeIndexed (h : a ∈ (typeIndexed.row.entry t).actions) :
    a = .reduce .arrayType 2 8 ∨ t.isComment = true := by
  have sane := isSaneBehind_of_mem h (by decide)
  by_cases comment : t.isComment = true
  · exact .inr comment
  · exact .inl (by simpa [isSaneBehind, comment, typeIndexed, typeRead] using sane)

/-- So there is behind an expression with an index, but a name cannot follow it. -/
theorem action_termIndexed (h : a ∈ (termIndexed.row.entry t).actions) :
    t ≠ .identifier ∧ (a = .reduce .arrayOp 2 8 ∨ t.isComment = true) := by
  have sane := isSaneBehind_of_mem h (by decide)
  by_cases comment : t.isComment = true
  · refine ⟨?_, .inr comment⟩
    rintro rfl
    cases comment
  · simpa [isSaneBehind, comment, typeIndexed, typeRead, termIndexed] using sane

theorem ne_acceptState (known : s ∈ [typeRead, typeIndexed, termIndexed, 49, 50]) :
    s ≠ acceptState := by
  intro same
  rw [same, acceptState_eq] at known
  revert known
  decide

theorem gotos_arrayBracketExpression :
    typeRead.row.goto? .arrayBracketExpression = some typeIndexed ∧
      ∀ s ∈ [49, 50], (row s).goto? .arrayBracketExpression = some termIndexed := by
  decide +kernel

theorem goto_typeRead : typeRead.row.goto? .arrayBracketExpression = some typeIndexed :=
  gotos_arrayBracketExpression.1

theorem goto_termRead (isTerm : s.IsTermRead) :
    s.row.goto? .arrayBracketExpression = some termIndexed :=
  gotos_arrayBracketExpression.2 s (by rcases isTerm with rfl | rfl <;> decide)

/-! ### In brackets -/

/-- The states that can be come to in brackets, as the bits of a number. -/
def bracketed : Nat :=
  0x2020000012248c0842000000790418600400007ae3f4d13ffffffff000

/-- Whether a state can be come to in brackets. -/
def isBracketed (s : State) : Bool :=
  bracketed.testBit s

theorem isBracketed_bracket : isBracketed bracket = true := by
  decide

theorem isBracketed_next {x : Symbol} (h : s.isBracketed = true) (ne : s.next x ≠ errorState)
    (inside : ∀ t, x = .token t → t.isComment = false) : (s.next x).isBracketed = true := by
  have checked : (edges.all fun e => !e.source.isBracketed || e.target.isBracketed) = true := by
    decide +kernel
  have holds := List.all_eq_true.mp checked _ (mem_edges ne inside)
  simpa [h] using holds

theorem isBracketed_through {xs : List Symbol} (h : s.isBracketed = true)
    (inside : ∀ t, .token t ∈ xs → t.isComment = false) (ne : s.through xs ≠ errorState) :
    (s.through xs).isBracketed = true := by
  induction xs generalizing s with
  | nil => exact h
  | cons x xs ih =>
    have first : s.next x ≠ errorState := by
      intro same
      refine ne ?_
      rw [through, List.foldl_cons, same]
      exact through_errorState xs
    exact ih (isBracketed_next h first fun t same => inside t (same ▸ List.mem_cons_self))
      (fun t mem => inside t (List.mem_cons_of_mem _ mem)) ne

/-- In brackets there is no choice. -/
theorem ne_choice_of_isBracketed (h : s.isBracketed = true) : s ≠ choice := by
  rintro rfl
  have : isBracketed choice = false := by decide
  rw [this] at h
  cases h

/-- Whether a bracket is opened `count` symbols before a state. -/
def opensBefore (s : State) (count : Nat) : Bool :=
  ((lastSymbols count [s]).headD []).contains (.token .lbracket)

theorem opensBefore_through {xs : List Symbol} (inside : ∀ t, .token t ∈ xs → t.isComment = false)
    (ne : through bracket xs ≠ errorState) :
    (through bracket xs).opensBefore (xs.length + 1) = true := by
  have opened : typeRead.next (.token .lbracket) = bracket := by decide +kernel
  have way : typeRead.through (.token .lbracket :: xs) = through bracket xs := by
    rw [through, List.foldl_cons, opened]
    rfl
  have inside : ∀ t, .token t ∈ Symbol.token .lbracket :: xs → t.isComment = false := by
    intro t mem
    rcases List.mem_cons.mp mem with same | mem
    · obtain rfl := Symbol.token.inj same
      rfl
    · exact inside t mem
  have here : typeRead.through (.token .lbracket :: xs) ∈ [through bracket xs] := by
    rw [way]
    exact List.mem_cons_self
  have mem := mem_lastSymbols inside (by rwa [way]) here
  rw [List.length_cons] at mem
  rw [opensBefore, List.contains_iff_mem]
  cases last : lastSymbols (xs.length + 1) [through bracket xs] with
  | nil =>
    rw [last] at mem
    cases List.mem_singleton.mp mem
  | cons ys rest =>
    rw [last] at mem
    obtain ⟨y, first, rest⟩ := List.mem_flatMap.mp mem
    obtain ⟨zs, _, same⟩ := List.mem_map.mp rest
    rwa [← (List.cons.inj same).1]

theorem opensBefore_all :
    (rows.zipIdx.all fun x => !isBracketed x.2 || x.1.entries.all fun e => e.1.actions.all fun
      | .reduce r size _ => (List.range size).all fun n => !opensBefore x.2 (n + 1) ||
          n == 2 && size == 3 && r == .arrayBracketExpression
      | _ => true) = true := by
  decide +kernel

/-- An opening bracket is taken off the stack only together with all that is in the brackets, to
make an index. -/
theorem eq_of_reduce_over_bracket {xs : List Symbol}
    (inside : ∀ t, .token t ∈ xs → t.isComment = false)
    (way : through bracket xs = n)
    (h : .reduce rule size layout ∈ (n.row.entry t).actions) (deep : xs.length < size) :
    rule = .arrayBracketExpression ∧ size = 3 ∧ xs.length = 2 := by
  have ne : through bracket xs ≠ errorState := way ▸ ne_errorState_of_reduce h
  have opens : n.opensBefore (xs.length + 1) = true := way ▸ opensBefore_through inside ne
  have bracketed : n.isBracketed = true := way ▸ isBracketed_through isBracketed_bracket inside ne
  obtain ⟨ts, entry, known⟩ := Row.mem_entries h
  have row := List.all_eq_true.mp opensBefore_all _ (mem_rows (lt_of_mem_actions h))
  simp only [bracketed, Bool.not_true, Bool.false_or] at row
  have checked := List.all_eq_true.mp (List.all_eq_true.mp row _ entry) _ h
  have holds := List.all_eq_true.mp checked _ (List.mem_range.mpr deep)
  rw [opens] at holds
  simp only [Bool.not_true, Bool.false_or, Bool.and_eq_true, beq_iff_eq] at holds
  exact ⟨holds.2, holds.1.2, holds.1.1⟩

end State

end SusSyntax.Grammar
