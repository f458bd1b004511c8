import SusSyntax.Proofs.Grammar.Goals
import SusSyntax.Proofs.Grammar.Handles

/-!
How strongly operators bind, and where the table minds it.

The table has no levels. It has one state behind the operators of every level, and one behind the
operand that follows, where it shifts an operator that binds more strongly and reduces before any
other one. What this amounts to is said of states and symbols: a state demands that what comes next
is held together strongly enough (`State.demand`), and so does a symbol of what it comes behind
(`Symbol.demand`). A rule is reduced only before tokens that its own level satisfies, from operands
that stand where their level was demanded (`State.levelled_of_reduce`), and behind an operand there
are only operators that the state before it allows (`State.demand_le_of_next`).
-/

namespace SusSyntax

open Grammar

/-- How strongly something is held together, the weakest first: the operations with two operands by
their operators, those with one operand, and all other expressions. -/
inductive Level where
  | compare | xor | or | and | additive | multiplicative | unary | whole
deriving DecidableEq, Repr

namespace Level

/-- The place of a level among all levels. -/
def rank : Level → Nat
  | compare => 0
  | xor => 1
  | or => 2
  | and => 3
  | additive => 4
  | multiplicative => 5
  | unary => 6
  | whole => 7

instance : LE Level := ⟨fun k l => k.rank ≤ l.rank⟩

instance : LT Level := ⟨fun k l => k.rank < l.rank⟩

instance (k l : Level) : Decidable (k ≤ l) := inferInstanceAs (Decidable (k.rank ≤ l.rank))

instance (k l : Level) : Decidable (k < l) := inferInstanceAs (Decidable (k.rank < l.rank))

theorem le_refl (k : Level) : k ≤ k := Nat.le_refl _

theorem le_trans {k l m : Level} (h : k ≤ l) (h' : l ≤ m) : k ≤ m := Nat.le_trans h h'

theorem compare_le (k : Level) : compare ≤ k := Nat.zero_le _

theorem le_whole (k : Level) : k ≤ whole := by
  cases k <;> decide

theorem eq_whole_of_le {k : Level} (h : whole ≤ k) : k = whole := by
  revert h
  cases k <;> decide

/-- The level above, if there is one. -/
def next : Level → Level
  | compare => xor
  | xor => or
  | or => and
  | and => additive
  | additive => multiplicative
  | multiplicative => unary
  | unary | whole => whole

theorem lt_of_next_le {k l : Level} (h : k.next ≤ l) (ne : k ≠ whole) : k < l := by
  revert h ne
  cases k <;> cases l <;> decide

end Level

/-- The level of the operations with two operands that a token can stand in the middle of. -/
def Token.level? : Token → Option Level
  | .eqEq | .bangEq | .lt | .le | .gt | .ge => some .compare
  | .caret => some .xor
  | .pipe => some .or
  | .amp => some .and
  | .plus | .minus => some .additive
  | .star | .slash | .percent => some .multiplicative
  | _ => none

theorem Token.level_le_multiplicative {t : Token} {k : Level} (h : t.level? = some k) :
    k ≤ .multiplicative := by
  revert h
  cases t <;> cases k <;> decide

namespace Symbol

/-- The level of a symbol as an operator between two operands. -/
def level? : Symbol → Option Level
  | .token t => t.level?
  | _ => none

/-- Whether a symbol can be an operand. -/
def isOperand : Symbol → Bool
  | .token .number | .rule _ => true
  | _ => false

/-- How strongly what comes before a symbol has to be held together. Nothing is put together before
a comment, so that what was demanded is still to be seen behind it. -/
def demand : Symbol → Level
  | .token .lbracket | .token .lparen | .token .dot => .whole
  | .token .lineComment | .token .blockComment => .whole
  | .rule .arrayBracketExpression | .rule .parenthesisExpressionList => .whole
  | .token t => t.level?.getD .compare
  | _ => .compare

theorem demand_token {t : Token} {k : Level} (h : t.level? = some k) :
    (Symbol.token t).demand = k := by
  revert h
  cases t <;> cases k <;> decide

end Symbol

namespace Rule

/-- How strongly what a rule is reduced to from these symbols is held together. -/
def level : Rule → List Symbol → Level
  | .binaryOp, xs => (xs[1]?.bind Symbol.level?).getD .compare
  | .unaryOp, _ => .unary
  | _, _ => .whole

/-- How strongly the last one of the symbols has to be held together. -/
def lastDemand : Rule → List Symbol → Level
  | .binaryOp, xs => (level .binaryOp xs).next
  | .unaryOp, _ => .unary
  | _, _ => .compare

/-- The rules for which there is anything to say about levels. -/
def isWeighed : Rule → Bool
  | .arrayBracketExpression | .parenthesisExpressionList => true
  | r => operations.contains r

/-- The fields of the operands and what stands between them. -/
def operandFields : Rule → List (Option Field)
  | .binaryOp => [some .left, some .operator, some .right]
  | .unaryOp => [some .operator, some .right]
  | .arrayOp => [some .arr, some .arrIdx]
  | .funcCall => [some .name, some .arguments]
  | .fieldAccess => [some .left, none, some .name]
  | _ => [none]

/-- Whether an operation can be made of these symbols: there is an operator between two operands, or
the second symbol tells that nothing weaker may stand before it. The hidden rule of expressions is
only put over names. -/
def operates (layout : Nat) (xs : List Symbol) (r : Rule) : Bool :=
  decide ((List.range xs.length).map (Layout.field? layout) = r.operandFields) &&
  xs.all (fun x => x.isVisible || x == .rule .expression) &&
  match r, xs with
  | .binaryOp, [left, x, _] => left.isOperand && x.level?.isSome
  | .unaryOp, [_, _] => true
  | .arrayOp, [_, x] | .funcCall, [_, x] | .fieldAccess, [_, x, _] => x.demand == .whole
  | .expression, [x] => x == .rule .templateGlobal
  | _, _ => false

variable {layout : Nat} {xs : List Symbol} {r : Rule}

theorem fields_of_operates (h : r.operates layout xs = true) :
    (List.range xs.length).map (Layout.field? layout) = r.operandFields := by
  simp only [operates, Bool.and_eq_true, decide_eq_true_eq] at h
  exact h.1.1

/-- The one hidden child of an operation is an expression. -/
theorem shown_of_operates (h : r.operates layout xs = true) :
    ∀ x ∈ xs, x.isVisible = true ∨ x = .rule .expression := by
  simp only [operates, Bool.and_eq_true, List.all_eq_true, Bool.or_eq_true, beq_iff_eq] at h
  exact h.1.2

theorem operates_binaryOp (h : binaryOp.operates layout xs = true) :
    ∃ left t right k, xs = [left, .token t, right] ∧ left.isOperand = true ∧ t.level? = some k := by
  simp only [operates, Bool.and_eq_true] at h
  obtain ⟨-, h⟩ := h
  split at h
  · rename_i left x right _
    obtain ⟨operand, level⟩ := Bool.and_eq_true_iff.mp h
    obtain ⟨k, level⟩ := Option.isSome_iff_exists.mp level
    cases x with
    | token t => exact ⟨left, t, right, k, rfl, operand, level⟩
    | rule | error | skipped => cases level
  all_goals simp_all

theorem operates_expression (h : expression.operates layout xs = true) :
    xs = [.rule .templateGlobal] := by
  simp only [operates, Bool.and_eq_true] at h
  obtain ⟨-, h⟩ := h
  split at h
  all_goals simp_all

/-- Nothing weaker stands before what tells that something is done to it. -/
theorem demand_of_operates (h : r.operates layout xs = true)
    (access : r = .arrayOp ∨ r = .funcCall ∨ r = .fieldAccess) :
    ∃ x, xs[1]? = some x ∧ x.demand = .whole := by
  simp only [operates, Bool.and_eq_true] at h
  obtain ⟨-, h⟩ := h
  split at h
  all_goals simp_all

end Rule

namespace Grammar

/-- How strongly what comes next in a state has to be held together: behind an operator only what
binds more strongly is put together before the operation itself is. -/
def State.demand : State → Level
  | 63 => .xor
  | 62 => .or
  | 64 => .and
  | 61 => .additive
  | 65 => .multiplicative
  | 60 => .unary
  | 69 => .unary
  | _ => .compare

theorem State.demand_le_unary (s : State) : s.demand ≤ .unary := by
  unfold State.demand
  split <;> decide

/-! ### Reductions -/

/-- Whether a rule may be reduced from these symbols before tokens with these demands, as far as the
levels go, where the last symbol comes behind one of these states. -/
def isLevelled (layout : Nat) (xs : List Symbol) (demands : List Level) (sources : List State)
    (r : Rule) : Bool :=
  demands.all (fun k => decide (k ≤ r.level xs)) &&
  decide ((Symbol.rule r).demand ≤ (xs.headD .error).demand) &&
  sources.all (fun s => decide (r.lastDemand xs ≤ s.demand)) &&
  (!Rule.operations.contains r || r.operates layout xs)

theorem reductions_levelled :
    (rows.zipIdx.all fun x => x.1.entries.all fun e => e.1.actions.all fun
      | .reduce r size layout =>
        !r.isWeighed ||
        (sequences (State.lastSymbols size [x.2])).all fun xs =>
          isLevelled layout xs (e.2.map fun t => (Symbol.token t).demand).eraseDups
            ((sortedEdges.find x.2).map Edge.source).eraseDups r
      | _ => true) = true := by
  decide +kernel

/-- What holds of a reduction before the token `t` from symbols that are read in the state `s`. -/
structure Levelled (layout : Nat) (s : State) (xs : List Symbol) (t : Token) (r : Rule) : Prop where
  before : (Symbol.token t).demand ≤ r.level xs
  first : (Symbol.rule r).demand ≤ (xs.headD .error).demand
  last : ∀ front x, xs = front ++ [x] → r.lastDemand xs ≤ (s.through front).demand
  operates : r ∈ Rule.operations → r.operates layout xs = true

theorem levelled_of_not_isWeighed {layout : Nat} {s : State} {xs : List Symbol} {t : Token}
    {r : Rule} (h : r.isWeighed = false) : Levelled layout s xs t r := by
  have free : r ∉ Rule.operations ∧ (Symbol.rule r).demand = .compare ∧ r.level xs = .whole ∧
      r.lastDemand xs = .compare := by
    cases r <;> first | exact ⟨by decide, rfl, rfl, rfl⟩ | cases h
  obtain ⟨notOperation, demand, level, last⟩ := free
  refine ⟨?_, ?_, fun front x _ => ?_, fun mem => absurd mem notOperation⟩
  · rw [level]
    exact Level.le_whole _
  · rw [demand]
    exact Level.compare_le _
  · rw [last]
    exact Level.compare_le _

/-- Reductions mind the levels. -/
theorem State.levelled_of_reduce {s : State} {xs : List Symbol} {t : Token} {r : Rule}
    {layout : Nat} (inside : ∀ t, .token t ∈ xs → t.isComment = false)
    (h : .reduce r xs.length layout ∈ ((s.through xs).row.entry t).actions) :
    Levelled layout s xs t r := by
  cases weighed : r.isWeighed with
  | false => exact levelled_of_not_isWeighed weighed
  | true =>
    have ne : s.through xs ≠ errorState := State.ne_errorState_of_reduce h
    have mem : xs ∈ sequences (State.lastSymbols xs.length [s.through xs]) :=
      State.mem_lastSymbols inside ne (List.mem_singleton_self _)
    obtain ⟨ts, known, checked⟩ := State.reduction_holds (fun s ts r size layout =>
      !r.isWeighed ||
      (sequences (State.lastSymbols size [s])).all fun xs =>
        isLevelled layout xs (ts.map fun t => (Symbol.token t).demand).eraseDups
          ((sortedEdges.find s).map Edge.source).eraseDups r) reductions_levelled h
    rw [weighed, Bool.not_true, Bool.false_or] at checked
    have levelled := List.all_eq_true.mp checked _ mem
    simp only [isLevelled, Bool.and_eq_true, decide_eq_true_eq, List.all_eq_true] at levelled
    obtain ⟨⟨⟨before, first⟩, last⟩, operates⟩ := levelled
    refine ⟨before _ (List.mem_eraseDups.mpr (List.mem_map_of_mem known)), first,
      fun front x same => ?_, fun mem => ?_⟩
    · have next : (s.through front).next x = s.through xs := by
        rw [same, State.through_append]
        rfl
      have edge : ⟨s.through front, x, (s.through front).next x⟩ ∈
          sortedEdges.find ((s.through front).next x) := by
        refine EdgeTree.mem_find_sort (mem_edges (next ▸ ne) fun t isToken => inside t ?_)
        rw [same, ← isToken]
        exact List.mem_append_right _ (List.mem_singleton_self x)
      rw [next] at edge
      exact last _ (List.mem_eraseDups.mpr (List.mem_map.mpr ⟨_, edge, Eq.refl _⟩))
    · rw [List.contains_iff_mem.mpr mem] at operates
      exact operates

/-! ### Operators -/

theorem operators_levelled :
    (edges.all fun e => !e.symbol.isOperand || e.source.demand == .compare || Token.all.all fun t =>
      match t.level? with
      | some k => e.target.next (.token t) == errorState || decide (e.source.demand ≤ k)
      | none => true) = true := by
  decide +kernel

/-- Behind an operand there is no operator that binds less strongly than the state before the
operand demands. -/
theorem State.demand_le_of_next {s : State} {x : Symbol} {t : Token} {k : Level}
    (operand : x.isOperand = true) (ne : (s.next x).next (.token t) ≠ errorState)
    (level : t.level? = some k) : s.demand ≤ k := by
  have inside : ∀ t, x = .token t → t.isComment = false := by
    rintro t rfl
    cases t <;> first | rfl | cases operand
  have before : s.next x ≠ errorState := by
    intro same
    rw [same, State.next_errorState] at ne
    exact ne rfl
  have checked := List.all_eq_true.mp operators_levelled _ (mem_edges before inside)
  rw [operand, Bool.not_true, Bool.false_or] at checked
  rcases Bool.or_eq_true_iff.mp checked with lowest | checked
  · rw [eq_of_beq lowest]
    exact Level.compare_le k
  · have found := List.all_eq_true.mp checked t (Token.mem_all t)
    rw [level] at found
    rcases Bool.or_eq_true_iff.mp found with none | enough
    · exact absurd (eq_of_beq none) ne
    · exact of_decide_eq_true enough

/-- What a rule is reduced to is strong enough for the state that it comes in. -/
theorem State.demand_le_level {s : State} {xs : List Symbol} {r : Rule} {layout : Nat}
    (operates : r ∈ Rule.operations → r.operates layout xs = true)
    (ne : s.through xs ≠ errorState) : s.demand ≤ r.level xs := by
  cases r with
  | binaryOp =>
    obtain ⟨left, t, right, k, rfl, operand, level⟩ := Rule.operates_binaryOp (operates (by decide))
    have shifts : (s.next left).next (.token t) ≠ errorState := by
      intro same
      change ((s.next left).next (.token t)).next right ≠ errorState at ne
      rw [same, State.next_errorState] at ne
      exact ne rfl
    have isLevel : Rule.binaryOp.level [left, .token t, right] = k := by
      change (t.level?).getD .compare = k
      rw [level]
      rfl
    rw [isLevel]
    exact State.demand_le_of_next operand shifts level
  | unaryOp => exact s.demand_le_unary
  | _ => exact Level.le_whole _

end Grammar

end SusSyntax
