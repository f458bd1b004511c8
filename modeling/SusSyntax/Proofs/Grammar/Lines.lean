import SusSyntax.Proofs.Grammar.Names

/-!
The table between the objects of a source file.

Between objects a stack goes through few states, each with few others right below it (`State.layers`). So
what a reduction there finds below itself is known (`State.underneath`), and it leads on within these
states (`State.layer_of_reduce`). An object is begun on a new line by one of five keywords
(`State.begins_of_shift`); inside it no reduction reaches below the keyword, but for the one that makes
the object and one that makes its kind (`State.ends_of_reduce`).
-/

namespace SusSyntax.Grammar.State

/-- The states between objects, each with one that can be right below it. -/
def layers : List (State × State) :=
  [(1, 94), (1, 143), (94, 149), (94, 98), (143, 92), (143, 146), (149, 96), (149, 156), (146, 95),
    (146, 153), (156, 93), (156, 153), (92, 98), (93, 98), (95, 98), (96, 98), (92, 207), (93, 207),
    (95, 207), (96, 207)]

/-- The states where an object may begin: at the start of a source and behind line breaks. -/
def lineStarts : List State :=
  [1, 92, 93, 94, 95, 96]

/-- The states behind an object. -/
def lineEnds : List State :=
  [143, 146, 149, 156]

/-- The states in which something is still to be reduced, behind line breaks and behind an object. -/
def unsettled : List State :=
  [98, 153, 207]

/-- The states between objects. -/
def tops : List State :=
  lineStarts ++ lineEnds ++ unsettled

/-- Whether an object may begin in a state, maybe behind a reduction. -/
def isOpen (s : State) : Bool :=
  s == 98 || lineStarts.contains s

/-- The states that can be a number of places below others. -/
def underneath : Nat → List State → List State
  | 0, states => states
  | count + 1, states =>
    underneath count (states.flatMap fun s => (layers.filter fun e => e.2 == s).map Prod.fst)

/-- The keywords that an object begins with. -/
def objectWords : List Token :=
  [.builtinKw, .externKw, .moduleKw, .structKw, .constKw]

/-- The states behind what an object begins with: such a keyword, or its kind. -/
def objectStates : List State :=
  [169, 223, 124]

variable {s n l : State} {t : Token} {a : Action} {rule : Rule} {size layout : Nat}
  {xs : List Symbol}

theorem mem_tops_of_layer {b : State} (h : (b, s) ∈ layers) : b ∈ tops ∧ s ∈ tops := by
  have all : ∀ e ∈ layers, e.1 ∈ tops ∧ e.2 ∈ tops := by decide
  exact all _ h

/-! ### What the table says -/

/-- What is so for every action between objects: nothing is done with a name, and with no keyword but those
that begin an object; a line break opens a line, one of the keywords begins an object, and a reduction
before the end leads on between objects. -/
def isTopAction (s : State) (t : Token) (a : Action) : Bool :=
  t != .identifier && (!Token.keywords.contains t || objectWords.contains t && isOpen s) &&
    match a with
    | .shift n => t == .newline && layers.contains (s, n) && isOpen n ||
        objectWords.contains t && lineStarts.contains s && objectStates.contains n
    | .reduce .sourceFile _ _ => t == .eof
    | .reduce rule size _ => rule.isHidden && (underneath size [s]).all fun l =>
        match l.row.goto? rule with
        | some n => layers.contains (l, n) && isOpen n == isOpen s
        | none => true
    | _ => true

/-- Whether an action is a reduction of such a rule that finds states of such a kind below what it takes,
and always enough to take. -/
def reducesTo (s : State) (fits : Rule → Bool) (finds : Rule → State → Bool) : Action → Bool
  | .reduce rule size _ => fits rule &&
      (List.range size).all (fun count => !(underneath count [s]).contains startState) &&
      (underneath size [s]).all (finds rule)
  | _ => false

/-- What is so for every state between objects. -/
def isTopState (s : State) : Bool :=
  Nat.blt s stateCount && s.lexMode == startState.lexMode &&
    (!isOpen s || objectWords.all fun t => s.knows (.token t)) &&
    Token.all.all fun t => (s.row.entry t).actions.all (isTopAction s t)

/-- What is so where an object may begin: objects begin as in the first state, and an object ends the line
that it began on. -/
def isLineStart (s : State) : Bool :=
  (objectWords.all fun t => (s.row.entry t).actions == (startState.row.entry t).actions) &&
    s.row.goto? .constAndType == some 223 &&
    layers.any fun e => e.1 == s && !isOpen e.2 && s.row.goto? .globalObject == some e.2

/-- What is so where nothing is to be reduced before the end: a line break opens a line, and at the end of
a source all that was read is taken for its root. -/
def isSettled (s : State) : Bool :=
  (layers.any fun e => e.1 == s && isOpen e.2 &&
      (s.row.entry .newline).actions.contains (.shift e.2)) &&
    (s.row.entry .eof).actions.any (reducesTo s (· == .sourceFile) fun _ l => l == startState)

/-- What is so where something is still to be reduced: it is done before any token that can be ahead. -/
def isUnsettled (s : State) : Bool :=
  ((.newline :: .eof :: if isOpen s then objectWords else []).all fun t =>
    (s.row.entry t).actions.any (reducesTo s (· != .sourceFile) fun rule l =>
      (l.row.goto? rule).any fun n => n == 153 && s == 207 || (lineStarts ++ lineEnds).contains n))

theorem states_hold : (∀ s ∈ tops, isTopState s = true) ∧ (∀ s ∈ lineStarts, isLineStart s = true) ∧
    (∀ s ∈ lineStarts ++ lineEnds, isSettled s = true) ∧ ∀ s ∈ unsettled, isUnsettled s = true := by
  decide +kernel

theorem isTopState_of_mem (top : s ∈ tops) : s < stateCount ∧ s.lexMode = startState.lexMode ∧
    (isOpen s = true → ∀ t ∈ objectWords, s.knows (.token t) = true) ∧
    ∀ t a, a ∈ (s.row.entry t).actions → isTopAction s t a = true := by
  have known := states_hold.1 s top
  simp only [isTopState, Bool.and_eq_true, Nat.blt_eq, beq_iff_eq, Bool.or_eq_true, Bool.not_eq_true',
    List.all_eq_true] at known
  obtain ⟨⟨⟨bound, mode⟩, knows⟩, actions⟩ := known
  refine ⟨bound, mode, fun opened => knows.resolve_left ?_, fun t => actions t (Token.mem_all t)⟩
  rw [opened]
  exact Bool.noConfusion

theorem exists_of_reducesTo {fits : Rule → Bool} {finds : Rule → State → Bool} {as : List Action}
    (h : as.any (reducesTo s fits finds) = true) : ∃ rule size layout,
      .reduce rule size layout ∈ as ∧ fits rule = true ∧
        (∀ count < size, startState ∉ underneath count [s]) ∧
        ∀ l ∈ underneath size [s], finds rule l = true := by
  obtain ⟨a, mem, known⟩ := List.any_eq_true.mp h
  cases a with
  | reduce rule size layout =>
    simp only [reducesTo, Bool.and_eq_true, List.all_eq_true, List.mem_range, Bool.not_eq_true',
      List.contains_eq_mem, decide_eq_false_iff_not] at known
    exact ⟨rule, size, layout, mem, known.1.1, known.1.2, known.2⟩
  | shift | shiftExtra | shiftRepeat | accept | recover => cases known

/-! ### Between objects -/

/-- A reduction between objects leads on between objects, and makes a node that is not shown. -/
theorem layer_of_reduce (top : s ∈ tops) (h : .reduce rule size layout ∈ (s.row.entry t).actions)
    (ne : rule ≠ .sourceFile) (below : l ∈ underneath size [s]) (goto : l.row.goto? rule = some n) :
    rule.isHidden = true ∧ (l, n) ∈ layers ∧ isOpen n = isOpen s := by
  have known := (Bool.and_eq_true_iff.mp ((isTopState_of_mem top).2.2.2 _ _ h)).2
  have holds : (rule.isHidden && (underneath size [s]).all fun l =>
      match l.row.goto? rule with
      | some n => layers.contains (l, n) && isOpen n == isOpen s
      | none => true) = true := by
    cases rule <;> first | exact absurd rfl ne | exact known
  obtain ⟨hidden, all⟩ := Bool.and_eq_true_iff.mp holds
  have here := List.all_eq_true.mp all l below
  rw [goto] at here
  simp only [Bool.and_eq_true, List.contains_iff_mem, beq_iff_eq] at here
  exact ⟨hidden, here⟩

/-- A token is shifted between objects if it is a line break, or a keyword that begins an object. -/
theorem begins_of_shift (top : s ∈ tops) (h : .shift n ∈ (s.row.entry t).actions) :
    t = .newline ∧ (s, n) ∈ layers ∧ isOpen n = true ∨
      t ∈ objectWords ∧ s ∈ lineStarts ∧ n ∈ objectStates := by
  have known := (Bool.and_eq_true_iff.mp ((isTopState_of_mem top).2.2.2 _ _ h)).2
  simpa only [Bool.or_eq_true, Bool.and_eq_true, List.contains_iff_mem, beq_iff_eq, and_assoc] using known

/-- Between objects nothing is done with a name, and with no keyword but those that begin an object. -/
theorem word_of_mem (top : s ∈ tops) (h : a ∈ (s.row.entry t).actions) :
    t ≠ .identifier ∧ (t ∈ Token.keywords → t ∈ objectWords ∧ isOpen s = true) := by
  have known := (Bool.and_eq_true_iff.mp ((isTopState_of_mem top).2.2.2 _ _ h)).1
  simpa [Decidable.imp_iff_not_or] using known

/-- What is to be done before another token or the end is done at once. -/
theorem settles (state : s ∈ unsettled)
    (ahead : t = .newline ∨ t = .eof ∨ t ∈ objectWords ∧ isOpen s = true) :
    ∃ rule size layout, .reduce rule size layout ∈ (s.row.entry t).actions ∧ rule ≠ .sourceFile ∧
      (∀ count < size, startState ∉ underneath count [s]) ∧
      ∀ l ∈ underneath size [s], ∃ n, l.row.goto? rule = some n ∧
        (n = 153 ∧ s = 207 ∨ n ∈ lineStarts ++ lineEnds) := by
  have mem : t ∈ Token.newline :: .eof :: if isOpen s then objectWords else [] := by
    rcases ahead with rfl | rfl | ⟨word, opened⟩
    · simp
    · simp
    · simp [opened, word]
  obtain ⟨rule, size, layout, admits, fits, deep, finds⟩ :=
    exists_of_reducesTo (List.all_eq_true.mp (states_hold.2.2.2 s state) t mem)
  refine ⟨rule, size, layout, admits, by simpa using fits, deep, fun l below => ?_⟩
  obtain ⟨n, goto, known⟩ := (Option.any_eq_true ..).mp (finds l below)
  exact ⟨n, goto, by simpa using known⟩

/-- A line break opens a line. -/
theorem shift_newline (settled : s ∈ lineStarts ++ lineEnds) :
    ∃ n, .shift n ∈ (s.row.entry .newline).actions ∧ (s, n) ∈ layers ∧ isOpen n = true := by
  obtain ⟨opens, -⟩ := Bool.and_eq_true_iff.mp (states_hold.2.2.1 s settled)
  obtain ⟨e, mem, known⟩ := List.any_eq_true.mp opens
  simp only [Bool.and_eq_true, beq_iff_eq, List.contains_iff_mem] at known
  obtain ⟨⟨rfl, isOpen⟩, shift⟩ := known
  exact ⟨e.2, shift, mem, isOpen⟩

/-- At the end of a source all that was read is taken for its root. -/
theorem reduce_eof (settled : s ∈ lineStarts ++ lineEnds) :
    ∃ size layout, .reduce .sourceFile size layout ∈ (s.row.entry .eof).actions ∧
      (∀ count < size, startState ∉ underneath count [s]) ∧
      ∀ l ∈ underneath size [s], l = startState := by
  obtain ⟨-, ends⟩ := Bool.and_eq_true_iff.mp (states_hold.2.2.1 s settled)
  obtain ⟨rule, size, layout, admits, fits, deep, finds⟩ := exists_of_reducesTo ends
  obtain rfl := eq_of_beq fits
  exact ⟨size, layout, admits, deep, fun l below => eq_of_beq (finds l below)⟩

/-- The root ends a parse. -/
theorem root_ends : startState.row.goto? .sourceFile = some 225 ∧
    ((225 : State).row.entry .eof).actions = [.accept] := by
  decide +kernel

/-! ### Objects -/

/-- The keywords begin an object in the same way on every line. -/
theorem shift_word {s' : State} (start : s ∈ lineStarts) (start' : s' ∈ lineStarts)
    (word : t ∈ objectWords) (h : .shift n ∈ (s.row.entry t).actions) :
    .shift n ∈ (s'.row.entry t).actions := by
  have same {s : State} (start : s ∈ lineStarts) :
      (s.row.entry t).actions = (startState.row.entry t).actions := by
    have known := (Bool.and_eq_true_iff.mp (Bool.and_eq_true_iff.mp (states_hold.2.1 s start)).1).1
    exact eq_of_beq (List.all_eq_true.mp known t word)
  rw [same start] at h
  rwa [same start']

/-- An object ends the line that it began on. -/
theorem goto_object (start : s ∈ lineStarts) :
    ∃ n, s.row.goto? .globalObject = some n ∧ (s, n) ∈ layers ∧ isOpen n = false := by
  obtain ⟨-, ends⟩ := Bool.and_eq_true_iff.mp (states_hold.2.1 s start)
  obtain ⟨e, mem, known⟩ := List.any_eq_true.mp ends
  simp only [Bool.and_eq_true, beq_iff_eq, Bool.not_eq_true'] at known
  obtain ⟨⟨rfl, isClosed⟩, goto⟩ := known
  exact ⟨e.2, goto, mem, isClosed⟩

theorem goto_kind (start : s ∈ lineStarts) : s.row.goto? .constAndType = some 223 :=
  eq_of_beq (Bool.and_eq_true_iff.mp (Bool.and_eq_true_iff.mp (states_hold.2.1 s start)).1).2

/-- Whether a rule may be reduced from what leads to a state: inside an object it stays within what
follows the beginning, unless it is the object, or the kind of object. -/
def staysInside (s : State) (rule : Rule) (size : Nat) : Bool :=
  (List.range size).all fun count => !(before count [s]).any objectStates.contains ||
    count + 1 == size && (rule == .globalObject || rule == .constAndType)

/-- Inside an object a reduction stays behind its beginning, but for the one that makes the object and one
that makes its kind. -/
theorem ends_of_reduce (inside : ∀ t, .token t ∈ xs → t.isComment = false) (start : s ∈ objectStates)
    (way : s.through xs = n) (h : .reduce rule size layout ∈ (n.row.entry t).actions) :
    size ≤ xs.length + 1 ∧ (size = xs.length + 1 → rule = .globalObject ∨ rule = .constAndType) := by
  have fits := reductionsIn_holds staysInside (by decide +kernel) h
  have below := mem_before inside (way ▸ ne_errorState_of_reduce h) (List.mem_singleton.mpr way)
  have known (less : xs.length < size) : xs.length + 1 = size ∧
      (rule = .globalObject ∨ rule = .constAndType) := by
    have here := List.all_eq_true.mp fits _ (List.mem_range.mpr less)
    have begun : (before xs.length [n]).any objectStates.contains = true :=
      List.any_eq_true.mpr ⟨s, below, List.contains_iff_mem.mpr start⟩
    simpa [begun] using here
  refine ⟨?_, fun same => (known (by omega)).2⟩
  rcases Nat.lt_or_ge xs.length size with less | more
  · exact Nat.le_of_eq (known less).1.symm
  · exact Nat.le_succ_of_le more

/-- What is so for every action of the table: nothing leads back to the first state, only the root to the
last one and only at the end of a source, and what else the end leads to, a line break leads to as well. -/
def isOuterAction (s : State) (t : Token) : Action → Bool
  | .shift n => n != startState && n != 225
  | .reduce .sourceFile _ _ => t == .eof
  | .reduce rule size layout =>
    t != .eof || (s.row.entry .newline).actions.contains (.reduce rule size layout)
  | _ => true

theorem isOuterAction_of_mem (h : a ∈ (s.row.entry t).actions) : isOuterAction s t a = true :=
  action_holds (fun s t _ a => isOuterAction s t a) (by decide +kernel) h

/-- Only the end of a source leads to its root. -/
theorem sourceFile_spec (h : .reduce .sourceFile size layout ∈ (s.row.entry t).actions) : t = .eof :=
  eq_of_beq (isOuterAction_of_mem h)

/-- What the end of a source leads to, but for its root, a line break leads to as well. -/
theorem reduce_newline_of_eof (h : .reduce rule size layout ∈ (s.row.entry .eof).actions)
    (ne : rule ≠ .sourceFile) : .reduce rule size layout ∈ (s.row.entry .newline).actions := by
  have known := isOuterAction_of_mem h
  have holds : (Token.eof != .eof ||
      (s.row.entry .newline).actions.contains (.reduce rule size layout)) = true := by
    cases rule <;> first | exact absurd rfl ne | exact known
  simpa using holds

theorem inner_of_shift (h : .shift n ∈ (s.row.entry t).actions) : n ≠ startState ∧ n ≠ acceptState := by
  rw [acceptState_eq]
  simpa [isOuterAction] using isOuterAction_of_mem h

/-- Only the root leads to the last state, and only in the first one. -/
theorem outer_of_goto (h : s.row.goto? rule = some n) : n ≠ startState ∧
    (rule = .sourceFile → s = startState) ∧ (rule ≠ .sourceFile → n ≠ acceptState) := by
  have holds := goto_holds (fun s rule n => n != startState &&
    if rule = .sourceFile then s == startState else n != 225) (by decide) h
  obtain ⟨inner, known⟩ := Bool.and_eq_true_iff.mp holds
  rw [acceptState_eq]
  refine ⟨by simpa using inner, fun same => ?_, fun ne => ?_⟩
  · rw [if_pos same] at known
    exact eq_of_beq known
  · rw [if_neg ne] at known
    simpa using known

end SusSyntax.Grammar.State
