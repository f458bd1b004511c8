import SusSyntax.Proofs.Grammar.Reducible

/-!
Names and keywords in the table.

Where a keyword leads to reductions and an identifier may come behind them, the identifier leads to the
same reductions (`State.mem_identifier_of_keyword`); and where an identifier leads to reductions, a keyword
does so too or has no place there, but for the modifiers of a write (`State.keyword_of_identifier`). So
before a name that a construct is called by, all keywords are taken in the same way as an identifier. The
other identifiers are those in paths of names (`State.pathStates`), which stand in nodes of their own
(`State.path_of_reduce`).
-/

namespace SusSyntax.Grammar.State

/-- The states behind an identifier in a path of names, or in the type of a template argument. -/
def pathStates : List State :=
  [12, 16, 103]

/-- The rules that hold such identifiers. -/
def pathRules : List Rule :=
  [.namespaceList, .namespaceListItems, .templateDeclarationType]

variable {s n m : State} {t : Token} {x : Symbol} {rule : Rule} {size layout : Nat}
  {xs ys zs : List Symbol}

/-! ### Paths of names -/

/-- Whether a rule may be reduced from what leads to a state: an identifier in a path of names is only
among it if the rule is one of those, and the rest of a path only in a path. -/
def fitsPaths (s : State) (rule : Rule) (size : Nat) : Bool :=
  (List.range size).all fun count => (edgesInto (before count [s])).all fun e =>
    (!pathStates.contains e.target || pathRules.contains rule) &&
      (e.symbol != .rule .namespaceListItems ||
        rule == .namespaceList || rule == .namespaceListItems)

/-- Paths of names stand in nodes of their own. -/
theorem path_of_reduce (inside : ∀ t, .token t ∈ ys ++ x :: zs → t.isComment = false)
    (way : s.through (ys ++ x :: zs) = n)
    (h : .reduce rule (ys ++ x :: zs).length layout ∈ (n.row.entry t).actions) :
    ((s.through ys).next x ∈ pathStates → rule ∈ pathRules) ∧
      (x = .rule .namespaceListItems → rule = .namespaceList ∨ rule = .namespaceListItems) := by
  have fits := reductionsIn_holds fitsPaths (by decide +kernel) h
  have split : (s.through (ys ++ [x])).through zs = n := by
    rw [← through_append, List.append_assoc]
    exact way
  have ne : n ≠ errorState := ne_errorState_of_reduce h
  have here : (s.through ys).next x ≠ errorState := by
    intro same
    rw [through_append, show (s.through ys).through [x] = (s.through ys).next x from rfl, same,
      through_errorState] at split
    exact ne split.symm
  have below := mem_before (fun t mem => inside t (by simp [mem])) (split.symm ▸ ne)
    (List.mem_singleton.mpr split)
  rw [through_append] at below
  have edge : ⟨s.through ys, x, (s.through ys).next x⟩ ∈ edgesInto (before zs.length [n]) :=
    List.mem_flatMap.mpr ⟨_, below, EdgeTree.mem_find_sort (mem_edges here fun t same =>
      inside t (by simp [same]))⟩
  have bound : zs.length < (ys ++ x :: zs).length := by
    rw [List.length_append, List.length_cons]
    omega
  have holds := List.all_eq_true.mp (List.all_eq_true.mp fits _ (List.mem_range.mpr bound)) _ edge
  simp only [Bool.and_eq_true, Bool.or_eq_true, Bool.not_eq_true', bne_iff_ne, beq_iff_eq, or_assoc] at holds
  obtain ⟨path, rest⟩ := holds
  refine ⟨fun mem => ?_, fun same => rest.resolve_left (fun ne => ne same)⟩
  rcases path with notPath | known
  · rw [List.contains_iff_mem.mpr mem] at notPath
    cases notPath
  · exact List.contains_iff_mem.mp known

/-! ### Keywords before names -/

/-- What a keyword leads to, an identifier leads to as well if it can come behind it. -/
theorem mem_identifier_of_keyword (keyword : t ∈ Token.keywords)
    (inside : ∀ t, .token t ∈ xs → t.isComment = false) (way : s.through xs = n)
    (h : .reduce rule xs.length layout ∈ (n.row.entry t).actions)
    (goto : s.row.goto? rule = some m) (some : (m.row.entry .identifier).actions ≠ []) :
    .reduce rule xs.length layout ∈ (n.row.entry .identifier).actions := by
  have holds := action_holds (fun s t _ a => !Token.keywords.contains t ||
    (s.row.entry .identifier).actions.contains a || a.reduced?.all fun r =>
      (before r.2 [s]).all fun q => (q.row.goto? r.1).all fun m =>
        (m.row.entry .identifier).isEmpty) (by decide +kernel) h
  have below := mem_before inside (way ▸ ne_errorState_of_reduce h) (List.mem_singleton.mpr way)
  simp only [List.contains_iff_mem.mpr keyword, Bool.not_true, Bool.false_or, Bool.or_eq_true,
    List.contains_iff_mem, Action.reduced?, Option.all_some] at holds
  refine holds.resolve_right fun none => some ?_
  have empty := List.all_eq_true.mp none s below
  rw [goto, Option.all_some] at empty
  exact List.isEmpty_iff.mp empty

/-- Where an identifier leads to a reduction, a keyword does so too or has no place. -/
theorem keyword_of_identifier (keyword : t ∈ Token.keywords)
    (h : .reduce rule size layout ∈ (s.row.entry .identifier).actions) :
    (s.row.entry t).actions = [] ∨ .reduce rule size layout ∈ (s.row.entry t).actions ∨
      rule = .writeModifiers := by
  have holds := row_holds (fun _ r => (r.entry .identifier).actions.all fun a =>
    a.reduced?.all fun reduced => reduced.1 == .writeModifiers || Token.keywords.all fun k =>
      (r.entry k).isEmpty || (r.entry k).actions.contains a) (by decide)
    (lt_of_mem_actions h)
  have known := List.all_eq_true.mp holds _ h
  simp only [Action.reduced?, Option.all_some] at known
  rcases Bool.or_eq_true_iff.mp known with same | all
  · exact .inr (.inr (eq_of_beq same))
  · rcases Bool.or_eq_true_iff.mp (List.all_eq_true.mp all t keyword) with empty | mem
    · exact .inl (List.isEmpty_iff.mp empty)
    · exact .inr (.inl (List.contains_iff_mem.mp mem))

/-- Behind the modifiers of a write an identifier begins a path of names. -/
theorem identifier_of_writeModifiers (goto : s.row.goto? .writeModifiers = some n) :
    (n.row.entry .identifier).actions = [.shift 12] := by
  have holds := goto_holds (fun _ rule n => rule != .writeModifiers ||
    (n.row.entry .identifier).actions == [.shift 12]) (by decide +kernel) goto
  simpa using holds

/-- Where a name stands that is none in a path, keywords have no place. -/
theorem keyword_of_name (keyword : t ∈ Token.keywords)
    (h : .shift n ∈ (s.row.entry .identifier).actions) (name : n ∉ pathStates) :
    (s.row.entry t).actions = [] := by
  obtain ⟨leads, ne⟩ := next_of_shift h
  have holds := next_holds (fun s x n => x != .token .identifier || pathStates.contains n ||
    Token.keywords.all fun k => (s.row.entry k).isEmpty) (by decide +kernel) (by decide +kernel)
    (leads.symm ▸ ne)
  simp only [leads, bne_self_eq_false, Bool.false_or, Bool.or_eq_true, List.contains_iff_mem, name,
    false_or] at holds
  exact List.isEmpty_iff.mp (List.all_eq_true.mp holds t keyword)

/-- Behind a number there is no name. -/
theorem identifier_of_number (h : .shift n ∈ (s.row.entry .number).actions) :
    (n.row.entry .identifier).actions = [] := by
  obtain ⟨leads, ne⟩ := next_of_shift h
  have holds := next_holds (fun _ x n => x != .token .number || (n.row.entry .identifier).isEmpty)
    (by decide +kernel) (by decide +kernel) (leads.symm ▸ ne)
  simp only [leads, bne_self_eq_false, Bool.false_or] at holds
  exact List.isEmpty_iff.mp holds

example : (row 177).entry .identifier = .shared (.shift 101) := by decide +kernel

end SusSyntax.Grammar.State
