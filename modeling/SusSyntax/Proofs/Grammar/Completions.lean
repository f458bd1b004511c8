import SusSyntax.Proofs.Grammar.Progress
import SusSyntax.Proofs.Grammar.Reading

/-!
What has been shifted can be completed.

In every state something short is still to come of a phrase (`State.toCome?`), behind which the table
reduces the phrase if one of a few tokens follows (`State.closers`). The table is checked once for
all states: whatever lies under the phrase, the state behind the reduction is one that can be closed
in turn, before tokens that the reduction is made at, and the stack has become lighter. So by
induction on the weight of a stack each of them can be closed down to the state that accepts
(`Machine.IsStack.isClosable`), and whatever the machine shifts is the beginning of a sequence that it
accepts (`Machine.exists_completion`).
-/

namespace SusSyntax.Grammar

/-! ### Samples -/

namespace Goal

/-- The tokens of a short phrase for some of the goals. -/
def sample : Goal → List Token
  | .token t => [t]
  | .rule .block => [.lbrace, .rbrace]
  | .rule .globalObject => [.moduleKw, .identifier, .lbrace, .rbrace]
  | .rule .declarationList | .rule .declaration => [.identifier, .identifier]
  | .rule .assignTo | .type | .rule .templateArg | .rule .namespaceList => [.identifier]
  | _ => []

theorem reads_way (r : Rule) (gs : List Goal) {g : Goal} {w : List Token} (mem : (r, gs) ∈ g.ways)
    (h : ReadsAll gs w) : Reads g w :=
  .way mem h

theorem reads_namespaceList : Reads (.rule .namespaceList) [.identifier] :=
  reads_way .namespaceList [.token .identifier] (by decide)
    (readsAll_singleton_iff.mpr .token)

theorem reads_templateGlobal : Reads (.rule .templateGlobal) [.identifier] :=
  reads_way .templateGlobal [.rule .namespaceList] (by decide)
    (readsAll_singleton_iff.mpr reads_namespaceList)

theorem reads_type : Reads .type [.identifier] :=
  .unit List.mem_cons_self reads_templateGlobal

theorem reads_block : Reads (.rule .block) [.lbrace, .rbrace] :=
  reads_way .block [.token .lbrace, .token .rbrace] (by decide)
    (readsAll_pair_iff.mpr ⟨[.lbrace], [.rbrace], rfl, .token, .token⟩)

theorem reads_declaration : Reads (.rule .declaration) [.identifier, .identifier] :=
  reads_way .declaration [.type, .token .identifier] (by decide)
    (readsAll_pair_iff.mpr ⟨[.identifier], [.identifier], rfl, reads_type, .token⟩)

/-- A goal with a sample can be read from it. -/
theorem reads_sample {g : Goal} (some : g.sample ≠ []) : Reads g g.sample := by
  unfold sample at some ⊢
  split
  · exact .token
  · exact reads_block
  · exact reads_way .globalObject
      [.token .moduleKw, .token .identifier, .rule .block] (by decide)
      (.cons .token (.cons .token (readsAll_singleton_iff.mpr reads_block)))
  · exact reads_way .declarationList [.rule .declaration] (by decide)
      (readsAll_singleton_iff.mpr reads_declaration)
  · exact reads_declaration
  · have atom : Reads (.operand .sign) [.identifier] :=
      .unit List.mem_cons_self (.atom_of_rule reads_templateGlobal List.mem_cons_self)
    exact reads_way .assignTo [.operand .comparison] (by decide)
      (readsAll_singleton_iff.mpr (isChain_of_sign atom).reads)
  · exact reads_type
  · exact reads_way .templateArg [.token .identifier] (by decide)
      (readsAll_singleton_iff.mpr .token)
  · exact reads_namespaceList
  · simp at some

end Goal

/-! ### Closing a state -/

namespace State

/-- A set of states, as a number with a bit for each state. -/
def states : List State → Nat
  | [] => 0
  | s :: rest => 2 ^ s ||| states rest

/-- What is still to come of a phrase, and the states where it is. -/
def openings : List (Goal × Nat) :=
  [(.token .rbrace, states [2, 3, 4, 5, 6, 7, 8, 9, 127, 129, 144, 147, 148, 154, 155, 160]),
   (.rule .block, states [10, 53, 56, 135, 157, 158, 195, 199]),
   (.rule .assignTo, states [11]),
   (.token .number, states [46, 54, 59, 60, 61, 62, 63, 64, 65, 66, 67, 68, 69, 70, 71, 72, 75]),
   (.token .rparen, states [48, 55, 76, 84, 86, 109, 111, 115, 116, 118, 119, 122, 125, 128, 133,
     166, 176, 178, 183, 185, 186, 187, 189, 190]),
   (.token .rbracket, states [73]),
   (.token .dotDot, states [74]),
   (.rule .declarationList, states [82, 83, 87, 88]),
   (.rule .declaration, states [89, 90, 91]),
   (.rule .globalObject, states [97]),
   (.type, states [104, 110, 114, 123, 124]),
   (.token .moduleKw, states [169]),
   (.token .identifier, states [177, 180, 181, 182, 215, 221, 223, 224, 226, 229]),
   (.rule .templateArg, states [193]),
   (.rule .namespaceList, states [196]),
   (.token .inKw, states [213])]

/-- The tokens before which a phrase that is all there is closed, and the states where it is. -/
def closings : List (List Token × Nat) :=
  [([.eof], states [1, 92, 93, 94, 95, 96, 143, 146, 149, 153, 156, 192, 194, 205, 206, 207, 225]),
   ([.lbrace, .rbrace, .rparen, .rbracket, .dotDot, .inKw, .identifier], states [12, 13, 14, 15,
     16, 17, 26, 27, 28, 29, 30, 31, 32, 33, 34, 35, 36, 37, 38]),
   ([.lbrace, .rbrace, .rparen, .rbracket, .dotDot, .inKw], states [18, 19, 20, 21, 22, 23, 24, 39,
     40, 41, 42, 43, 44, 45]),
   ([.lbrace, .rbrace, .rparen, .identifier, .number], states [25]),
   ([.rbrace, .rparen, .inKw], states [47, 99, 100, 101, 102, 105, 106, 107, 108]),
   ([.rbrace], states [49, 50, 51, 57, 112, 113, 117, 120, 121, 126, 137, 139, 141, 142, 150, 151,
     162, 170, 175, 191, 197, 198, 200, 201, 202, 203, 204, 208, 209, 210, 211]),
   ([.rparen], states [52, 58, 103, 130, 131, 132, 161, 171, 179, 184]),
   ([.identifier, .number], states [77, 78]),
   ([.number], states [79, 80, 81, 85]),
   ([.eof, .moduleKw, .rparen], states [98]),
   ([.rparen, .identifier], states [134]),
   ([.eof, .rbrace], states [136, 138, 140, 145, 152, 159, 163, 164, 165, 167, 168, 172, 173, 174]),
   ([.identifier], states [188]),
   ([.lbrace], states [212, 214, 216, 217, 218, 219, 220, 222, 227, 228])]

/-- How long it takes to close the phrases that each state stands in; a state on a stack counts as
much as eight of these. -/
def efforts : List Nat :=
  [0, 9, 11, 9, 9, 9, 9, 9, 9, 9, 11, 9, 49, 41, 34, 40, 34, 48, 27, 19, 19, 19, 19, 19, 19, 27,
   17, 33, 40, 32, 17, 17, 9, 25, 25, 25, 9, 9, 1, 27, 27, 20, 19, 12, 4, 19, 12, 23, 21, 3, 11,
   12, 19, 9, 28, 29, 9, 0, 6, 9, 28, 28, 28, 28, 28, 28, 18, 32, 36, 36, 37, 43, 18, 34, 27, 15,
   28, 21, 29, 6, 13, 14, 9, 9, 11, 13, 9, 9, 9, 11, 9, 54, 0, 0, 1, 0, 0, 9, 19, 30, 22, 38, 30,
   10, 48, 22, 30, 22, 14, 26, 20, 9, 0, 1, 40, 34, 18, 10, 9, 9, 2, 0, 26, 48, 20, 9, 0, 9, 34,
   9, 2, 11, 19, 42, 40, 9, 0, 0, 0, 2, 0, 2, 0, 1, 9, 0, 0, 9, 9, 0, 11, 3, 0, 0, 9, 9, 0, 9, 9,
   0, 9, 35, 0, 0, 2, 0, 13, 0, 0, 27, 0, 6, 0, 0, 0, 0, 9, 47, 26, 19, 39, 31, 39, 10, 2, 9, 18,
   9, 11, 18, 9, 2, 0, 28, 0, 9, 49, 0, 2, 9, 0, 0, 0, 0, 0, 0, 0, 0, 0, 2, 0, 0, 0, 45, 0, 11, 0,
   0, 0, 2, 0, 28, 0, 18, 18, 0, 11, 0, 0, 43]

/-- What is still to come in a state of the phrase that it stands in. -/
def toCome? (s : State) : Option Goal :=
  (openings.find? (·.2.testBit s)).map Prod.fst

/-- The tokens that a state can be closed with. -/
def closers (s : State) : List Token :=
  match s.toCome? with
  | some g => g.sample.take 1
  | none => ((closings.find? (·.2.testBit s)).map Prod.fst).getD []

/-- How long it takes to close the phrases that a state stands in. -/
def effort (s : State) : Nat :=
  efforts[s]?.getD 0

/-- Whether a state can be closed with all that a state behind it can be closed with, and takes
longer. -/
def leadsOn (s n : State) (size : Nat) : Bool :=
  (TokenSet.ofTokens n.closers).isSubset (.ofTokens s.closers) && Nat.blt (8 + n.effort) (8 * size + s.effort)

/-- Whether a state reduces before all the tokens it can be closed with, and leads on whatever lies
under the children. -/
def isClosedBy (s : State) (rule : Rule) (size : Nat) : Bool :=
  (TokenSet.ofTokens s.closers).isSubset (s.reducing rule size) &&
    ((before size [s]).map fun q => ((rowTree.find q).goto? rule).getD errorState).eraseDups.all
      fun n => s.leadsOn n size

/-- Whether a state accepts, or can be closed with what is to come or by a reduction. -/
def isClosable (s : State) : Bool :=
  match s.toCome? with
  | some g => workOut (s.after g) fun n =>
      s.expects g && (TokenSet.ofTokens (closers n)).isSubset (s.allowed g) &&
        Nat.blt (8 + effort n) s.effort && !g.sample.isEmpty && !(closers n).isEmpty
  | none => s.closers.head?.any fun t => ((rowTree.find s).entry t).actions.any fun
      | .accept => s.closers == [.eof]
      | .reduce rule size _ => s.isClosedBy rule size
      | _ => false

theorem closable_all :
    (rows.zipIdx.all fun x => workOut x.2 fun s => s == errorState || isClosable s) = true := by
  decide +kernel

variable {s n : State} {t : Token}

theorem isClosable_of_lt (h : s < stateCount) (ne : s ≠ errorState) : s.isClosable = true := by
  have holds := row_holds (fun s _ => workOut s fun s => s == errorState || isClosable s)
    closable_all h
  simpa [ne] using holds

theorem has_closers : (TokenSet.ofTokens s.closers).has t = true ↔ t ∈ s.closers :=
  TokenSet.has_ofTokens

theorem leadsOn_spec {size : Nat} (h : s.leadsOn n size = true) :
    (∀ t ∈ n.closers, t ∈ s.closers) ∧ 8 + n.effort < 8 * size + s.effort := by
  obtain ⟨subset, lighter⟩ := Bool.and_eq_true_iff.mp h
  exact ⟨fun t mem => has_closers.mp (TokenSet.has_of_isSubset subset (has_closers.mpr mem)),
    Nat.blt_eq.mp lighter⟩

end State

namespace Machine

variable {s n q : State} {below rest : List State} {w : List Token} {rule : Rule} {size : Nat}

/-- A stack from which a run accepts what begins with one of the tokens that close its topmost state.
-/
def IsClosable : List State → Prop
  | [] => False
  | s :: below => ∃ v, v.headD .eof ∈ s.closers ∧ Succeeds ⟨s :: below, v⟩

theorem Succeeds.of_run {c d : Config} {xs : List Action} (run : Run c xs d) (h : Succeeds d) :
    Succeeds c := by
  obtain ⟨ys, e, run', accepts⟩ := h
  exact ⟨xs ++ ys, e, run.trans run', accepts⟩

theorem accepts_of_mem (known : .accept ∈ (s.row.entry .eof).actions) :
    Config.accepts ⟨s :: below, []⟩ = true := by
  simpa [Config.accepts, Config.actions, Config.lookahead] using known

/-- What is still to come of a phrase can be read, and the state behind it is closed by whatever
closes that one. -/
theorem isClosable_of_toCome {g : Goal} (stack : IsStack (s :: below)) (toCome : s.toCome? = some g)
    (some : g.sample ≠ []) (expects : s.expects g = true) {t : Token} (closes : t ∈ (s.after g).closers)
    (allowed : (TokenSet.ofTokens (s.after g).closers).isSubset (s.allowed g) = true) :
    IsStack (s.after g :: s :: below) ∧
      (IsClosable (s.after g :: s :: below) → IsClosable (s :: below)) := by
  have reads {v : List Token} (closes : v.headD .eof ∈ (s.after g).closers) :=
    (Goal.reads_sample some).run s below v expects
      (TokenSet.has_of_isSubset allowed (State.has_closers.mpr closes))
  constructor
  · obtain ⟨xs, run⟩ := reads (v := [t]) closes
    exact IsStack.run (c := ⟨s :: below, _⟩) stack run
  · rintro ⟨v, closes, succeeds⟩
    obtain ⟨xs, run⟩ := reads closes
    refine ⟨g.sample ++ v, ?_, .of_run run succeeds⟩
    obtain ⟨t, rest, sample⟩ := List.exists_cons_of_ne_nil some
    rw [State.closers, toCome]
    simp [sample]

/-- A reduction that is made before all the tokens that close a state leads on. -/
theorem isClosable_of_isClosedBy (stack : IsStack (s :: below)) {t : Token} (closes : t ∈ s.closers)
    (h : s.isClosedBy rule size = true) :
    ∃ n q rest, IsStack (n :: q :: rest) ∧
      8 * (n :: q :: rest).length + n.effort < 8 * (s :: below).length + s.effort ∧
      (IsClosable (n :: q :: rest) → IsClosable (s :: below)) := by
  obtain ⟨reduces, leads⟩ := Bool.and_eq_true_iff.mp h
  have before {t : Token} (closes : t ∈ s.closers) : (s.reducing rule size).has t = true :=
    TokenSet.has_of_isSubset reduces (State.has_closers.mpr closes)
  obtain ⟨layout, known⟩ := State.exists_of_has_reducing (before closes)
  obtain ⟨above, q, rest, n, split, length, found⟩ := stack.exists_goto known
  have dropped : (s :: below).drop size = q :: rest := by
    rw [split, ← length, List.drop_left]
  have leads : s.leadsOn n size = true := by
    refine List.all_eq_true.mp leads n (List.mem_eraseDups.mpr (List.mem_map.mpr ⟨q, ?_, ?_⟩))
    · exact length ▸ stack.mem_before split
    · rw [State.find_rowTree, found]
      rfl
  obtain ⟨subset, lighter⟩ := State.leadsOn_spec leads
  refine ⟨n, q, rest, (stack.drop dropped).push found, ?_, fun ⟨v, closes, succeeds⟩ => ?_⟩
  · have height := congrArg List.length split
    simp only [List.length_append, List.length_cons] at height ⊢
    omega
  · obtain ⟨layout, known⟩ := State.exists_of_has_reducing (before (subset _ closes))
    exact ⟨v, subset _ closes, .of_run (.single (.reduce known dropped found)) succeeds⟩

/-- Every stack of the machine can be closed. -/
theorem IsStack.isClosable : ∀ {states : List State}, IsStack states → IsClosable states
  | [], stack => by
    obtain ⟨_, _, never⟩ := stack.exists_cons
    cases never
  | s :: below, stack => by
    have closable := State.isClosable_of_lt stack.lt_stateCount stack.ne_errorState
    unfold State.isClosable at closable
    split at closable
    · rename_i g toCome
      simp only [workOut_eq, Bool.and_eq_true, Bool.not_eq_true', Nat.blt_eq] at closable
      obtain ⟨⟨⟨⟨expects, allowed⟩, lighter⟩, some⟩, closed⟩ := closable
      obtain ⟨t, closes⟩ := List.exists_mem_of_ne_nil _ (List.isEmpty_eq_false_iff.mp closed)
      obtain ⟨stack', leads⟩ := isClosable_of_toCome stack toCome
        (List.isEmpty_eq_false_iff.mp some) expects closes allowed
      exact leads stack'.isClosable
    · obtain ⟨t, first, acts⟩ := (Option.any_eq_true _ _).mp closable
      obtain ⟨a, known, closable⟩ := List.any_eq_true.mp acts
      rw [State.find_rowTree] at known
      have closes : t ∈ s.closers := List.mem_of_head? first
      split at closable
      · have last : s.closers = [.eof] := eq_of_beq closable
        obtain rfl : t = .eof := by simpa [last] using closes
        exact ⟨[], closes, [], _, .done, accepts_of_mem known⟩
      · obtain ⟨n, q, rest, stack', lighter, leads⟩ := isClosable_of_isClosedBy stack closes closable
        exact leads stack'.isClosable
      · cases closable
termination_by states => 8 * states.length + (states.headD errorState).effort
decreasing_by
  · simp only [List.length_cons, List.headD_cons]
    omega
  · exact lighter

/-! ### Completing what has been shifted -/

/-- A reduction. -/
def IsReduction (a : Action) : Prop :=
  ∃ rule size layout, a = .reduce rule size layout

variable {a b c d : Config} {x : Action} {xs : List Action} {u v : List Token}

theorem Step.ahead_cases (step : Step a x b) :
    IsReduction x ∧ b.ahead = a.ahead ∨ ∃ t, a.ahead = t :: b.ahead := by
  cases step with
  | shift | shiftExtra => exact .inr ⟨_, rfl⟩
  | reduce => exact .inl ⟨⟨_, _, _, rfl⟩, rfl⟩

theorem Run.length_ahead_le (run : Run c xs d) : d.ahead.length ≤ c.ahead.length := by
  induction run with
  | done => exact Nat.le_refl _
  | step step _ ih =>
    rcases step.ahead_cases with ⟨_, same⟩ | ⟨t, split⟩
    · exact same ▸ ih
    · rw [split, List.length_cons]
      omega

/-- Where nothing is shifted, there are only reductions. -/
theorem Run.isReduction (run : Run c xs d) (same : d.ahead = c.ahead) : ∀ x ∈ xs, IsReduction x := by
  induction run with
  | done => exact fun _ mem => absurd mem List.not_mem_nil
  | step step run ih =>
    rcases step.ahead_cases with ⟨reduces, stays⟩ | ⟨t, split⟩
    · exact List.forall_mem_cons.mpr ⟨reduces, ih (same.trans stays.symm)⟩
    · have less := run.length_ahead_le
      rw [same, split, List.length_cons] at less
      omega

/-- Apart from the reductions at its end, a run depends only on what it shifts. -/
theorem Run.exists_shifted (run : Run c xs d) (shifted : c.ahead = w ++ d.ahead) :
    ∃ ys zs states, xs = ys ++ zs ∧ (∀ z ∈ zs, IsReduction z) ∧
      ∀ v, Run ⟨c.states, w ++ v⟩ ys ⟨states, v⟩ := by
  induction run generalizing w with
  | @done c =>
    obtain rfl : w = [] := by simpa using shifted
    exact ⟨[], [], c.states, rfl, nofun, fun v => .done⟩
  | @step a b d x xs step run ih =>
    cases w with
    | nil =>
      have reductions := (Run.step step run).isReduction shifted.symm
      exact ⟨[], x :: xs, a.states, rfl, reductions, fun v => .done⟩
    | cons t w =>
      cases step with
      | shift known =>
        obtain ⟨rfl, others⟩ := List.cons.inj shifted
        obtain ⟨ys, zs, states, rfl, reduces, again⟩ := ih others
        exact ⟨_ :: ys, zs, states, rfl, reduces, fun v => .step (.shift known) (again v)⟩
      | shiftExtra known =>
        obtain ⟨rfl, others⟩ := List.cons.inj shifted
        obtain ⟨ys, zs, states, rfl, reduces, again⟩ := ih others
        exact ⟨_ :: ys, zs, states, rfl, reduces, fun v => .step (.shiftExtra known) (again v)⟩
      | reduce known dropped found =>
        obtain ⟨ys, zs, states, rfl, reduces, again⟩ := ih shifted
        refine ⟨_ :: ys, zs, states, rfl, reduces, fun v => .step (.reduce ?_ dropped found) (again v)⟩
        simpa [Config.actions, Config.lookahead, shifted] using known

/-- Whatever the machine has shifted on some run is the beginning of a sequence that it accepts: with
other tokens `v` ahead the run goes on to acceptance, and apart from reductions that were made at its
end, before a token that is not shifted, it is the beginning of a run that accepts `w` and what is
put behind it. -/
theorem exists_completion {states : List State} (run : Run (.initial (w ++ u)) xs ⟨states, u⟩) :
    (∃ v, Succeeds ⟨states, v⟩) ∧
      ∃ ys zs v more, xs = ys ++ zs ∧ (∀ z ∈ zs, IsReduction z) ∧
        AcceptsBy (w ++ v) (ys ++ more) := by
  have closes {states : List State} (stack : IsStack states) : ∃ v, Succeeds ⟨states, v⟩ := by
    have closable := stack.isClosable
    obtain ⟨s, below, rfl⟩ := stack.exists_cons
    obtain ⟨v, _, succeeds⟩ := closable
    exact ⟨v, succeeds⟩
  obtain ⟨ys, zs, states', split, reduces, again⟩ := run.exists_shifted rfl
  obtain ⟨v, more, d, run', accepts⟩ := closes (IsStack.initial.run (again []))
  exact ⟨closes (IsStack.initial.run run), ys, zs, v, more, split, reduces, d,
    (again v).trans run', accepts⟩

/-- A module whose block has been opened, with a bracket behind a name in it, can be completed,
whichever reduction was taken before the bracket. -/
theorem exists_completion_index :
    ∃ xs states, .reduce .type 1 0 ∈ xs ∧
      Run (.initial ([.moduleKw, .identifier, .lbrace, .identifier, .lbracket] ++ [])) xs ⟨states, []⟩ ∧
      ∃ v more, AcceptsBy ([.moduleKw, .identifier, .lbrace, .identifier, .lbracket] ++ v)
        (xs ++ more) := by
  have run : Run (.initial ([.moduleKw, .identifier, .lbrace, .identifier, .lbracket] ++ []))
      [.shift 223, .shift 158, .shift 2, .shift 12, .reduce .namespaceList 1 1,
        .reduce .templateGlobal 1 3, .reduce .type 1 0, .shift 71]
      ⟨[71, 177, 2, 158, 223, 1], []⟩ :=
    run_iff_carryOut.mpr (by decide +kernel)
  obtain ⟨_, ys, zs, v, more, split, reduces, accepts⟩ := exists_completion run
  -- the run ends in a shift, so no reduction at its end is left out
  obtain rfl : zs = [] := by
    obtain rfl | ⟨front, z, rfl⟩ := List.eq_nil_or_concat zs
    · rfl
    · obtain ⟨rule, size, layout, rfl⟩ := reduces z (by simp)
      have last := congrArg List.getLast? split
      simp [← List.append_assoc] at last
  rw [List.append_nil] at split
  exact ⟨_, _, by decide, run, v, more, split ▸ accepts⟩

end Machine

end SusSyntax.Grammar
