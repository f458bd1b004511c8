import SusSyntax.Diagnostics.Event
import SusSyntax.Proofs.Parse.Run

/-!
The search for errors finds the outermost ones, all of them and nothing else.

The search passes over what has no error of its own to show, and unreadable text costs nothing, so
that its node shows none. What makes this safe is how trees grow: in a node over a rule that costs
nothing there is neither a missing token nor anything erroneous (`Grown.isPlain_of_mem_children`).
Hence a node that shows no error has nothing to report below (`candid_toNode`), and from there the
walk of the cursor is followed step by step (`Cursor.IsCandid.errors_eq`).
-/

namespace SusSyntax

open Grammar

namespace Node

/-! ### Occurrences -/

/-- A node in its tree, with the kinds of its ancestors from the parent on. -/
structure Occurrence where
  above : List Symbol
  node : Node

mutual

/-- All nodes from a node down, in the order of the text. -/
def occurrences (above : List Symbol) : Node → List Occurrence
  | n@(⟨kind, _, _, _, _, _, _, _, children⟩) =>
    ⟨above, n⟩ :: occurrencesAll (kind :: above) children

/-- All nodes from several nodes down. -/
def occurrencesAll (above : List Symbol) : List Node → List Occurrence
  | [] => []
  | n :: rest => n.occurrences above ++ occurrencesAll above rest

end

namespace Occurrence

/-- Whether a node is reported and stands in no error. -/
def isOutermost (o : Occurrence) : Bool :=
  o.node.isReported && !o.above.contains .error

/-- The error at a node. -/
def error (o : Occurrence) : SyntaxError :=
  .ofNode o.above.head? o.node

end Occurrence

/-- The errors at the outermost of some nodes. -/
def outermost (os : List Occurrence) : List SyntaxError :=
  (os.filter Occurrence.isOutermost).map Occurrence.error

variable {n : Node} {above : List Symbol}

@[simp] theorem outermost_nil : outermost [] = [] := rfl

@[simp] theorem outermost_append (os ps : List Occurrence) :
    outermost (os ++ ps) = outermost os ++ outermost ps := by
  simp [outermost]

theorem outermost_eq_nil_iff {os : List Occurrence} :
    outermost os = [] ↔ ∀ o ∈ os, o.isOutermost = false := by
  simp [outermost, List.filter_eq_nil_iff]

theorem occurrences_eq (above : List Symbol) (n : Node) :
    n.occurrences above = ⟨above, n⟩ :: occurrencesAll (n.kind :: above) n.children := by
  cases n
  rfl

@[simp] theorem occurrencesAll_cons (above : List Symbol) (n : Node) (rest : List Node) :
    occurrencesAll above (n :: rest) = n.occurrences above ++ occurrencesAll above rest := rfl

theorem occurrencesAll_append (above : List Symbol) (ns ms : List Node) :
    occurrencesAll above (ns ++ ms) = occurrencesAll above ns ++ occurrencesAll above ms := by
  induction ns with
  | nil => rfl
  | cons n rest ih => rw [List.cons_append, occurrencesAll_cons, ih, occurrencesAll_cons,
      List.append_assoc]

theorem mem_occurrencesAll {o : Occurrence} {ns : List Node} :
    o ∈ occurrencesAll above ns ↔ ∃ n ∈ ns, o ∈ n.occurrences above := by
  induction ns with
  | nil => simp [occurrencesAll]
  | cons n rest ih => simp [ih]

mutual

/-- The occurrences are the nodes of the tree as they are listed with their depth and their parent.
-/
theorem walk_eq_map_occurrences (above : List Symbol) :
    ∀ n : Node, n.walk above.length above.head? =
      (n.occurrences above).map fun o => ⟨o.above.length, o.above.head?, o.node⟩
  | ⟨kind, _, _, _, _, _, _, _, children⟩ => by
    rw [walk, occurrences, List.map_cons, ← walkAll_eq_map_occurrencesAll (kind :: above) children]
    rfl

theorem walkAll_eq_map_occurrencesAll (above : List Symbol) :
    ∀ ns : List Node, walkAll above.length above.head? ns =
      (occurrencesAll above ns).map fun o => ⟨o.above.length, o.above.head?, o.node⟩
  | [] => rfl
  | n :: rest => by
    rw [walkAll, occurrencesAll, List.map_append, walk_eq_map_occurrences above n,
      walkAll_eq_map_occurrencesAll above rest]

end

mutual

theorem suffix_of_mem_occurrences (above : List Symbol) :
    ∀ (n : Node), ∀ o ∈ n.occurrences above, above <:+ o.above
  | ⟨kind, _, _, _, _, _, _, _, children⟩, o, mem => by
    rw [occurrences] at mem
    rcases List.mem_cons.mp mem with rfl | mem
    · exact List.suffix_refl _
    · exact (List.suffix_cons ..).trans
        (suffix_of_mem_occurrencesAll (kind :: above) children o mem)

theorem suffix_of_mem_occurrencesAll (above : List Symbol) :
    ∀ (ns : List Node), ∀ o ∈ occurrencesAll above ns, above <:+ o.above
  | [], o, mem => absurd mem List.not_mem_nil
  | n :: rest, o, mem => by
    rw [occurrencesAll_cons] at mem
    rcases List.mem_append.mp mem with mem | mem
    · exact suffix_of_mem_occurrences above n o mem
    · exact suffix_of_mem_occurrencesAll above rest o mem

end

/-- Nothing in an error is outermost. -/
theorem outermost_occurrencesAll_of_error (h : .error ∈ above) (ns : List Node) :
    outermost (occurrencesAll above ns) = [] := by
  rw [outermost_eq_nil_iff]
  intro o mem
  have inside : .error ∈ o.above := (suffix_of_mem_occurrencesAll above ns o mem).subset h
  simp [Occurrence.isOutermost, inside]

/-! ### Quiet and candid nodes -/

/-- Nothing is to be reported from a node down. -/
inductive IsQuiet : Node → Prop where
  | intro {n : Node} :
      n.isReported = false → (∀ m ∈ n.children, m.IsQuiet) → n.IsQuiet

/-- From a node down, nodes show all errors that are to be reported below, and nothing is below a
missing one. -/
inductive IsCandid : Node → Prop where
  | intro {n : Node} :
      (n.isMissing = true → n.children = []) →
      (n.isReported = false → n.hasError = false → ∀ m ∈ n.children, m.IsQuiet) →
      (∀ m ∈ n.children, m.IsCandid) → n.IsCandid

theorem IsQuiet.of_mem_occurrences (h : n.IsQuiet) :
    ∀ above, ∀ o ∈ n.occurrences above, o.node.isReported = false := by
  induction h with
  | @intro n quiet below ih =>
    intro above o mem
    rw [occurrences_eq] at mem
    rcases List.mem_cons.mp mem with rfl | mem
    · exact quiet
    · obtain ⟨m, child, mem⟩ := mem_occurrencesAll.mp mem
      exact ih m child _ o mem

theorem outermost_of_isQuiet {ns : List Node} (h : ∀ m ∈ ns, m.IsQuiet) (above : List Symbol) :
    outermost (occurrencesAll above ns) = [] := by
  rw [outermost_eq_nil_iff]
  intro o mem
  obtain ⟨m, child, mem⟩ := mem_occurrencesAll.mp mem
  simp [Occurrence.isOutermost, (h m child).of_mem_occurrences above o mem]

theorem IsCandid.of_mem_children (h : n.IsCandid) : ∀ m ∈ n.children, m.IsCandid := by
  cases h
  assumption

/-- Below a node that is reported nothing is outermost. -/
theorem IsCandid.outermost_of_isReported (h : n.IsCandid) (reported : n.isReported = true) :
    outermost (occurrencesAll (n.kind :: above) n.children) = [] := by
  obtain ⟨leaf, _, _⟩ := h
  rcases Bool.or_eq_true_iff.mp reported with error | missing
  · refine outermost_occurrencesAll_of_error ?_ _
    rw [eq_of_beq error]
    exact List.mem_cons_self
  · rw [leaf missing]
    rfl

/-- Below a node that shows no error nothing is outermost. -/
theorem IsCandid.outermost_of_not_hasError (h : n.IsCandid) (unreported : n.isReported = false)
    (clean : n.hasError = false) :
    outermost (occurrencesAll (n.kind :: above) n.children) = [] := by
  obtain ⟨_, quiet, _⟩ := h
  exact outermost_of_isQuiet (quiet unreported clean) _

/-- If neither a node outside of errors nor what is below it is outermost, then it is no error. -/
theorem outermost_cons_eq_nil {os : List Occurrence} (free : .error ∉ above)
    (h : outermost (⟨above, n⟩ :: os) = []) :
    n.isReported = false ∧ .error ∉ n.kind :: above ∧ outermost os = [] := by
  rw [outermost_eq_nil_iff] at h
  have here : n.isReported = false := by
    simpa [Occurrence.isOutermost, free] using h _ List.mem_cons_self
  refine ⟨here, ?_, ?_⟩
  · intro error
    rcases List.mem_cons.mp error with same | error
    · simp [isReported, isError, ← same] at here
    · exact free error
  · rw [outermost_eq_nil_iff]
    intro o mem
    exact h o (List.mem_cons_of_mem _ mem)

mutual

/-- If no node is outermost then none is reported. -/
theorem isReported_of_outermost (above : List Symbol) (free : .error ∉ above) :
    ∀ n : Node, outermost (n.occurrences above) = [] →
      ∀ o ∈ n.occurrences above, o.node.isReported = false
  | ⟨kind, field, isExtra, isMissing, hasError, stuckAt?, start, stop, children⟩,
      nothing, o, mem => by
    rw [occurrences] at nothing mem
    obtain ⟨here, inside, below⟩ := outermost_cons_eq_nil free nothing
    rcases List.mem_cons.mp mem with rfl | mem
    · exact here
    · exact isReported_of_outermostAll (kind :: above) inside children below o mem

theorem isReported_of_outermostAll (above : List Symbol) (free : .error ∉ above) :
    ∀ ns : List Node, outermost (occurrencesAll above ns) = [] →
      ∀ o ∈ occurrencesAll above ns, o.node.isReported = false
  | [], _, o, mem => absurd mem List.not_mem_nil
  | n :: rest, nothing, o, mem => by
    rw [occurrencesAll_cons, outermost_append, List.append_eq_nil_iff] at nothing
    rw [occurrencesAll_cons] at mem
    rcases List.mem_append.mp mem with mem | mem
    · exact isReported_of_outermost above free n nothing.1 o mem
    · exact isReported_of_outermostAll above free rest nothing.2 o mem

end

/-! ### The walk of the cursor -/

namespace Cursor

/-- The kinds of the ancestors. -/
def kinds (above : List (Node × List Node)) : List Symbol :=
  above.map fun frame => frame.1.kind

/-- What the cursor visits behind its own node. -/
def beyond : List Node → List (Node × List Node) → List Occurrence
  | behind, [] => occurrencesAll [] behind
  | behind, frame :: above =>
    occurrencesAll (kinds (frame :: above)) behind ++ beyond frame.2 above

@[simp] theorem beyond_cons (n : Node) (rest : List Node) (above : List (Node × List Node)) :
    beyond (n :: rest) above = n.occurrences (kinds above) ++ beyond rest above := by
  cases above <;> simp [beyond, kinds]

/-- All that the cursor visits. -/
def ahead (c : Cursor) : List Occurrence :=
  c.node.occurrences (kinds c.above) ++ beyond c.behind c.above

/-- A cursor in candid nodes that stands in no error. -/
structure IsCandid (c : Cursor) : Prop where
  node : c.node.IsCandid
  behind : ∀ m ∈ c.behind, m.IsCandid
  above : ∀ frame ∈ c.above,
    frame.1.IsCandid ∧ frame.1.kind ≠ .error ∧ ∀ m ∈ frame.2, m.IsCandid

variable {c next : Cursor}

theorem IsCandid.error_not_mem (h : c.IsCandid) : .error ∉ kinds c.above := by
  intro mem
  obtain ⟨frame, mem, same⟩ := List.mem_map.mp mem
  exact (h.above frame mem).2.1 same

theorem ahead_ofRoot (root : Node) : (ofRoot root).ahead = root.occurrences [] := by
  simp [ahead, ofRoot, beyond, kinds, occurrencesAll]

theorem isCandid_ofRoot {root : Node} (h : root.IsCandid) : (ofRoot root).IsCandid where
  node := h
  behind _ mem := absurd mem List.not_mem_nil
  above _ mem := absurd mem List.not_mem_nil

/-! #### Leaving a node -/

theorem leave?_spec (c : Cursor) : beyond c.behind c.above = (c.leave?.map ahead).getD [] := by
  fun_induction leave? c with
  | case1 c next beside =>
    obtain ⟨node, behind, above⟩ := c
    cases behind with
    | nil => cases beside
    | cons n rest =>
      obtain rfl := Option.some.inj beside
      exact beyond_cons n rest above
  | case2 c last up found ih =>
    obtain ⟨node, behind, above⟩ := c
    cases behind with
    | cons n rest => cases last
    | nil =>
      cases above with
      | nil => cases found
      | cons frame above =>
        obtain rfl := Option.some.inj found
        rw [← ih]
        rfl
  | case3 c last found =>
    obtain ⟨node, behind, above⟩ := c
    cases behind with
    | cons n rest => cases last
    | nil =>
      cases above with
      | nil => rfl
      | cons frame above => cases found

theorem IsCandid.leave? (h : c.IsCandid) (left : c.leave? = some next) : next.IsCandid := by
  fun_induction Cursor.leave? c with
  | case1 c next' beside =>
    obtain rfl := Option.some.inj left
    obtain ⟨node, behind, above⟩ := c
    cases behind with
    | nil => cases beside
    | cons n rest =>
      obtain rfl := Option.some.inj beside
      obtain ⟨first, behind⟩ := List.forall_mem_cons.mp h.behind
      exact ⟨first, behind, h.above⟩
  | case2 c _ up found ih =>
    obtain ⟨node, behind, above⟩ := c
    cases above with
    | nil => cases found
    | cons frame above =>
      obtain rfl := Option.some.inj found
      obtain ⟨⟨parent, _, behind⟩, above⟩ := List.forall_mem_cons.mp h.above
      exact ih ⟨parent, behind, above⟩ left
  | case3 => cases left

/-! #### Going below a node -/

theorem firstChild?_spec {below : Cursor} (h : c.firstChild? = some below) :
    below.ahead = occurrencesAll (c.node.kind :: kinds c.above) c.node.children ++
      beyond c.behind c.above := by
  obtain ⟨node, behind, above⟩ := c
  unfold firstChild? at h
  split at h
  · cases h
  · rename_i n rest children
    obtain rfl := Option.some.inj h
    rw [show node.children = n :: rest from children]
    simp [ahead, beyond, kinds]

theorem IsCandid.firstChild? {below : Cursor} (h : c.IsCandid)
    (inside : c.node.kind ≠ .error) (entered : c.firstChild? = some below) : below.IsCandid := by
  obtain ⟨node, behind, above⟩ := c
  unfold Cursor.firstChild? at entered
  split at entered
  · cases entered
  · rename_i n rest children
    obtain rfl := Option.some.inj entered
    have candid := h.node.of_mem_children
    rw [show node.children = n :: rest from children] at candid
    obtain ⟨first, rest⟩ := List.forall_mem_cons.mp candid
    exact ⟨first, rest, List.forall_mem_cons.mpr ⟨⟨h.node, inside, h.behind⟩, h.above⟩⟩

/-! #### Going on -/

/-- What is reported behind a cursor is what it visits from where the search goes on. -/
theorem IsCandid.onward?_spec (h : c.IsCandid) :
    outermost (occurrencesAll (c.node.kind :: kinds c.above) c.node.children) ++
        outermost (beyond c.behind c.above) =
      outermost ((c.onward?.map ahead).getD []) := by
  unfold Cursor.onward?
  split
  · rename_i passesBy
    have nothing : outermost (occurrencesAll (c.node.kind :: kinds c.above) c.node.children) = [] := by
      by_cases reported : c.node.isReported = true
      · exact h.node.outermost_of_isReported reported
      · rw [Bool.not_eq_true] at reported
        refine h.node.outermost_of_not_hasError reported ?_
        simpa [reported] using passesBy
    rw [nothing, leave?_spec, List.nil_append]
  · cases entered : c.firstChild? with
    | some below =>
      rw [← outermost_append, ← firstChild?_spec entered]
      rfl
    | none =>
      have leaf : c.node.children = [] := by
        unfold Cursor.firstChild? at entered
        split at entered
        · assumption
        · cases entered
      rw [leaf, leave?_spec, Option.none_or]
      rfl

theorem IsCandid.onward? (h : c.IsCandid) (went : c.onward? = some next) : next.IsCandid := by
  unfold Cursor.onward? at went
  split at went
  · exact h.leave? went
  · rename_i search
    have inside : c.node.kind ≠ .error := by
      intro error
      simp [Node.isReported, isError, error] at search
    rcases Option.or_eq_some_iff.mp went with below | ⟨_, beyond⟩
    · exact h.firstChild? inside below
    · exact h.leave? beyond

/-- The error at a cursor names the parent. -/
theorem ofCursor_eq (c : Cursor) :
    SyntaxError.ofCursor c = Occurrence.error ⟨kinds c.above, c.node⟩ := by
  obtain ⟨node, behind, above⟩ := c
  cases above <;> rfl

theorem errors_step (c : Cursor) :
    c.errors = (if c.node.isReported then [SyntaxError.ofCursor c] else []) ++
      (c.onward?.map errors).getD [] := by
  conv => lhs; unfold errors
  dsimp only
  split <;> split
  all_goals
    rename_i found
    rw [found]
    rfl

/-- A search among candid nodes finds what is outermost ahead, in order. -/
theorem IsCandid.errors_eq {c : Cursor} (h : c.IsCandid) : c.errors = outermost c.ahead := by
  have here : (if c.node.isReported then [SyntaxError.ofCursor c] else []) =
      outermost [⟨kinds c.above, c.node⟩] := by
    have free := h.error_not_mem
    split
    · rename_i reported
      simp [outermost, Occurrence.isOutermost, reported, free, ofCursor_eq]
    · rename_i unreported
      simp [outermost, Occurrence.isOutermost, unreported]
  have ahead : outermost c.ahead = outermost [⟨kinds c.above, c.node⟩] ++
      outermost ((c.onward?.map Cursor.ahead).getD []) := by
    rw [← h.onward?_spec, Cursor.ahead, occurrences_eq, List.cons_append,
      ← List.singleton_append, outermost_append, outermost_append]
  rw [errors_step, here, ahead]
  cases went : c.onward? with
  | none => rfl
  | some next =>
    have less := remaining_of_onward? went
    exact congrArg _ (IsCandid.errors_eq (h.onward? went))
termination_by c.remaining

end Cursor

end Node

/-! ### What grown trees show -/

namespace Tree

variable {text : Text} {p : Extent}

/-- A tree without costs that stands for no error. -/
structure IsPlain (t : Tree) : Prop where
  cost : t.cost = 0
  symbol : t.symbol.isErroneous = false

/-- Below a rule without costs there are no errors. -/
theorem Grown.isPlain_of_mem_children {r : Rule} {layout : Nat} {extra : Bool} {measure : Measure}
    {children : List Tree} (h : (node (.rule r layout) extra measure children).Grown text p)
    (free : measure.cost = 0) : ∀ t ∈ children, t.IsPlain := by
  obtain ⟨rfl, joins, grown⟩ := h
  have free : sumOver (fun t => if t.symbol = .skipped then 0 else t.cost) children = 0 := free
  intro t mem
  have cost := eq_zero_of_sumOver free t mem
  have symbol : t.symbol.isErroneous = false := by
    by_cases extra : t.isExtra = true
    · rw [← Bool.not_eq_true]
      intro erroneous
      obtain ⟨_, grown⟩ := grown.exists_grown mem
      obtain ⟨same, costs⟩ := grown.cost_of_isExtra extra erroneous
      rw [same, if_neg Symbol.noConfusion] at cost
      exact costs cost
    · exact not_isErroneous_of_joins joins mem (by simpa using extra)
  have kept : t.symbol ≠ .skipped := by
    intro skipped
    rw [skipped] at symbol
    cases symbol
  rw [if_neg kept] at cost
  exact ⟨cost, symbol⟩

mutual

/-- A plain tree has nothing to report. -/
theorem quiet_toNode (field : Option Field) (p : Extent) :
    ∀ {t : Tree}, t.Grown text p → t.IsPlain → (t.toNode field p).IsQuiet
  | .leaf content .., _, plain => by
    refine .intro ?_ fun _ mem => absurd mem List.not_mem_nil
    cases content with
    | read => rfl
    | missing => cases plain.cost
    | unread => cases plain.symbol
  | .node label extra measure children, h, plain => by
    cases label with
    | rule r layout =>
      exact .intro rfl (quiet_nodesOf layout 0 none p h.2.2 (h.isPlain_of_mem_children plain.cost))
    | error => cases plain.symbol
    | skipped => cases plain.symbol

theorem quiet_nodesBelow (field : Option Field) (p : Extent) :
    ∀ {t : Tree}, t.Grown text p → t.IsPlain → ∀ m ∈ t.nodesBelow field p, m.IsQuiet
  | .leaf .., _, _ => fun _ mem => absurd mem List.not_mem_nil
  | .node label extra measure children, h, plain => by
    cases label with
    | rule r layout =>
      exact quiet_nodesOf layout 0 field p h.2.2 (h.isPlain_of_mem_children plain.cost)
    | error => cases plain.symbol
    | skipped => cases plain.symbol

theorem quiet_nodesOf (layout index : Nat) (above : Option Field) (p : Extent) :
    ∀ {ts : List Tree}, GrownOf text p ts → (∀ t ∈ ts, t.IsPlain) →
      ∀ m ∈ nodesOf layout index above p ts, m.IsQuiet
  | [], _, _ => fun _ mem => absurd mem List.not_mem_nil
  | t :: rest, h, plain => by
    obtain ⟨plain, plainRest⟩ := List.forall_mem_cons.mp plain
    rw [nodesOf]
    refine List.forall_mem_append.mpr ⟨?_, quiet_nodesOf _ _ _ _ h.2 plainRest⟩
    split
    · exact List.forall_mem_singleton.mpr (quiet_toNode _ p h.1 plain)
    · exact quiet_nodesBelow _ p h.1 plain

end

mutual

/-- A visible tree shows all errors that are to be reported in it. -/
theorem candid_toNode (field : Option Field) (p : Extent) :
    ∀ {t : Tree}, t.Grown text p → t.isVisible = true → (t.toNode field p).IsCandid
  | .leaf .., _, _ =>
    .intro (fun _ => rfl) (fun _ _ _ mem => absurd mem List.not_mem_nil)
      fun _ mem => absurd mem List.not_mem_nil
  | .node label extra measure children, h, visible => by
    refine .intro (fun missing => by cases missing) (fun unreported clean => ?_)
      (candid_nodesOf label.layout 0 none p h.2.2)
    cases label with
    | rule r layout =>
      have free : measure.cost = 0 := by simpa [toNode] using clean
      exact quiet_nodesOf layout 0 none p h.2.2 (h.isPlain_of_mem_children free)
    | error => cases unreported
    | skipped => cases visible

theorem candid_nodesBelow (field : Option Field) (p : Extent) :
    ∀ {t : Tree}, t.Grown text p → ∀ m ∈ t.nodesBelow field p, m.IsCandid
  | .leaf .., _ => fun _ mem => absurd mem List.not_mem_nil
  | .node label .., h => candid_nodesOf label.layout 0 field p h.2.2

theorem candid_nodesOf (layout index : Nat) (above : Option Field) (p : Extent) :
    ∀ {ts : List Tree}, GrownOf text p ts → ∀ m ∈ nodesOf layout index above p ts, m.IsCandid
  | [], _ => fun _ mem => absurd mem List.not_mem_nil
  | t :: rest, h => by
    rw [nodesOf]
    refine List.forall_mem_append.mpr ⟨?_, candid_nodesOf _ _ _ _ h.2⟩
    split
    · rename_i visible
      exact List.forall_mem_singleton.mpr (candid_toNode _ p h.1 visible)
    · exact candid_nodesBelow _ p h.1

end

/-- A rule costs what its children cost, but for skipped text that they gather. -/
theorem cost_rule_eq_zero (r : Rule) (layout : Nat) {children : List Tree}
    (h : ∀ t ∈ children, t.symbol ≠ .skipped → t.cost = 0) :
    costOf (.rule r layout) children = 0 := by
  have below : sumOver (fun t => if t.symbol = .skipped then 0 else t.cost) children = 0 := by
    induction children with
    | nil => rfl
    | cons t ts ih =>
      obtain ⟨first, rest⟩ := List.forall_mem_cons.mp h
      rw [sumOver, ih rest]
      by_cases skipped : t.symbol = .skipped
      · rw [if_pos skipped]
      · rw [if_neg skipped, first skipped]
  exact below

/-- A token that is supposed to stand somewhere is shown. -/
theorem IsGrownLeaf.cost_of_hidden {content : Leaf} {p padding size : Extent} {extra : Bool}
    (h : IsGrownLeaf text p content padding size extra)
    (hidden : content.symbol.isVisible = false) : content.cost = 0 := by
  cases h with
  | read isRead =>
    rcases isRead.leaf_cases with ⟨t, leaf⟩ | ⟨stuck, leaf⟩ <;> rw [leaf] <;> rfl
  | @missing t ne =>
    have eof : (t != .eof) = false := hidden
    exact absurd (by simpa using eof) ne
  | whole => cases hidden

mutual

/-- A tree from which nothing is to be reported costs nothing. -/
theorem cost_of_toNode (field : Option Field) (p : Extent) (above : List Symbol) :
    ∀ {t : Tree}, t.Grown text p → t.isVisible = true →
      (∀ o ∈ (t.toNode field p).occurrences above, o.node.isReported = false) → t.cost = 0
  | .leaf content .., _, _, quiet => by
    have here := quiet _ (Node.occurrences_eq .. ▸ List.mem_cons_self)
    cases content with
    | read | unread => rfl
    | missing => cases Bool.or_eq_false_iff.mp here |>.2
  | .node label extra measure children, h, visible, quiet => by
    rw [Node.occurrences_eq] at quiet
    obtain ⟨here, below⟩ := List.forall_mem_cons.mp quiet
    obtain ⟨rfl, -, grown⟩ := h
    cases label with
    | rule r layout => exact cost_rule_eq_zero r layout (cost_of_nodesOf layout 0 none p _ grown below)
    | error => cases here
    | skipped => cases visible

theorem cost_of_nodesBelow (field : Option Field) (p : Extent) (above : List Symbol) :
    ∀ {t : Tree}, t.Grown text p → t.isVisible = false → t.symbol ≠ .skipped →
      (∀ o ∈ Node.occurrencesAll above (t.nodesBelow field p), o.node.isReported = false) →
      t.cost = 0
  | .leaf .., h, hidden, _, _ => IsGrownLeaf.cost_of_hidden h hidden
  | .node label extra measure children, h, hidden, kept, quiet => by
    obtain ⟨rfl, -, grown⟩ := h
    cases label with
    | rule r layout => exact cost_rule_eq_zero r layout (cost_of_nodesOf layout 0 field p _ grown quiet)
    | error => cases hidden
    | skipped => exact absurd rfl kept

theorem cost_of_nodesOf (layout index : Nat) (above : Option Field) (p : Extent)
    (outer : List Symbol) : ∀ {ts : List Tree}, GrownOf text p ts →
      (∀ o ∈ Node.occurrencesAll outer (nodesOf layout index above p ts),
        o.node.isReported = false) →
      ∀ t ∈ ts, t.symbol ≠ .skipped → t.cost = 0
  | [], _, _ => fun _ mem => absurd mem List.not_mem_nil
  | t :: rest, h, quiet => by
    rw [nodesOf, Node.occurrencesAll_append] at quiet
    obtain ⟨first, later⟩ := List.forall_mem_append.mp quiet
    refine List.forall_mem_cons.mpr ⟨fun kept => ?_, cost_of_nodesOf _ _ _ _ outer h.2 later⟩
    split at first
    · rename_i visible
      refine cost_of_toNode (fieldOf layout index above t) p outer h.1 visible fun o mem =>
        first o ?_
      exact Node.mem_occurrencesAll.mpr ⟨_, List.mem_cons_self, mem⟩
    · rename_i hidden
      exact cost_of_nodesBelow _ p outer h.1 (Bool.not_eq_true _ ▸ hidden) kept first

end

theorem isClean_iff {t : Tree} : t.isClean = true ↔ t.cost = 0 := by
  cases t <;> simp [isClean, root, toNode, cost]

/-- A whole tree is visible, and plain if it shows no error. -/
theorem IsWhole.root_cases {t : Tree} (h : t.IsWhole text) :
    t.isVisible = true ∧ (t.isClean = true → t.IsPlain) := by
  rcases h.root with ⟨layout, children, rfl⟩ | ⟨children, rfl⟩
  · exact ⟨rfl, fun clean => ⟨isClean_iff.mp clean, rfl⟩⟩
  · exact ⟨rfl, fun clean => absurd (isClean_iff.mp clean) (cost_ofChildren_error children)⟩

/-! ### The errors of a whole tree -/

/-- The errors that are listed for a tree are those of its outermost reported nodes, in the order of
the text, and each of them is told; each says whether its node is missing, and names the parent
unless there is none. No errors are listed only if no node is to be reported. -/
structure ReportsOutermost (t : Tree) : Prop where
  errors : t.syntaxErrors = Node.outermost (t.root.occurrences [])
  events : Event.ofTree t =
    ((t.root.occurrences []).filter Node.Occurrence.isOutermost).map fun o => .found o.error
  missing : ∀ o : Node.Occurrence, o.error.kind = .missing ↔ o.node.isMissing = true
  parent : ∀ o ∈ t.root.occurrences [], o.error.parentKind? = none → o.node = t.root
  none_iff : t.syntaxErrors = [] ↔
    ∀ x ∈ t.root.all, x.node.isError = false ∧ x.node.isMissing = false

theorem IsWhole.syntaxErrors_eq {t : Tree} (h : t.IsWhole text) :
    t.syntaxErrors = Node.outermost (t.root.occurrences []) := by
  obtain ⟨visible, plain⟩ := h.root_cases
  unfold syntaxErrors
  split
  · rename_i clean
    have quiet : t.root.IsQuiet := quiet_toNode none .zero h.grown (plain clean)
    symm
    rw [Node.outermost_eq_nil_iff]
    intro o mem
    simp [Node.Occurrence.isOutermost, quiet.of_mem_occurrences [] o mem]
  · have candid : t.root.IsCandid := candid_toNode none .zero h.grown visible
    rw [(Node.Cursor.isCandid_ofRoot candid).errors_eq, Node.Cursor.ahead_ofRoot]

theorem IsWhole.reportsOutermost {t : Tree} (h : t.IsWhole text) : t.ReportsOutermost where
  errors := h.syntaxErrors_eq
  events := by
    rw [Event.ofTree, h.syntaxErrors_eq, Node.outermost, List.map_map]
    rfl
  missing o := by
    rw [Node.Occurrence.error, SyntaxError.ofNode]
    split <;> simp [*]
  parent o mem alone := by
    rw [Node.occurrences_eq] at mem
    rcases List.mem_cons.mp mem with rfl | mem
    · rfl
    · obtain ⟨first, inside⟩ := Node.suffix_of_mem_occurrencesAll _ _ o mem
      rw [Node.Occurrence.error, SyntaxError.ofNode, ← inside] at alone
      simp at alone
  none_iff := by
    have all : t.root.all = _ := Node.walk_eq_map_occurrences [] t.root
    rw [h.syntaxErrors_eq, all, List.forall_mem_map]
    constructor
    · intro nothing o mem
      have unreported := Node.isReported_of_outermost [] List.not_mem_nil t.root nothing o mem
      exact Bool.or_eq_false_iff.mp unreported
    · intro unreported
      rw [Node.outermost_eq_nil_iff]
      intro o mem
      have unreported : o.node.isReported = false := Bool.or_eq_false_iff.mpr (unreported o mem)
      simp [Node.Occurrence.isOutermost, unreported]

/-- A tree has no error just if no errors are listed. -/
theorem IsWhole.isClean_iff_syntaxErrors {t : Tree} (h : t.IsWhole text) :
    t.isClean = true ↔ t.syntaxErrors = [] := by
  constructor
  · intro clean
    rw [syntaxErrors, if_pos clean]
  · intro nothing
    rw [h.syntaxErrors_eq] at nothing
    have quiet := Node.isReported_of_outermost [] List.not_mem_nil t.root nothing
    exact isClean_iff.mpr (cost_of_toNode none .zero [] h.grown h.root_cases.1 quiet)

end Tree

/-- The errors of a source are the outermost ones of its tree. -/
theorem reportsOutermost_parse (source : List UInt8) : (parse source).ReportsOutermost :=
  (isWhole_parse source).reportsOutermost

end SusSyntax
