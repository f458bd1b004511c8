import SusSyntax.Proofs.Tree.Places

/-!
The shape of the list of errors.

The outermost reported nodes do not lie in one another, so their ranges follow one another in the
text (`Spread`). Under a rule, text that the grammar does not admit is an extra, so an unexpected node
has no field (`Unlabelled`), and a missing one is a token of no width (`Node.IsGrown.of_isMissing`).
This is shown by induction on the tree, and holds of the errors of every source
(`errorShape_parse`).
-/

namespace SusSyntax

open Grammar Lexical

namespace SyntaxError

/-- Errors that follow one another between the bytes `a` and `b`. -/
structure Spread (a : Nat) (es : List SyntaxError) (b : Nat) : Prop where
  inside : ∀ e ∈ es, a ≤ e.start ∧ e.start ≤ e.stop ∧ e.stop ≤ b
  ordered : es.Pairwise fun d e => d.stop ≤ e.start

variable {a b c d : Nat} {es fs : List SyntaxError}

theorem spread_nil (a b : Nat) : Spread a [] b :=
  ⟨fun _ mem => absurd mem List.not_mem_nil, .nil⟩

theorem spread_singleton {e : SyntaxError} (first : a ≤ e.start) (le : e.start ≤ e.stop)
    (last : e.stop ≤ b) : Spread a [e] b :=
  ⟨List.forall_mem_singleton.mpr ⟨first, le, last⟩, List.pairwise_singleton ..⟩

theorem Spread.append (h : Spread a es b) (h' : Spread b fs c) (le : a ≤ b) (le' : b ≤ c) :
    Spread a (es ++ fs) c where
  inside := List.forall_mem_append.mpr
    ⟨fun e mem => by have := h.inside e mem; omega, fun e mem => by have := h'.inside e mem; omega⟩
  ordered := List.pairwise_append.mpr ⟨h.ordered, h'.ordered, fun d mem e mem' =>
    Nat.le_trans (h.inside d mem).2.2 (h'.inside e mem').1⟩

end SyntaxError

/-! ### Reported nodes -/

namespace Node

variable {n : Node} {above : List Symbol}

theorem outermost_singleton (o : Occurrence) :
    outermost [o] = if o.isOutermost then [o.error] else [] := by
  cases h : o.isOutermost <;> simp [outermost, h]

/-- What is reported from a node down: the node alone, or what is reported below. -/
theorem IsCandid.outermost_eq (h : n.IsCandid) (above : List Symbol) :
    outermost (n.occurrences above) =
      if n.isReported then if above.contains .error then [] else [Occurrence.error ⟨above, n⟩]
      else outermost (occurrencesAll (n.kind :: above) n.children) := by
  rw [occurrences_eq, ← List.singleton_append, outermost_append, outermost_singleton,
    Occurrence.isOutermost]
  by_cases reported : n.isReported = true
  · rw [h.outermost_of_isReported reported, if_pos reported, List.append_nil]
    cases above.contains .error <;> simp only [reported] <;> rfl
  · rw [Bool.not_eq_true] at reported
    simp [reported]

/-- A missing node is a token of no width. -/
theorem IsGrown.of_isMissing {text : Text} (h : n.IsGrown text) (missing : n.isMissing = true) :
    n.start = n.stop ∧ ∃ u : Token, u ≠ .eof ∧ u.isComment = false ∧ n.kind = .token u := by
  obtain ⟨t, field, p, _, grown, _, rfl⟩ := h
  cases t with
  | node => cases missing
  | leaf content padding size extra =>
    cases grown with
    | whole => cases missing
    | @missing u notEnd notComment =>
      exact ⟨(Extent.add_zero _).symm, u, notEnd, notComment, rfl⟩
    | @read x isRead =>
      change x.leaf.isMissing = true at missing
      rcases isRead.leaf_cases with ⟨u, leaf⟩ | ⟨stuck, leaf⟩ <;> rw [leaf] at missing <;>
        cases missing

/-- A reported node that is not missing is one over text that the grammar does not admit. -/
theorem Occurrence.isError_of_unexpected (o : Occurrence) (outer : o.isOutermost = true)
    (kind : o.error.kind = .unexpected) : o.node.isError = true := by
  rcases Bool.or_eq_true_iff.mp (Bool.and_eq_true_iff.mp outer).1 with error | missing
  · exact error
  · rw [Occurrence.error, SyntaxError.ofNode, missing] at kind
    cases kind

/-- Text that the grammar does not admit has no field where it is reported. -/
def Unlabelled (os : List Occurrence) : Prop :=
  ∀ o ∈ os, o.isOutermost = true → o.node.isError = true → o.node.field = none

theorem unlabelled_nil : Unlabelled [] :=
  fun _ mem => absurd mem List.not_mem_nil

theorem Unlabelled.append {os ps : List Occurrence} (h : Unlabelled os) (h' : Unlabelled ps) :
    Unlabelled (os ++ ps) :=
  List.forall_mem_append.mpr ⟨h, h'⟩

/-- In an error nothing is reported. -/
theorem unlabelled_of_error (h : .error ∈ above) (ns : List Node) :
    Unlabelled (occurrencesAll above ns) := by
  intro o mem outer
  have none := outermost_eq_nil_iff.mp (outermost_occurrencesAll_of_error h ns) o mem
  rw [none] at outer
  cases outer

end Node

namespace Tree

open Node SyntaxError

variable {text : Text} {p : Extent}

mutual

theorem spread_toNode (p : Extent) (field : Option Field) (above : List Symbol) :
    ∀ {t : Tree}, t.Grown text p → t.isVisible = true →
      Spread p.bytes (outermost ((t.toNode field p).occurrences above)) (p + t.extent).bytes
  | t, h, visible => by
    rw [(candid_toNode field p h visible).outermost_eq]
    split
    · split
      · exact spread_nil ..
      · refine spread_singleton ?_ ?_ (Nat.le_of_eq (congrArg Extent.bytes (stop_toNode ..)))
        · change _ ≤ (t.toNode field p).start.bytes
          rw [start_toNode]
          exact Nat.le_add_right ..
        · change (t.toNode field p).start.bytes ≤ (t.toNode field p).stop.bytes
          rw [start_toNode, stop_toNode, extent, ← Extent.add_assoc]
          exact Nat.le_add_right ..
    · cases t with
      | leaf => exact spread_nil ..
      | node label extra measure children =>
        rw [h.extent_node]
        exact spread_nodesOf p label.layout 0 none _ h.2.2

theorem spread_nodesBelow (p : Extent) (field : Option Field) (above : List Symbol) :
    ∀ {t : Tree}, t.Grown text p →
      Spread p.bytes (outermost (occurrencesAll above (t.nodesBelow field p)))
        (p + t.extent).bytes
  | .leaf .., _ => spread_nil ..
  | .node label _ _ children, h => by
    rw [h.extent_node]
    exact spread_nodesOf p label.layout 0 field above h.2.2

/-- The errors of trees that follow one another follow one another. -/
theorem spread_nodesOf (p : Extent) (layout index : Nat) (field : Option Field)
    (above : List Symbol) :
    ∀ {ts : List Tree}, GrownOf text p ts →
      Spread p.bytes (outermost (occurrencesAll above (nodesOf layout index field p ts)))
        (p + extentOf ts).bytes
  | [], _ => spread_nil ..
  | t :: rest, h => by
    have later := spread_nodesOf (p + t.extent) layout (nextIndex index t) field above h.2
    rw [nodesOf, occurrencesAll_append, outermost_append, extentOf_cons, ← Extent.add_assoc]
    refine .append ?_ later (Nat.le_add_right ..) (Nat.le_add_right ..)
    split
    · rename_i visible
      have first := spread_toNode p (fieldOf layout index field t) above h.1 visible
      rwa [occurrencesAll, occurrencesAll, List.append_nil]
    · exact spread_nodesBelow p _ above h.1

end

/-! ### Unexpected text -/

mutual

theorem unlabelled_toNode (field : Option Field) (p : Extent) (above : List Symbol) :
    ∀ {t : Tree}, t.Grown text p → t.isVisible = true →
      (t.symbol.isErroneous = true → field = none) →
      Unlabelled ((t.toNode field p).occurrences above)
  | .leaf .., _, _, known => by
    rintro o mem - error
    obtain rfl := List.mem_singleton.mp mem
    have error : Leaf.symbol _ = .error := eq_of_beq error
    exact known (by rw [symbol, error]; rfl)
  | .node label extra measure children, h, visible, known => by
    rw [occurrences_eq]
    refine List.forall_mem_cons.mpr ⟨fun _ error => ?_, ?_⟩
    · have error : label.symbol = .error := eq_of_beq error
      exact known (by rw [symbol, error]; rfl)
    · cases label with
      | rule r layout =>
        exact unlabelled_nodesOf layout 0 none p _ h.2.2 fun _ => not_isErroneous_of_joins h.2.1
      | error => exact unlabelled_of_error List.mem_cons_self _
      | skipped => cases visible

theorem unlabelled_nodesBelow (field : Option Field) (p : Extent) (above : List Symbol) :
    ∀ {t : Tree}, t.Grown text p → t.isVisible = false →
      (t.isExtra = false → t.symbol.isErroneous = false) →
      Unlabelled (occurrencesAll above (t.nodesBelow field p))
  | .leaf .., _, _, _ => unlabelled_nil
  | .node label extra measure children, h, hidden, sane => by
    cases label with
    | rule r layout =>
      exact unlabelled_nodesOf layout 0 field p _ h.2.2 fun _ => not_isErroneous_of_joins h.2.1
    | error => cases hidden
    | skipped => cases sane h.2.1

/-- Among the children of a rule only extras are text that the grammar does not admit. -/
theorem unlabelled_nodesOf (layout index : Nat) (field : Option Field) (p : Extent)
    (above : List Symbol) :
    ∀ {ts : List Tree}, GrownOf text p ts →
      (∀ t ∈ ts, t.isExtra = false → t.symbol.isErroneous = false) →
      Unlabelled (occurrencesAll above (nodesOf layout index field p ts))
  | [], _, _ => unlabelled_nil
  | t :: rest, h, sane => by
    obtain ⟨first, sane⟩ := List.forall_mem_cons.mp sane
    rw [nodesOf, occurrencesAll_append]
    refine .append ?_ (unlabelled_nodesOf _ _ _ _ _ h.2 sane)
    split
    · rename_i visible
      rw [occurrencesAll, occurrencesAll, List.append_nil]
      refine unlabelled_toNode _ p above h.1 visible fun erroneous => ?_
      cases extra : t.isExtra with
      | true => exact if_pos extra
      | false => cases (first extra).symm.trans erroneous
    · rename_i hidden
      exact unlabelled_nodesBelow _ p above h.1 (Bool.not_eq_true _ ▸ hidden) first

end

/-! ### The errors of a whole tree -/

/-- The shape of the errors of a source. They lie in the source, one behind the other. A missing token
has no width, stands in some node, and is no comment. Text that the grammar does not admit is called
so, without a field. And there is an error without a parent only if it is the whole tree: then
it is the only one, and goes on to the end of the source. -/
structure ErrorShape (source : List UInt8) (t : Tree) : Prop where
  inside : ∀ e ∈ t.syntaxErrors, e.start ≤ e.stop ∧ e.stop ≤ source.length
  ordered : t.syntaxErrors.Pairwise fun d e => d.stop ≤ e.start
  missing : ∀ e ∈ t.syntaxErrors, e.kind = .missing → e.start = e.stop ∧
    e.parentKind?.isSome = true ∧ ∃ u : Token, u ≠ .eof ∧ u.isComment = false ∧ e.nodeKind = u.name
  unexpected : ∀ e ∈ t.syntaxErrors, e.kind = .unexpected → e.nodeKind = "ERROR" ∧
    e.field? = none ∧
    e.message = opening e.parentKind? ++ " found a syntax error in a node of type 'ERROR'"
  alone : ∀ e ∈ t.syntaxErrors, e.parentKind? = none → e = .ofNode none t.root ∧
    t.syntaxErrors = [e] ∧ e.stop = source.length

/-- The errors of a whole tree follow one another in its source. -/
theorem IsWhole.spread {source : List UInt8} {t : Tree} (h : t.IsWhole (Text.decode source)) :
    Spread 0 t.syntaxErrors source.length := by
  have spread := spread_toNode .zero none [] h.grown h.root_cases.1
  rw [Extent.zero_add, h.extent, ← Text.length_bytes, Text.bytes_decode] at spread
  rw [h.syntaxErrors_eq]
  exact spread

/-- A whole tree is no token. -/
theorem IsWhole.isMissing_root {t : Tree} (h : t.IsWhole text) : t.root.isMissing = false := by
  rcases h.root with ⟨layout, children, rfl⟩ | ⟨children, rfl⟩ <;> rfl

theorem IsWhole.errorShape {source : List UInt8} {t : Tree} (h : t.IsWhole (Text.decode source)) :
    t.ErrorShape source where
  inside e mem := (h.spread.inside e mem).2
  ordered := h.spread.ordered
  missing e listed kind := by
    obtain ⟨o, mem, _, grown, rfl⟩ := h.exists_occurrence listed
    have isMissing := (h.reportsOutermost.missing o).mp kind
    obtain ⟨width, u, notEnd, notComment, name⟩ := grown.of_isMissing isMissing
    refine ⟨congrArg Extent.bytes width, ?_, u, notEnd, notComment, congrArg Symbol.name name⟩
    rw [Option.isSome_iff_ne_none]
    intro alone
    rw [h.reportsOutermost.parent o mem alone, h.isMissing_root] at isMissing
    cases isMissing
  unexpected e listed kind := by
    obtain ⟨o, mem, outer, _, rfl⟩ := h.exists_occurrence listed
    have isError := o.isError_of_unexpected outer kind
    have nodeKind : o.error.nodeKind = "ERROR" := congrArg Symbol.name (eq_of_beq isError)
    have unlabelled := unlabelled_toNode none .zero [] h.grown h.root_cases.1 fun _ => rfl
    have field : o.error.field? = none := by
      rw [Node.Occurrence.error, ofNode, unlabelled o mem outer isError]
      rfl
    refine ⟨nodeKind, field, ?_⟩
    rw [message, kind, nodeKind, field, String.append_assoc]
    rfl
  alone e listed alone := by
    obtain ⟨o, mem, outer, _, rfl⟩ := h.exists_occurrence listed
    have isRoot := h.reportsOutermost.parent o mem alone
    have first : o.above.head? = none := Option.map_eq_none_iff.mp alone
    have error : o.error = ofNode none t.root := by
      rw [Node.Occurrence.error, first, isRoot]
    have reported : t.root.isReported = true := isRoot ▸ (Bool.and_eq_true_iff.mp outer).1
    refine ⟨error, ?_, ?_⟩
    · have candid : t.root.IsCandid := candid_toNode none .zero h.grown h.root_cases.1
      rw [h.syntaxErrors_eq, candid.outermost_eq, if_pos reported, error]
      rfl
    · rw [error]
      change t.root.stop.bytes = _
      rw [Tree.root, stop_toNode, Extent.zero_add, h.extent, ← Text.length_bytes, Text.bytes_decode]

end Tree

/-- The errors of a source have the shape of a list of errors. -/
theorem errorShape_parse (source : List UInt8) : (parse source).ErrorShape source :=
  (isWhole_parse source).errorShape

end SusSyntax
