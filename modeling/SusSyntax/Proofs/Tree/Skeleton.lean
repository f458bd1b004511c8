import SusSyntax.Proofs.Diagnostics.Outermost
import SusSyntax.Tree.Outline

/-!
What a tree shows apart from places.

The form of a node is its kind and its field with the forms of its children, with comments or without
(`Node.form`). Where nothing is missing or erroneous it says all that is in the outline
(`Node.outline_eq_of_form`), and it is found from the skeleton of the tree: the tree without extents,
and without the extras below it if comments do not count (`Tree.form_toNode`).
-/

namespace SusSyntax

open Grammar Lexical

/-! ### Forms -/

/-- A kind, a field, and the forms that stand below. -/
inductive Form where
  | mk (kind : Symbol) (field : Option Field) (children : List Form)

namespace Symbol

/-- Whether a symbol stands for a comment. -/
def isComment : Symbol → Bool
  | .token t => t.isComment
  | _ => false

end Symbol

namespace Node

mutual

/-- The form of a node; `bare` leaves out the comments that stand below it. -/
def form (bare : Bool) : Node → Form
  | ⟨kind, field, _, _, _, _, _, _, children⟩ => .mk kind field (forms bare children)

/-- The forms of nodes that follow one another. -/
def forms (bare : Bool) : List Node → List Form
  | [] => []
  | n :: rest =>
    if bare && n.kind.isComment then forms bare rest else n.form bare :: forms bare rest

end

theorem form_eq (bare : Bool) (n : Node) : n.form bare = .mk n.kind n.field (forms bare n.children) := by
  cases n
  rw [form]

@[simp] theorem forms_nil (bare : Bool) : forms bare [] = [] := rfl

theorem forms_singleton (bare : Bool) (n : Node) :
    forms bare [n] = if bare && n.kind.isComment then [] else [n.form bare] := by
  rw [forms]
  rfl

theorem forms_cons (bare : Bool) (n : Node) (rest : List Node) :
    forms bare (n :: rest) = forms bare [n] ++ forms bare rest := by
  rw [forms, forms]
  split <;> rfl

@[simp] theorem forms_append (bare : Bool) (xs ys : List Node) :
    forms bare (xs ++ ys) = forms bare xs ++ forms bare ys := by
  induction xs with
  | nil => rfl
  | cons n xs ih => rw [List.cons_append, forms_cons, ih, forms_cons bare n xs, List.append_assoc]

end Node

namespace Form

mutual

/-- The S-expression of the named nodes of a form. -/
def outline : Form → String
  | .mk kind _ children => "(" ++ kind.name ++ outlineAll children ++ ")"

/-- The S-expressions of those forms that are written, each behind a space. -/
def outlineAll : List Form → String
  | [] => ""
  | .mk kind field children :: rest =>
    (if kind.isNamed then " " ++ Node.fieldLabel field ++ outline (.mk kind field children) else "") ++
      outlineAll rest

end

end Form

namespace Node

/-- Nothing is missing or erroneous from a node down. -/
def IsFaultless (n : Node) : Prop :=
  n.isError = false ∧ n.isMissing = false

mutual

theorem outline_eq (n : Node) (depth : Nat) (parent? : Option Symbol)
    (faultless : ∀ x ∈ n.walk depth parent?, x.node.IsFaultless) :
    n.outline = (n.form false).outline := by
  obtain ⟨kind, field, isExtra, isMissing, hasError, stuckAt?, start, stop, children⟩ := n
  rw [walk] at faultless
  obtain ⟨⟨noError, there⟩, below⟩ := List.forall_mem_cons.mp faultless
  obtain rfl : isMissing = false := there
  have ne : kind ≠ .error := by
    rintro rfl
    cases noError
  rw [outline, if_neg Bool.false_ne_true, if_neg fun erroneous => ne erroneous.1, form, Form.outline,
    outlineAll_eq children _ _ below]

theorem outlineAll_eq (ns : List Node) (depth : Nat) (parent? : Option Symbol)
    (faultless : ∀ x ∈ walkAll depth parent? ns, x.node.IsFaultless) :
    outlineAll ns = Form.outlineAll (forms false ns) := by
  match ns with
  | [] => rfl
  | n :: rest =>
    rw [walkAll] at faultless
    obtain ⟨first, others⟩ := List.forall_mem_append.mp faultless
    have there : n.isMissing = false := by
      cases n
      rw [walk] at first
      exact (first _ List.mem_cons_self).2
    have written : n.isOutlined = n.kind.isNamed := by
      rw [isOutlined, there, Bool.or_false, isNamed]
    rw [outlineAll, written, forms, Bool.false_and, if_neg Bool.false_ne_true, form_eq,
      Form.outlineAll, ← form_eq, outline_eq n depth parent? first, outlineAll_eq rest _ _ others]

end

end Node

/-- Where nothing is missing or erroneous, nodes of the same form have the same outline. -/
theorem Node.outline_eq_of_form {m n : Node} (hm : ∀ x ∈ m.all, x.node.IsFaultless)
    (hn : ∀ x ∈ n.all, x.node.IsFaultless) (same : m.form false = n.form false) :
    m.outline = n.outline := by
  rw [outline_eq m 0 none hm, outline_eq n 0 none hn, same]

namespace Tree

/-! ### Skeletons -/

mutual

/-- A tree without extents; `bare` leaves out the extras that stand below it. -/
def skeleton (bare : Bool) : Tree → Tree
  | .leaf content _ _ extra => .leaf content .zero .zero extra
  | .node label extra _ children =>
    (ofChildren label (skeletons bare children)).withExtra extra

/-- The skeletons of trees that follow one another. -/
def skeletons (bare : Bool) : List Tree → List Tree
  | [] => []
  | t :: rest =>
    if bare && t.isExtra then skeletons bare rest else t.skeleton bare :: skeletons bare rest

end

variable {bare : Bool} {t : Tree} {ts us : List Tree}

@[simp] theorem isExtra_skeleton (bare : Bool) (t : Tree) :
    (t.skeleton bare).isExtra = t.isExtra := by
  cases t <;> rfl

@[simp] theorem symbol_skeleton (bare : Bool) (t : Tree) :
    (t.skeleton bare).symbol = t.symbol := by
  cases t with
  | leaf => rfl
  | node label => cases label <;> rfl

@[simp] theorem isVisible_skeleton (bare : Bool) (t : Tree) :
    (t.skeleton bare).isVisible = t.isVisible := by
  rw [isVisible, isVisible, symbol_skeleton]

@[simp] theorem skeletons_nil (bare : Bool) : skeletons bare [] = [] := rfl

theorem skeletons_cons_of_dropped (dropped : (bare && t.isExtra) = true) (ts : List Tree) :
    skeletons bare (t :: ts) = skeletons bare ts := by
  rw [skeletons, if_pos dropped]

theorem skeletons_cons_of_kept (kept : (bare && t.isExtra) = false) (ts : List Tree) :
    skeletons bare (t :: ts) = t.skeleton bare :: skeletons bare ts := by
  rw [skeletons, if_neg (Bool.eq_false_iff.mp kept)]

@[simp] theorem skeletons_append (bare : Bool) (ts us : List Tree) :
    skeletons bare (ts ++ us) = skeletons bare ts ++ skeletons bare us := by
  induction ts with
  | nil => rfl
  | cons t ts ih =>
    rw [List.cons_append, skeletons, skeletons, ih]
    split <;> rfl

/-- Extras are no longer there in a bare skeleton. -/
theorem skeletons_of_extras (h : ∀ t ∈ ts, t.isExtra = true) : skeletons true ts = [] := by
  induction ts with
  | nil => rfl
  | cons t ts ih =>
    obtain ⟨first, rest⟩ := List.forall_mem_cons.mp h
    rw [skeletons_cons_of_dropped (by rw [first]; rfl), ih rest]

/-- A tree of tokens and rules in which the extras are the comments and the end of the text. -/
inductive IsProper : Tree → Prop where
  | leaf {t : Token} {padding size : Extent} {extra : Bool} :
      extra = (Leaf.read t).isOutside → IsProper (.leaf (.read t) padding size extra)
  | node {r : Rule} {layout : Nat} {measure : Measure} {children : List Tree} :
      (∀ t ∈ children, t.IsProper) → IsProper (.node (.rule r layout) false measure children)

theorem IsProper.of_mem_children (h : t.IsProper) : ∀ u ∈ t.children, u.IsProper := by
  cases h with
  | leaf => exact fun u mem => absurd mem List.not_mem_nil
  | node below => exact below

/-- An extra shows a comment, or nothing. -/
theorem IsProper.extra_cases (h : t.IsProper) (extra : t.isExtra = true) :
    (∃ u p s, t = .leaf (.read u) p s true ∧ u.isComment = true) ∨
      t.isVisible = false ∧ ∀ field p, t.nodesBelow field p = [] := by
  cases h with
  | node => cases extra
  | @leaf u p s e outside =>
    obtain rfl : e = true := extra
    rcases Bool.or_eq_true_iff.mp outside.symm with isEnd | comment
    · obtain rfl := eq_of_beq isEnd
      exact .inr ⟨rfl, fun _ _ => rfl⟩
    · exact .inl ⟨u, p, s, rfl, comment⟩

/-! ### Trees without costs -/

variable {text : Text} {p : Extent}

theorem IsGrownLeaf.isProper {content : Leaf} {padding size : Extent} {extra : Bool}
    (h : IsGrownLeaf text p content padding size extra) (free : content.cost = 0)
    (sound : content.symbol.isErroneous = false) :
    (Tree.leaf content padding size extra).IsProper := by
  cases h with
  | missing => cases free
  | whole => cases sound
  | @read x isRead =>
    rcases isRead.leaf_cases with ⟨t, leaf⟩ | ⟨stuck, leaf⟩
    · rw [leaf]
      exact .leaf rfl
    · rw [leaf] at sound
      cases sound

mutual

/-- A tree that has grown and costs nothing is proper, if it does not stand for an error itself. -/
theorem Grown.isProper {p : Extent} :
    ∀ {t : Tree}, t.Grown text p → t.cost = 0 → t.symbol.isErroneous = false → t.IsProper
  | .leaf .., h, free, sound => IsGrownLeaf.isProper h free sound
  | .node label extra measure children, h, free, sound => by
    cases label with
    | error | skipped => cases sound
    | rule r layout =>
      obtain ⟨rfl, joins, grown⟩ := h
      obtain ⟨⟨rfl, -⟩, -⟩ := id joins
      have costs := eq_zero_of_sumOver ((grown.cost_rule joins).symm.trans free)
      exact .node (GrownOf.isProper grown costs fun t mem inside =>
        not_isErroneous_of_joins joins mem inside)

theorem GrownOf.isProper {p : Extent} :
    ∀ {ts : List Tree}, GrownOf text p ts → (∀ t ∈ ts, t.cost = 0) →
      (∀ t ∈ ts, t.isExtra = false → t.symbol.isErroneous = false) → ∀ t ∈ ts, t.IsProper
  | [], _, _, _ => fun t mem => absurd mem List.not_mem_nil
  | t :: ts, h, costs, sound => by
    obtain ⟨first, others⟩ := List.forall_mem_cons.mp costs
    obtain ⟨sound, sounds⟩ := List.forall_mem_cons.mp sound
    refine List.forall_mem_cons.mpr ⟨Grown.isProper h.1 first ?_, GrownOf.isProper h.2 others sounds⟩
    cases extra : t.isExtra with
    | false => exact sound extra
    | true =>
      rw [← Bool.not_eq_true]
      exact fun erroneous => (h.1.cost_of_isExtra extra erroneous).2 first

end

theorem IsWhole.isProper {t : Tree} (h : t.IsWhole text) (clean : t.isClean = true) :
    t.IsProper := by
  have free := isClean_iff.mp clean
  refine h.grown.isProper free ?_
  rcases h.root with ⟨layout, children, rfl⟩ | ⟨children, rfl⟩
  · rfl
  · exact absurd free (cost_ofChildren_error children)

theorem IsWhole.isFaultless {t : Tree} (h : t.IsWhole text) (clean : t.isClean = true) :
    ∀ x ∈ t.root.all, x.node.IsFaultless :=
  h.reportsOutermost.none_iff.mp (h.isClean_iff_syntaxErrors.mp clean)

open Node

/-! ### What a skeleton shows -/

mutual

/-- The form of the node of a tree is that of the node of its skeleton. -/
theorem form_toNode (bare : Bool) (field : Option Field) (p q : Extent) :
    ∀ {t : Tree}, t.IsProper →
      (t.toNode field p).form bare = ((t.skeleton bare).toNode field q).form bare
  | .leaf .., _ => rfl
  | .node label extra measure children, h => by
    rw [form_eq, form_eq]
    exact congrArg _ (forms_nodesOf bare label.layout 0 none p q h.of_mem_children)

theorem forms_nodesBelow (bare : Bool) (field : Option Field) (p q : Extent) :
    ∀ {t : Tree}, t.IsProper →
      forms bare (t.nodesBelow field p) = forms bare ((t.skeleton bare).nodesBelow field q)
  | .leaf .., _ => rfl
  | .node label .., h =>
    forms_nodesOf bare label.layout 0 field p q h.of_mem_children

theorem forms_nodesOf (bare : Bool) (layout index : Nat) (above : Option Field) (p q : Extent) :
    ∀ {ts : List Tree}, (∀ t ∈ ts, t.IsProper) →
      forms bare (nodesOf layout index above p ts) =
        forms bare (nodesOf layout index above q (skeletons bare ts))
  | [], _ => rfl
  | t :: rest, h => by
    obtain ⟨first, others⟩ := List.forall_mem_cons.mp h
    rw [nodesOf, forms_append]
    by_cases dropped : (bare && t.isExtra) = true
    · obtain ⟨rfl, extra⟩ := Bool.and_eq_true_iff.mp dropped
      rw [skeletons_cons_of_dropped dropped, nextIndex, if_pos extra,
        forms_nodesOf true layout index above _ q others]
      have nothing : forms true (if t.isVisible then [t.toNode (fieldOf layout index above t) p]
          else t.nodesBelow (fieldOf layout index above t) p) = [] := by
        rcases first.extra_cases extra with ⟨u, p', s, rfl, comment⟩ | ⟨hidden, none⟩
        · have visible : (Tree.leaf (.read u) p' s true).isVisible = true := by
            cases u <;> first | rfl | cases comment
          rw [if_pos visible, forms_singleton]
          exact if_pos comment
        · rw [if_neg (Bool.eq_false_iff.mp hidden), none]
          rfl
      rw [nothing, List.nil_append]
    · rw [Bool.not_eq_true] at dropped
      rw [skeletons_cons_of_kept dropped, nodesOf, forms_append, isVisible_skeleton, fieldOf, fieldOf,
        isExtra_skeleton, nextIndex, nextIndex, isExtra_skeleton,
        forms_nodesOf bare layout _ above _ (q + (t.skeleton bare).extent) others]
      congr 1
      split
      · rw [forms_singleton, forms_singleton, kind_toNode, kind_toNode, symbol_skeleton,
          form_toNode bare _ p q first]
      · exact forms_nodesBelow bare _ p q first

end

variable {text' : Text} {t t' : Tree}

theorem IsWhole.form_eq (h : t.IsWhole text) (h' : t'.IsWhole text') (clean : t.isClean = true)
    (clean' : t'.isClean = true) (same : t.skeleton bare = t'.skeleton bare) :
    t.root.form bare = t'.root.form bare := by
  rw [Tree.root, Tree.root, form_toNode bare none .zero .zero (h.isProper clean), same,
    ← form_toNode bare none .zero .zero (h'.isProper clean')]

/-- Trees without errors that have the same skeleton have the same outline. -/
theorem IsWhole.outline_eq (h : t.IsWhole text) (h' : t'.IsWhole text') (clean : t.isClean = true)
    (clean' : t'.isClean = true) (same : t.skeleton false = t'.skeleton false) :
    t.root.outline = t'.root.outline :=
  outline_eq_of_form (h.isFaultless clean) (h'.isFaultless clean')
    (h.form_eq h' clean clean' same)

end Tree

end SusSyntax
