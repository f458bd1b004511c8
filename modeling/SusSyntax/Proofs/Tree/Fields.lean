import Mathlib.Data.List.Forall2
import SusSyntax.Proofs.Grammar.Slots
import SusSyntax.Proofs.Tree.Shape
import SusSyntax.Proofs.Tree.Skeleton
import SusSyntax.Proofs.Tree.Tiling
import SusSyntax.Tree.FieldMap

/-!
Fields, from above and from below.

The layout of a tree leads down to the nodes in a field, through its hidden children, and each node
knows its field from the hidden trees above it. Both agree on every tree over a rule
(`Tree.inField_eq`): by induction on the tree, since a layout suits its children
(`Tree.suits_of_joins`). Errors have no layout, and are left out. The nodes of a source and the trees that
they show go hand in hand, so all ways to look a field up give the same (`findsFields_parse`).
-/

namespace SusSyntax

open Grammar

namespace Node

/-- The children of a node in a field. -/
def inField (n : Node) (f : Field) : List Node :=
  n.children.filter fun c => c.field == some f

/-- The children of a node in the field of this name. -/
def childrenByName (n : Node) (name : String) : List Node :=
  n.children.filter fun c => c.field.any (·.label == name)

/-- The children of a node in the field of this number. -/
def childrenById (n : Node) (id : Nat) : List Node :=
  n.children.filter fun c => c.field.any (·.id == id)

/-- The children whose field has a key are those in the field that the key is looked up as. -/
theorem filter_any {κ : Type} [BEq κ] [LawfulBEq κ] (look : κ → Option Field) (key : Field → κ)
    (agree : ∀ k f, look k = some f ↔ key f = k) (n : Node) (k : κ) :
    (n.children.filter fun c => c.field.any (key · == k)) = ((look k).map n.inField).getD [] := by
  cases found : look k with
  | some f =>
    refine List.filter_congr fun c _ => ?_
    cases c.field with
    | none => rfl
    | some g =>
      rw [Option.any_some, Bool.eq_iff_iff, beq_iff_eq, beq_iff_eq, ← agree, found, Option.some_inj,
        Option.some_inj, eq_comm]
  | none =>
    refine List.filter_eq_nil_iff.mpr fun c _ => ?_
    cases c.field with
    | none => exact Bool.false_ne_true
    | some g =>
      rw [Option.any_some, beq_iff_eq, ← agree, found]
      nofun

end Node

namespace Tree

/-- The first node in the field of this name, found by the layouts. -/
def childByName? (t : Tree) (name : String) (pos : Extent) : Option Node :=
  (Field.ofName? name).bind fun f => (t.inField f pos).head?

/-- The first node in the field of this number, found by the layouts. -/
def childById? (t : Tree) (id : Nat) (pos : Extent) : Option Node :=
  (Field.ofId? id).bind fun f => (t.inField f pos).head?

variable {text : Text} {p : Extent}

/-! ### Layouts and children -/

/-- Layouts say of the trees in their places, from number `index` on, what these show. -/
def AreSuited (layout index : Nat) (ts : List Tree) : Prop :=
  ∀ i x, ((insiders ts).map symbol)[i]? = some x → Layout.suits layout (index + i) x = true

theorem AreSuited.of_extra {layout index : Nat} {t : Tree} {ts : List Tree}
    (h : AreSuited layout index (t :: ts)) (extra : t.isExtra = true) :
    AreSuited layout index ts := by
  rwa [AreSuited, insiders_cons_of_extra extra] at h

theorem AreSuited.of_not_extra {layout index : Nat} {t : Tree} {ts : List Tree}
    (h : AreSuited layout index (t :: ts)) (inside : t.isExtra = false) :
    Layout.suits layout index t.symbol = true ∧ AreSuited layout (index + 1) ts := by
  rw [AreSuited, insiders_cons_of_not_extra inside] at h
  refine ⟨h 0 _ rfl, fun i x at' => ?_⟩
  rw [Nat.add_assoc, Nat.add_comm 1]
  exact h (i + 1) x at'

/-- The layout of a rule says of its children what they show. -/
theorem suits_of_joins {extra : Bool} {children : List Tree} {r : Rule} {layout : Nat}
    (joins : Joins extra children (.rule r layout)) (h : GrownOf text p children) :
    AreSuited layout 0 children := by
  obtain ⟨_, s, t, reduces⟩ := joins
  rw [follow_eq_through, ← List.length_map (f := symbol)] at reduces
  intro i x at'
  rw [Nat.zero_add]
  exact suits_of_reduce h.noComment rfl reduces at'

/-- Trees around which there are no extras are one tree if one of them is none. -/
theorem AreTrim.eq_singleton {ts : List Tree} {t : Tree} (trim : AreTrim ts)
    (one : insiders ts = [t]) : ts = [t] := by
  cases ts with
  | nil => cases one
  | cons u rest =>
    rw [insiders_cons_of_not_extra (trim.first u rfl)] at one
    obtain ⟨rfl, none⟩ := List.cons.inj one
    obtain rfl | ⟨front, last, rfl⟩ := List.eq_nil_or_concat rest
    · rfl
    · have extra := List.filter_eq_nil_iff.mp none last (by simp)
      have inside := trim.last last (by simp [List.getLast?_cons])
      rw [inside] at extra
      exact absurd rfl extra

/-- A unit shows its one child, with the field that the unit has. -/
theorem nodesBelow_of_isUnit {t : Tree} {r : Rule} (h : t.Grown text p) (isRule : t.symbol = .rule r)
    (unit : r.isUnit = true) (f : Field) :
    ∃ n : Node, t.nodesBelow (some f) p = [n] ∧ n.field = some f := by
  cases t with
  | leaf content => cases content <;> cases isRule
  | node label extra measure children =>
    cases label with
    | error | skipped => cases isRule
    | rule r' layout =>
      obtain rfl := Symbol.rule.inj isRule
      obtain ⟨_, ⟨⟨_, trim⟩, s, u, reduces⟩, grown⟩ := h
      rw [follow_eq_through, ← List.length_map (f := symbol)] at reduces
      obtain ⟨rfl, x, one, visible⟩ :=
        eq_singleton_of_reduce_isUnit grown.noComment rfl reduces unit
      have hidden : r'.isHidden = true := by
        cases r' <;> first | rfl | cases unit
      obtain ⟨c, inside, rfl⟩ := List.map_eq_singleton_iff.mp one
      have notExtra : c.isExtra = false := by
        have mem : c ∈ insiders children := inside ▸ List.mem_singleton_self c
        simpa using (List.mem_filter.mp mem).2
      obtain rfl := (trim hidden).eq_singleton inside
      have field : fieldOf 0 0 (some f) c = some f := by
        rw [fieldOf, notExtra, if_neg Bool.false_ne_true]
        rfl
      refine ⟨c.toNode (some f) p, ?_, field_toNode ..⟩
      change nodesOf 0 0 (some f) p [c] = _
      rw [nodesOf, nodesOf, field, if_pos (show c.isVisible = true from visible), List.append_nil]

/-- Nodes that a hidden rule does not show are not below it. -/
theorem field_ne_of_mem_nodesBelow {t : Tree} {r : Rule} (h : t.Grown text p)
    (isRule : t.symbol = .rule r) {f : Field} (unknown : f ∉ fieldsWithin (.rule r)) :
    ∀ n ∈ t.nodesBelow none p, n.field ≠ some f := by
  intro n mem field
  have inside : n.isExtra = false := by
    rw [← Bool.not_eq_true]
    intro extra
    rw [field_of_mem_nodesBelow none p t n mem extra] at field
    cases field
  have shown : (n.kind, n.field) ∈ Node.inside (t.nodesBelow none p) :=
    List.mem_map.mpr ⟨n, List.mem_filter.mpr ⟨mem, by rw [inside]; rfl⟩, rfl⟩
  have known := Phrase.mem_childrenWithin_of_shows (shows_nodesBelow none p h isRule) _ shown
  exact unknown (List.mem_filterMap.mpr ⟨_, known, field⟩)

/-- What is hidden in the grammar stands over a rule. -/
theorem Grown.exists_rule {t : Tree} (h : t.Grown text p) (inside : t.isExtra = false)
    (sane : t.symbol.isErroneous = false) (hidden : t.isVisible = false) :
    ∃ r, t.symbol = .rule r := by
  cases same : t.symbol with
  | rule r => exact ⟨r, rfl⟩
  | token u =>
    rw [h.isVisible_of_token inside same] at hidden
    cases hidden
  | error | skipped =>
    rw [same] at sane
    cases sane

/-- In one place of a layout, what its slot leads to are the nodes that have the field, if this is so
below the tree in that place. -/
theorem inPlace_eq (f : Field) {layout index : Nat} {t : Tree} (h : t.Grown text p)
    (inside : t.isExtra = false) (sane : t.symbol.isErroneous = false)
    (suits : Layout.suits layout index t.symbol = true)
    (below : ∀ r, t.symbol = .rule r →
      t.inField f p = (t.nodesBelow none p).filter fun n => n.field == some f) :
    (match Layout.slot? layout f index with
      | none => []
      | some slot =>
        if slot.inherited then t.inField f p
        else if t.isVisible then [t.toNode (some f) p]
        else t.nodesBelow (some f) p) =
      (if t.isVisible then [t.toNode (Layout.field? layout index) p]
        else t.nodesBelow (Layout.field? layout index) p).filter fun n => n.field == some f := by
  cases own : Layout.field? layout index with
  | some g =>
    -- The tree shows one node, which has this field.
    obtain ⟨slot, single⟩ := Layout.suits_own suits own
    have shown : ∃ n : Node, n.field = some g ∧
        (if t.isVisible then [t.toNode (some g) p] else t.nodesBelow (some g) p) = [n] := by
      cases visible : t.isVisible with
      | true => exact ⟨_, field_toNode .., rfl⟩
      | false =>
        obtain ⟨r, isRule⟩ := h.exists_rule inside sane visible
        rw [isVisible, isRule] at visible
        rw [isRule, Symbol.isSingle, show r.isVisible = false from visible, Bool.false_or] at single
        obtain ⟨n, one, field⟩ := nodesBelow_of_isUnit h isRule single g
        exact ⟨n, field, one⟩
    obtain ⟨n, field, one⟩ := shown
    rw [slot, one]
    by_cases same : f = g
    · subst same
      rw [if_pos rfl, List.filter_cons_of_pos (by simp [field]), List.filter_nil]
      exact one
    · rw [if_neg same, List.filter_cons_of_neg (by simp [field, Ne.symm same]), List.filter_nil]
  | none =>
    cases visible : t.isVisible with
    | true =>
      simp [Layout.suits_visible suits own visible f]
    | false =>
      obtain ⟨r, isRule⟩ := h.exists_rule inside sane visible
      rw [if_neg Bool.false_ne_true]
      rcases Layout.suits_hidden suits own visible f with ⟨slot, found, inherited⟩ | ⟨found, unknown⟩
      · rw [found]
        exact (if_pos inherited).trans (below r isRule)
      · rw [found]
        rw [isRule] at unknown
        refine (List.filter_eq_nil_iff.mpr fun n mem => ?_).symm
        simpa using field_ne_of_mem_nodesBelow h isRule unknown n mem

mutual

/-- What the layouts of a rule lead to are the nodes that have the field. -/
theorem inField_eq (f : Field) (p : Extent) :
    ∀ {t : Tree}, t.Grown text p → ∀ r, t.symbol = .rule r →
      t.inField f p = (t.nodesBelow none p).filter fun n => n.field == some f
  | .leaf .., _, _, _ => rfl
  | .node label extra measure children, h, r, isRule => by
    cases label with
    | error | skipped => cases isRule
    | rule r' layout =>
      exact inFieldOf_eq f layout 0 p h.2.2 (suits_of_joins h.2.1 h.2.2) fun _ =>
        not_isErroneous_of_joins h.2.1

/-- What a layout leads to among children are the nodes that have the field. -/
theorem inFieldOf_eq (f : Field) (layout index : Nat) (p : Extent) :
    ∀ {ts : List Tree}, GrownOf text p ts → AreSuited layout index ts →
      (∀ t ∈ ts, t.isExtra = false → t.symbol.isErroneous = false) →
      inFieldOf f layout index p ts =
        (nodesOf layout index none p ts).filter fun n => n.field == some f
  | [], _, _, _ => rfl
  | t :: rest, h, suited, sane => by
    obtain ⟨sane, saneRest⟩ := List.forall_mem_cons.mp sane
    have rests := fun index suited =>
      inFieldOf_eq f layout index (p + t.extent) h.2 suited saneRest
    rw [inFieldOf, nodesOf, List.filter_append]
    cases extra : t.isExtra with
    | true =>
      simp only [nextIndex, fieldOf, extra, if_true, rests index (suited.of_extra extra)]
      refine congrArg (· ++ _) ?_
      split
      · rw [List.filter_cons_of_neg (by simp), List.filter_nil]
      · rename_i hidden
        rw [h.1.nodesBelow_of_extra extra (by simpa using hidden), List.filter_nil]
    | false =>
      obtain ⟨suits, suited⟩ := suited.of_not_extra extra
      simp only [nextIndex, fieldOf, extra, Bool.false_eq_true, if_false,
        rests (index + 1) suited, Option.or_none]
      exact congrArg (· ++ _) (inPlace_eq f h.1 extra (sane extra) suits (inField_eq f p h.1))

end

/-! ### Nodes and their trees -/

/-- A node is that of a tree that has grown. -/
structure IsNodeOf (text : Text) (x : Node.Placed) (y : Tree × Extent) : Prop where
  node : x.node = y.1.toNode x.node.field y.2
  visible : y.1.isVisible = true
  grown : y.1.Grown text y.2

mutual

theorem walk_toNode (field : Option Field) (depth : Nat) (parent? : Option Symbol) (p : Extent) :
    ∀ {t : Tree}, t.Grown text p → t.isVisible = true →
      List.Forall₂ (IsNodeOf text) ((t.toNode field p).walk depth parent?) (t.shown p)
  | .leaf .., h, visible => by
    rw [shown, if_pos visible]
    exact .cons ⟨rfl, visible, h⟩ .nil
  | .node label extra measure children, h, visible => by
    rw [shown, if_pos visible]
    exact .cons ⟨rfl, visible, h⟩ (walk_nodesOf label.layout 0 none _ _ p h.2.2)

theorem walk_nodesBelow (field : Option Field) (depth : Nat) (parent? : Option Symbol)
    (p : Extent) : ∀ {t : Tree}, t.Grown text p → t.isVisible = false →
      List.Forall₂ (IsNodeOf text) (Node.walkAll depth parent? (t.nodesBelow field p)) (t.shown p)
  | .leaf .., _, hidden => by
    rw [shown, hidden, if_neg Bool.false_ne_true]
    exact .nil
  | .node label extra measure children, h, hidden => by
    rw [shown, hidden, if_neg Bool.false_ne_true]
    exact walk_nodesOf label.layout 0 field depth parent? p h.2.2

/-- The nodes of trees and the visible trees from them down stand in the same order. -/
theorem walk_nodesOf (layout index : Nat) (above : Option Field) (depth : Nat)
    (parent? : Option Symbol) (p : Extent) : ∀ {ts : List Tree}, GrownOf text p ts →
      List.Forall₂ (IsNodeOf text) (Node.walkAll depth parent? (nodesOf layout index above p ts))
        (shownOf p ts)
  | [], _ => .nil
  | t :: rest, h => by
    rw [nodesOf, shownOf, Node.walkAll_append]
    refine List.rel_append ?_ (walk_nodesOf _ _ _ _ _ _ h.2)
    split
    · rename_i visible
      rw [Node.walkAll, Node.walkAll, List.append_nil]
      exact walk_toNode _ depth parent? p h.1 visible
    · rename_i hidden
      exact walk_nodesBelow _ depth parent? p h.1 (by simpa using hidden)

end

/-- The ways to look up the children of a node in a field: from its tree by the layouts, and by the
fields that the children have. -/
structure FindsFields (n : Node) (t : Tree) (p : Extent) : Prop where
  all : ∀ f, t.inField f p = n.inField f
  byName : ∀ name, t.childByName? name p = (n.childrenByName name).head?
  byId : ∀ id, t.childById? id p = (n.childrenById id).head?

theorem inField_toNode {t : Tree} (h : t.Grown text p) (visible : t.isVisible = true)
    (sane : t.isError = false) (field : Option Field) (f : Field) :
    t.inField f p = (t.toNode field p).inField f := by
  rw [Node.inField, children_toNode]
  cases same : t.symbol with
  | rule r => exact inField_eq f p h r same
  | token u =>
    cases t with
    | leaf => rfl
    | node label => cases label <;> cases same
  | error =>
    rw [isError, same] at sane
    cases sane
  | skipped =>
    rw [isVisible, same] at visible
    cases visible

/-- If a tree and its node find the same in every field, all look-ups agree. -/
theorem findsFields_of_all {n : Node} {t : Tree} (all : ∀ f, t.inField f p = n.inField f) :
    FindsFields n t p where
  all := all
  byName name := by
    rw [childByName?, Node.childrenByName, Node.filter_any Field.ofName? Field.label
      fun _ _ => Field.ofName?_eq_some_iff]
    cases Field.ofName? name with
    | none => rfl
    | some f => exact congrArg List.head? (all f)
  byId id := by
    rw [childById?, Node.childrenById, Node.filter_any Field.ofId? Field.id
      fun _ _ => Field.ofId?_eq_some_iff]
    cases Field.ofId? id with
    | none => rfl
    | some f => exact congrArg List.head? (all f)

theorem IsWhole.findsFields {t : Tree} (h : t.IsWhole text) :
    List.Forall₂ (fun x y => x.node = y.1.toNode x.node.field y.2 ∧
        (x.node.isError = false → FindsFields x.node y.1 y.2))
      t.root.all (t.shown .zero) := by
  have nodes : List.Forall₂ (IsNodeOf text) t.root.all (t.shown .zero) :=
    walk_toNode none 0 none .zero h.grown h.root_cases.1
  refine nodes.imp fun x y isNode => ⟨isNode.node, fun sane => findsFields_of_all fun f => ?_⟩
  rw [isNode.node] at sane ⊢
  refine inField_toNode isNode.grown isNode.visible ?_ _ f
  rwa [Node.isError, kind_toNode] at sane

end Tree

/-- In the tree of a source every node that is no error finds the same children in a field by the
layouts of its tree, by the name of the field and by its number. -/
theorem findsFields_parse (source : List UInt8) :
    List.Forall₂ (fun x y => x.node = y.1.toNode x.node.field y.2 ∧
        (x.node.isError = false → Tree.FindsFields x.node y.1 y.2))
      (parse source).root.all ((parse source).shown .zero) :=
  (isWhole_parse source).findsFields

end SusSyntax
