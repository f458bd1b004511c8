import SusSyntax.Proofs.Diagnostics.Outermost
import SusSyntax.Proofs.Grammar.Shown

/-!
The shape of trees: what a node shows is what the grammar says.

A rule is reduced from symbols that fit its body (`spans_of_reduce`). Some of them are hidden: these
give way to what they were reduced from themselves, with the field that they have. By induction on
the tree, the visible children of every node over a rule are ones that the body of the rule shows
(`shows_nodesBelow`), whatever else went wrong in the text. A tree without errors has no other inner
nodes.
-/

namespace SusSyntax

open Grammar Grammar.Phrase

namespace Node

/-- What nodes are inside the grammar: their kinds and fields, without those of extras. -/
def inside (ns : List Node) : List Child :=
  (ns.filter fun n => !n.isExtra).map fun n => (n.kind, n.field)

@[simp] theorem inside_nil : inside [] = [] := rfl

@[simp] theorem inside_append (ns ms : List Node) :
    inside (ns ++ ms) = inside ns ++ inside ms := by
  simp [inside]

/-- The children of a node that stand inside the grammar, with their fields. -/
def shows (n : Node) : List Child :=
  inside n.children

end Node

namespace Tree

variable {text : Text} {p : Extent}

/-- The symbols of trees, the first of which has the number `index` in a layout, with the fields
that they have in a tree with the field `above`. -/
def partsOf (layout index : Nat) (above : Option Field) : List Tree → List Part
  | [] => []
  | t :: rest =>
    (t.symbol, (Layout.field? layout index).or above) :: partsOf layout (index + 1) above rest

theorem partsOf_eq (layout index : Nat) (above : Option Field) (ts : List Tree) :
    partsOf layout index above ts = (((ts.map symbol).zipIdx index).map fun x =>
      (x.1, Layout.field? layout x.2)).map (partWithin above) := by
  induction ts generalizing index with
  | nil => rfl
  | cons t ts ih =>
    rw [partsOf, ih]
    rfl

/-- The children of a rule are symbols that its body can be reduced from. -/
theorem spans_of_joins {extra : Bool} {children : List Tree} {r : Rule} {layout : Nat}
    (joins : Joins extra children (.rule r layout)) (h : GrownOf text p children)
    (above : Option Field) : Spans above r.body (partsOf layout 0 above (insiders children)) := by
  obtain ⟨_, s, t, reduces⟩ := joins
  rw [follow_eq_through, ← List.length_map (f := symbol)] at reduces
  rw [partsOf_eq]
  exact (spans_of_reduce h.noComment rfl reduces).within

/-- A token inside the grammar is visible. -/
theorem Grown.isVisible_of_token {t : Tree} (h : t.Grown text p) (inside : t.isExtra = false)
    {u : Token} (isToken : t.symbol = .token u) : t.isVisible = true := by
  cases t with
  | node label extra measure children => cases label <;> cases isToken
  | leaf content padding size extra =>
    cases h with
    | @missing v notEnd =>
      change (v != .eof) = true
      simpa using notEnd
    | whole => cases isToken
    | @read x isRead =>
      change x.leaf.symbol = _ at isToken
      change x.leaf.isOutside = false at inside
      change x.leaf.symbol.isVisible = true
      rcases isRead.leaf_cases with ⟨v, leaf⟩ | ⟨stuck, leaf⟩
      · rw [leaf] at inside ⊢
        have notEnd := (Bool.or_eq_false_iff.mp inside).1
        simpa [Leaf.symbol, Symbol.isVisible, Token.isVisible] using notEnd
      · rw [leaf] at isToken
        cases isToken

/-- Below an extra that is no node itself there are no nodes. -/
theorem Grown.nodesBelow_of_extra {t : Tree} (h : t.Grown text p) (extra : t.isExtra = true)
    (hidden : t.isVisible = false) (field : Option Field) (q : Extent) :
    t.nodesBelow field q = [] := by
  cases t with
  | leaf => rfl
  | node label isExtra measure children =>
    obtain ⟨_, joins, _⟩ := h
    obtain rfl : isExtra = true := extra
    cases label with
    | rule => cases joins.1.1
    | error => cases hidden
    | skipped => cases joins

theorem inside_toNode (field : Option Field) (p : Extent) (t : Tree) :
    Node.inside [t.toNode field p] = if t.isExtra then [] else [(t.symbol, field)] := by
  cases t with
  | leaf _ _ _ extra => cases extra <;> rfl
  | node _ extra _ _ => cases extra <;> rfl

mutual

/-- The nodes below a rule are what its body shows. -/
theorem shows_nodesBelow (field : Option Field) (p : Extent) {r : Rule} :
    ∀ {t : Tree}, t.Grown text p → t.symbol = .rule r →
      Shows field r.body (Node.inside (t.nodesBelow field p))
  | .leaf .., h, isRule => by
    cases h with
    | missing | whole => cases isRule
    | read isRead =>
      rcases isRead.leaf_cases with ⟨t, leaf⟩ | ⟨stuck, leaf⟩ <;>
        rw [symbol, leaf] at isRule <;> cases isRule
  | .node label extra measure children, h, isRule => by
    cases label with
    | rule r' layout =>
      obtain rfl := Symbol.rule.inj isRule
      obtain ⟨_, joins, grown⟩ := h
      exact (spans_of_joins joins grown field).shows
        (yields_nodesOf layout 0 field p grown fun _ => not_isErroneous_of_joins joins)
    | error | skipped => cases isRule

/-- What is seen of trees is what their symbols show. -/
theorem yields_nodesOf (layout index : Nat) (above : Option Field) (p : Extent) :
    ∀ {ts : List Tree}, GrownOf text p ts →
      (∀ t ∈ ts, t.isExtra = false → t.symbol.isErroneous = false) →
      Yields showsPart (partsOf layout index above (insiders ts))
        (Node.inside (nodesOf layout index above p ts))
  | [], _, _ => .nil
  | t :: rest, h, sane => by
    obtain ⟨sane, saneRest⟩ := List.forall_mem_cons.mp sane
    have rests := fun index => yields_nodesOf layout index above (p + t.extent) h.2 saneRest
    rw [nodesOf, Node.inside_append]
    by_cases extra : t.isExtra = true
    · have nothing : Node.inside (if t.isVisible then [t.toNode (fieldOf layout index above t) p]
          else t.nodesBelow (fieldOf layout index above t) p) = [] := by
        split
        · rw [inside_toNode, if_pos extra]
        · rename_i hidden
          rw [h.1.nodesBelow_of_extra extra (by simpa using hidden)]
          rfl
      rw [nothing, insiders_cons_of_extra extra, nextIndex, if_pos extra, List.nil_append]
      exact rests index
    · rw [Bool.not_eq_true] at extra
      simp only [insiders_cons_of_not_extra extra, nextIndex, fieldOf, extra, Bool.false_eq_true,
        if_false]
      refine .cons ?_ (rests (index + 1))
      generalize (Layout.field? layout index).or above = field
      split
      · rename_i visible
        rw [inside_toNode, if_neg (by simp [extra])]
        unfold showsPart
        cases same : t.symbol with
        | token u => rfl
        | rule r => exact .visible (by rwa [isVisible, same] at visible)
        | error | skipped => cases same ▸ sane extra
      · rename_i hidden
        unfold showsPart
        cases same : t.symbol with
        | token u => exact absurd (h.1.isVisible_of_token extra same) hidden
        | rule r =>
          refine .hidden ?_ (shows_nodesBelow field p h.1 same)
          simpa [isVisible, same, Symbol.isVisible, Rule.isVisible] using hidden
        | error | skipped => cases same ▸ sane extra

end

mutual

/-- Extras have no field. -/
theorem field_of_mem_nodesBelow (field : Option Field) (p : Extent) :
    ∀ (t : Tree), ∀ m ∈ t.nodesBelow field p, m.isExtra = true → m.field = none
  | .leaf .., _, mem => absurd mem List.not_mem_nil
  | .node label _ _ children, m, mem => field_of_mem_nodesOf label.layout 0 field p children m mem

theorem field_of_mem_nodesOf (layout index : Nat) (above : Option Field) (p : Extent) :
    ∀ (ts : List Tree), ∀ m ∈ nodesOf layout index above p ts, m.isExtra = true → m.field = none
  | [], _, mem => absurd mem List.not_mem_nil
  | t :: rest, m, mem => by
    rcases mem_nodesOf_cons.mp mem with ⟨-, rfl⟩ | ⟨-, mem⟩ | mem
    · intro extra
      cases t <;> exact if_pos extra
    · exact field_of_mem_nodesBelow _ p t m mem
    · exact field_of_mem_nodesOf _ _ _ _ rest m mem

end

end Tree

/-! ### The nodes of a tree -/

namespace Node

mutual

/-- What holds of a node in its surroundings and is passed on to the children holds of all nodes from
there down. -/
theorem walk_induction {P : Placed → Prop} :
    ∀ (n : Node) (depth : Nat) (parent? : Option Symbol), P ⟨depth, parent?, n⟩ →
      (∀ x ∈ n.walk depth parent?, P x →
        ∀ m ∈ x.node.children, P ⟨x.depth + 1, some x.node.kind, m⟩) →
      ∀ x ∈ n.walk depth parent?, P x
  | ⟨kind, field, isExtra, isMissing, hasError, stuckAt?, start, stop, children⟩,
      depth, parent?, h, below, x, mem => by
    rw [walk] at mem below
    rcases List.mem_cons.mp mem with rfl | mem
    · exact h
    · exact walkAll_induction children (depth + 1) (some kind) (below _ List.mem_cons_self h)
        (fun y later => below y (List.mem_cons_of_mem _ later)) x mem

theorem walkAll_induction {P : Placed → Prop} :
    ∀ (ns : List Node) (depth : Nat) (parent? : Option Symbol), (∀ n ∈ ns, P ⟨depth, parent?, n⟩) →
      (∀ x ∈ walkAll depth parent? ns, P x →
        ∀ m ∈ x.node.children, P ⟨x.depth + 1, some x.node.kind, m⟩) →
      ∀ x ∈ walkAll depth parent? ns, P x
  | [], _, _, _, _, _, mem => absurd mem List.not_mem_nil
  | n :: rest, depth, parent?, h, below, x, mem => by
    obtain ⟨first, others⟩ := List.forall_mem_cons.mp h
    rw [walkAll] at mem below
    rcases List.mem_append.mp mem with mem | mem
    · exact walk_induction n depth parent? first
        (fun y here => below y (List.mem_append_left _ here)) x mem
    · exact walkAll_induction rest depth parent? others
        (fun y later => below y (List.mem_append_right _ later)) x mem

end

/-- What holds of a node and is passed on to the children holds of all nodes from there down. -/
theorem forall_mem_walk {P : Node → Prop} (below : ∀ n, P n → ∀ m ∈ n.children, P m) (n : Node)
    (h : P n) (depth : Nat) (parent? : Option Symbol) : ∀ x ∈ n.walk depth parent?, P x.node :=
  walk_induction n depth parent? h fun x _ => below x.node

/-- The node of a visible tree that has grown where the node stands. -/
def IsGrown (text : Text) (n : Node) : Prop :=
  ∃ (t : Tree) (field : Option Field) (p : Extent),
    text.IsPlace p ∧ t.Grown text p ∧ t.isVisible = true ∧ n = t.toNode field p

end Node

namespace Tree

variable {text : Text}

mutual

theorem isGrown_of_mem_nodesBelow (field : Option Field) (p : Extent) (place : text.IsPlace p) :
    ∀ {t : Tree}, t.Grown text p → ∀ m ∈ t.nodesBelow field p, m.IsGrown text
  | .leaf .., _, _, mem => absurd mem List.not_mem_nil
  | .node label .., h, m, mem =>
    isGrown_of_mem_nodesOf label.layout 0 field p place h.2.2 m mem

/-- The nodes of grown trees are nodes of grown trees. -/
theorem isGrown_of_mem_nodesOf (layout index : Nat) (above : Option Field) (p : Extent)
    (place : text.IsPlace p) :
    ∀ {ts : List Tree}, GrownOf text p ts → ∀ m ∈ nodesOf layout index above p ts, m.IsGrown text
  | [], _, _, mem => absurd mem List.not_mem_nil
  | t :: rest, h, m, mem => by
    rcases mem_nodesOf_cons.mp mem with ⟨visible, rfl⟩ | ⟨-, mem⟩ | mem
    · exact ⟨t, _, p, place, h.1, visible, rfl⟩
    · exact isGrown_of_mem_nodesBelow _ p place h.1 m mem
    · exact isGrown_of_mem_nodesOf _ _ _ _ (h.1.isPlace place) h.2 m mem

end

end Tree

namespace Node

variable {text : Text} {n : Node}

theorem IsGrown.of_mem_children (h : n.IsGrown text) : ∀ m ∈ n.children, m.IsGrown text := by
  obtain ⟨t, field, p, place, grown, visible, rfl⟩ := h
  cases t with
  | leaf => exact fun m mem => absurd mem List.not_mem_nil
  | node label => exact Tree.isGrown_of_mem_nodesOf label.layout 0 none p place grown.2.2

theorem IsGrown.isVisible (h : n.IsGrown text) : n.kind.isVisible = true := by
  obtain ⟨t, field, p, _, grown, visible, rfl⟩ := h
  cases t <;> exact visible

/-- A node over a rule shows what the body of the rule shows. -/
theorem IsGrown.shows (h : n.IsGrown text) {r : Rule} (kind : n.kind = .rule r) :
    Shows none r.body n.shows := by
  obtain ⟨t, field, p, _, grown, visible, rfl⟩ := h
  cases t <;> exact Tree.shows_nodesBelow none p grown kind

/-- A token has no children. -/
theorem IsGrown.children_of_token (h : n.IsGrown text) {u : Token} (kind : n.kind = .token u) :
    n.children = [] := by
  obtain ⟨t, field, p, _, grown, visible, rfl⟩ := h
  cases t with
  | leaf => rfl
  | node label => cases label <;> cases kind

/-- A node over a rule stands inside the grammar. -/
theorem IsGrown.isExtra_of_rule (h : n.IsGrown text) {r : Rule} (kind : n.kind = .rule r) :
    n.isExtra = false := by
  obtain ⟨t, field, p, _, grown, _, rfl⟩ := h
  cases t with
  | leaf content => cases content <;> cases kind
  | node label =>
    cases label with
    | rule => exact grown.2.1.1.1
    | error | skipped => cases kind

/-- The children that are extras have no field. -/
theorem IsGrown.field_of_extra (h : n.IsGrown text) :
    ∀ m ∈ n.children, m.isExtra = true → m.field = none := by
  obtain ⟨t, field, p, _, grown, visible, rfl⟩ := h
  cases t with
  | leaf => exact fun m mem => absurd mem List.not_mem_nil
  | node label _ _ children => exact Tree.field_of_mem_nodesOf label.layout 0 none p children

/-- A child with a field is shown. -/
theorem IsGrown.mem_shows (h : n.IsGrown text) {m : Node} (mem : m ∈ n.children) {f : Field}
    (field : m.field = some f) : (m.kind, some f) ∈ n.shows := by
  have inside : m.isExtra = false := by
    rw [← Bool.not_eq_true]
    intro extra
    rw [h.field_of_extra m mem extra] at field
    cases field
  refine List.mem_map.mpr ⟨m, List.mem_filter.mpr ⟨mem, by simp [inside]⟩, ?_⟩
  rw [field]

/-- A child inside the grammar is one that the rule shows. -/
theorem IsGrown.mem_childrenWithin (h : n.IsGrown text) {r : Rule} (kind : n.kind = .rule r) {m : Node}
    (mem : m ∈ n.children) (inside : m.isExtra = false) :
    (m.kind, m.field) ∈ childrenWithin 4 none r := by
  have shown : (m.kind, m.field) ∈ n.shows :=
    List.mem_map.mpr ⟨m, List.mem_filter.mpr ⟨mem, by rw [inside]; rfl⟩, rfl⟩
  exact mem_childrenWithin_of_shows (h.shows kind) _ shown

/-- A node has grown. Inside the grammar its symbol and its field are such as the rule above it shows,
and outside it has no field. -/
structure Placed.IsShown (text : Text) (x : Placed) : Prop where
  grown : x.node.IsGrown text
  inside : ∀ r, x.parent? = some (.rule r) → x.node.isExtra = false →
    (x.node.kind, x.node.field) ∈ childrenWithin 4 none r
  outside : x.node.isExtra = true → x.node.field = none

/-- A node with a field stands inside the grammar. -/
theorem Placed.IsShown.mem_of_field {x : Placed} (h : x.IsShown text) {r : Rule} {f : Field}
    (parent : x.parent? = some (.rule r)) (field : x.node.field = some f) :
    (x.node.kind, some f) ∈ childrenWithin 4 none r := by
  rw [← field]
  refine h.inside r parent (Bool.eq_false_iff.mpr fun extra => ?_)
  rw [h.outside extra] at field
  cases field

end Node

/-! ### Trees without errors -/

namespace Tree

/-- A tree whose nodes show what the grammar says: every node is one over a rule, with the children
that the body of the rule shows, or a token. -/
structure IsWellShaped (t : Tree) : Prop where
  kind : t.root.kind = .rule .sourceFile
  nodes : ∀ x ∈ t.root.all,
    (∃ r, x.node.kind = .rule r ∧ Shows none r.body x.node.shows) ∨
      ∃ u, x.node.kind = .token u ∧ x.node.children = []
  declarations : ∀ x ∈ t.root.all, x.node.kind = .rule .declaration →
    Rule.IsDeclaration x.node.shows
  items : ∀ m ∈ t.root.children, m.field = some .item → m.kind = .rule .globalObject
  lists : ∀ x ∈ t.root.all, ∀ r ∈ Rule.lists, x.node.kind = .rule r →
    ∀ c ∈ x.node.shows, Rule.isListChild c = true

variable {text : Text} {t : Tree}

theorem IsWhole.isGrown_root (h : t.IsWhole text) : t.root.IsGrown text :=
  ⟨t, none, .zero, text.isPlace_zero, h.grown, h.root_cases.1, rfl⟩

theorem IsWhole.isGrown_of_mem_all (h : t.IsWhole text) : ∀ x ∈ t.root.all, x.node.IsGrown text :=
  Node.forall_mem_walk (fun _ => Node.IsGrown.of_mem_children) _ h.isGrown_root _ _

/-- Every node is one of those that the rule above it shows, or an extra without a field. -/
theorem IsWhole.isShown_of_mem_all (h : t.IsWhole text) : ∀ x ∈ t.root.all, x.IsShown text := by
  refine Node.walk_induction t.root 0 none ?_ fun x _ shown m mem => ?_
  · refine ⟨h.isGrown_root, ?_, fun _ => ?_⟩
    · rintro r ⟨⟩
    · cases t <;> rfl
  · exact ⟨shown.grown.of_mem_children m mem, fun r isRule inside =>
      shown.grown.mem_childrenWithin (Option.some.inj isRule) mem inside,
      shown.grown.field_of_extra m mem⟩

theorem IsWhole.isWellShaped (h : t.IsWhole text) (clean : t.syntaxErrors = []) :
    t.IsWellShaped := by
  have grown := h.isGrown_of_mem_all
  have free := h.reportsOutermost.none_iff.mp clean
  have here : (⟨0, none, t.root⟩ : Node.Placed) ∈ t.root.all := by
    cases t.root
    exact List.mem_cons_self
  have kind : t.root.kind = .rule .sourceFile := by
    rcases h.root with ⟨layout, children, rfl⟩ | ⟨children, rfl⟩
    · rfl
    · cases (free _ here).1
  refine ⟨kind, fun x mem => ?_, fun x mem kind => ?_, fun m mem field => ?_,
    fun x mem r isList kind => ?_⟩
  · have visible := (grown x mem).isVisible
    cases same : x.node.kind with
    | token u => exact .inr ⟨u, rfl, (grown x mem).children_of_token same⟩
    | rule r => exact .inl ⟨r, rfl, (grown x mem).shows same⟩
    | error => simpa [Node.isError, same] using (free x mem).1
    | skipped => cases same ▸ visible
  · exact Rule.shows_declaration_iff.mp ((grown x mem).shows kind)
  · have shown := (grown _ here).mem_shows mem field
    exact Rule.item_of_shows_sourceFile ((grown _ here).shows kind) _ shown rfl
  · exact Rule.isListChild_of_shows isList ((grown x mem).shows kind)

end Tree

/-- In a source without syntax errors, every node shows what the grammar says. -/
theorem isWellShaped_parse (source : List UInt8) (clean : (parse source).syntaxErrors = []) :
    (parse source).IsWellShaped :=
  (isWhole_parse source).isWellShaped clean

/-- The module `m` with a declaration and a comment in it. -/
theorem isWellShaped_parse_module :
    (parse "module m\x7b\nint a // b\n\x7d".toUTF8.data.toList).syntaxErrors = [] ∧
      (parse "module m\x7b\nint a // b\n\x7d".toUTF8.data.toList).IsWellShaped :=
  ⟨by decide +kernel, isWellShaped_parse _ (by decide +kernel)⟩

end SusSyntax
