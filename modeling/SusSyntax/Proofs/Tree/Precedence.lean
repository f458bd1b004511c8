import SusSyntax.Proofs.Parse.Levels
import SusSyntax.Proofs.Tree.Shape

/-!
The operators that a tree shows, and how strongly they bind.

What is said of trees in a row holds of the nodes that are seen of them: an operation shows its
operands with the fields that its rule gives them, and the only thing hidden among them is an
expression that is just a name (`Tree.exists_operand`). So the level of a node can be read off the
operator that it shows (`Tree.operatorLevel?_eq`), and in a source without errors operands stand
only where their operators bind strongly enough (`mindsLevels_parse`).
-/

namespace SusSyntax

open Grammar

/-- An operation gives each field to one operand. -/
theorem Rule.eq_idxOf_operand {r : Rule} {i : Nat} {f : Option Field}
    (h : r.operandFields[i]? = some f) : i = r.operandFields.idxOf f := by
  have distinct : r.operandFields.Nodup := by
    cases r <;> decide
  obtain ⟨bound, rfl⟩ := List.getElem?_eq_some_iff.mp h
  exact (distinct.idxOf_getElem i bound).symm

/-! ### Children and the nodes that are seen of them -/

namespace Tree

variable {text : Text}

/-- A node with a field is what is seen of a tree that is no extra. -/
theorem exists_of_mem_nodesOf (layout : Nat) (above : Option Field) :
    ∀ {ts : List Tree} {p : Extent}, GrownOf text p ts → ∀ (index : Nat),
      ∀ m ∈ nodesOf layout index above p ts, ∀ f, m.field = some f →
        ∃ (i : Nat) (t : Tree) (q : Extent), (insiders ts)[i]? = some t ∧ t.Grown text q ∧
          ((t.isVisible = true ∧ (Layout.field? layout (index + i)).or above = some f ∧
              m = t.toNode (some f) q) ∨
            (t.isVisible = false ∧
              m ∈ t.nodesBelow ((Layout.field? layout (index + i)).or above) q))
  | [], _, _, _, _, mem, _, _ => absurd mem List.not_mem_nil
  | t :: rest, p, h, index, m, mem, f, field => by
    have later := fun index => exists_of_mem_nodesOf layout above h.2 index m
    cases extra : t.isExtra with
    | true =>
      rw [insiders_cons_of_extra extra]
      rcases mem_nodesOf_cons.mp mem with ⟨-, rfl⟩ | ⟨hidden, mem⟩ | mem
      · rw [field_toNode, fieldOf, extra] at field
        cases field
      · rw [h.1.nodesBelow_of_extra extra hidden] at mem
        cases mem
      · rw [nextIndex, extra] at mem
        exact later index mem f field
    | false =>
      rw [insiders_cons_of_not_extra extra]
      rw [mem_nodesOf_cons, fieldOf, nextIndex, extra, if_neg Bool.false_ne_true,
        if_neg Bool.false_ne_true] at mem
      rcases mem with ⟨visible, rfl⟩ | ⟨hidden, mem⟩ | mem
      · rw [field_toNode] at field
        exact ⟨0, t, p, rfl, h.1, .inl ⟨visible, field, by rw [field]⟩⟩
      · exact ⟨0, t, p, rfl, h.1, .inr ⟨hidden, mem⟩⟩
      · obtain ⟨i, u, q, here, grown, seen⟩ := later (index + 1) mem f field
        rw [Nat.add_assoc, Nat.add_comm 1 i] at seen
        exact ⟨i + 1, u, q, here, grown, seen⟩

/-- A visible tree that is no extra is seen, with the field that the layout gives it. -/
theorem mem_nodesOf_of_isVisible (layout : Nat) {t : Tree} (visible : t.isVisible = true) :
    ∀ {ts : List Tree} {i : Nat}, (insiders ts)[i]? = some t → ∀ (index : Nat) (q : Extent),
      ∃ q', t.toNode (Layout.field? layout (index + i)) q' ∈ nodesOf layout index none q ts
  | [], _, here, _, _ => by cases here
  | u :: rest, i, here, index, q => by
    rw [nodesOf]
    cases extra : u.isExtra with
    | true =>
      rw [insiders_cons_of_extra extra] at here
      rw [nextIndex, extra]
      obtain ⟨q', mem⟩ := mem_nodesOf_of_isVisible layout visible here index (q + u.extent)
      exact ⟨q', List.mem_append_right _ mem⟩
    | false =>
      rw [insiders_cons_of_not_extra extra] at here
      simp only [fieldOf, nextIndex, extra, Bool.false_eq_true, if_false, Option.or_none]
      cases i with
      | zero =>
        obtain rfl := Option.some.inj here
        refine ⟨q, List.mem_append_left _ ?_⟩
        rw [if_pos visible]
        exact List.mem_singleton_self _
      | succ i =>
        obtain ⟨q', mem⟩ := mem_nodesOf_of_isVisible layout visible here (index + 1) (q + u.extent)
        rw [Nat.add_assoc, Nat.add_comm 1 i] at mem
        exact ⟨q', List.mem_append_right _ mem⟩

end Tree

namespace Node

/-- The level of an operation with two operands, by the operator that it shows. -/
def operatorLevel? (n : Node) : Option Level :=
  (n.children.find? (·.field == some .operator)).bind (·.kind.level?)

/-- The operands of a node bind strongly enough for it: to the left at least as strongly as its own
operator, to the right more strongly, behind an operator with one operand more strongly than any
operator with two, and what is indexed, called or accessed is no such operation at all. -/
structure MindsLevels (n : Node) : Prop where
  binaryOp : n.kind = .rule .binaryOp → ∃ k, n.operatorLevel? = some k ∧
    ∀ m ∈ n.children, m.kind = .rule .binaryOp →
      (m.field = some .left → ∃ l, m.operatorLevel? = some l ∧ k ≤ l) ∧
      (m.field = some .right → ∃ l, m.operatorLevel? = some l ∧ k < l)
  unaryOp : n.kind = .rule .unaryOp → ∀ m ∈ n.children, m.field = some .right →
    m.kind ≠ .rule .binaryOp
  access : ∀ r f, (r, f) ∈ [(Rule.arrayOp, Field.arr), (.funcCall, .name), (.fieldAccess, .left)] →
    n.kind = .rule r → ∀ m ∈ n.children, m.field = some f →
      m.kind ≠ .rule .binaryOp ∧ m.kind ≠ .rule .unaryOp

/-- The node of a visible tree that has grown where the node stands, and is ordered. -/
def IsOrdered (text : Text) (n : Node) : Prop :=
  ∃ (t : Tree) (field : Option Field) (p : Extent),
    t.Grown text p ∧ t.Ordered ∧ t.isVisible = true ∧ n = t.toNode field p

end Node

namespace Tree

variable {text : Text}

mutual

theorem isOrdered_of_mem_nodesBelow (field : Option Field) (p : Extent) :
    ∀ {t : Tree}, t.Grown text p → t.Ordered → ∀ m ∈ t.nodesBelow field p, m.IsOrdered text
  | .leaf .., _, _, _, mem => absurd mem List.not_mem_nil
  | .node label .., grown, ordered, m, mem =>
    isOrdered_of_mem_nodesOf label.layout 0 field p grown.2.2 ordered.of_mem_children m mem

/-- The nodes of ordered trees are nodes of ordered trees. -/
theorem isOrdered_of_mem_nodesOf (layout index : Nat) (above : Option Field) (p : Extent) :
    ∀ {ts : List Tree}, GrownOf text p ts → (∀ t ∈ ts, t.Ordered) →
      ∀ m ∈ nodesOf layout index above p ts, m.IsOrdered text
  | [], _, _, _, mem => absurd mem List.not_mem_nil
  | t :: rest, grown, ordered, m, mem => by
    obtain ⟨first, others⟩ := List.forall_mem_cons.mp ordered
    rcases mem_nodesOf_cons.mp mem with ⟨visible, rfl⟩ | ⟨-, mem⟩ | mem
    · exact ⟨t, _, p, grown.1, first, visible, rfl⟩
    · exact isOrdered_of_mem_nodesBelow _ p grown.1 first m mem
    · exact isOrdered_of_mem_nodesOf _ _ _ _ grown.2 others m mem

end

theorem isOrdered_of_mem_root {t : Tree} (grown : t.Grown text .zero)
    (ordered : ∀ u ∈ t.children, u.Ordered) : ∀ m ∈ t.root.children, m.IsOrdered text := by
  cases t with
  | leaf => exact fun m mem => absurd mem List.not_mem_nil
  | node label => exact isOrdered_of_mem_nodesOf label.layout 0 none .zero grown.2.2 ordered

/-- The expression that stands hidden in an operation is a name, with the field of the operand. -/
theorem kind_of_mem_nodesBelow {t : Tree} {p : Extent} (grown : t.Grown text p)
    (ordered : t.Ordered) (isExpression : t.symbol = .rule .expression) {above : Option Field}
    {m : Node} (mem : m ∈ t.nodesBelow above p) {f : Field} (field : m.field = some f) :
    m.kind = .rule .templateGlobal ∧ above = some f := by
  obtain ⟨layout, extra, measure, children, rfl⟩ := exists_node_of_symbol isExpression
  have operates := ordered.orders.operates (by decide)
  have symbols := Rule.operates_expression operates
  have fields := Rule.fields_of_operates operates
  obtain ⟨i, u, q, here, -, seen⟩ := exists_of_mem_nodesOf layout above grown.2.2 0 m mem f field
  obtain ⟨v, single, known⟩ := List.map_eq_singleton_iff.mp symbols
  rw [single] at here
  obtain ⟨rfl, rfl⟩ : i = 0 ∧ v = u := by
    cases i with
    | zero => exact ⟨rfl, Option.some.inj here⟩
    | succ i => cases here
  have noField : Layout.field? layout 0 = none := by
    rw [symbols] at fields
    exact (List.cons.inj fields).1
  rcases seen with ⟨-, isField, rfl⟩ | ⟨hidden, -⟩
  · rw [Nat.add_zero, noField, Option.none_or] at isField
    exact ⟨by cases v <;> exact known, isField⟩
  · rw [isVisible, known] at hidden
    cases hidden

variable {r : Rule} {layout : Nat} {extra : Bool} {measure : Measure} {children : List Tree}
  {p : Extent} {m : Node}

/-- What is seen with a field in an operation is the operand that has the field, or is a name. -/
theorem exists_operand (grown : Grown text p (.node (.rule r layout) extra measure children))
    (ordered : Ordered (.node (.rule r layout) extra measure children))
    (operation : r ∈ Rule.operations) (mem : m ∈ nodesOf layout 0 none p children) {f : Field}
    (field : m.field = some f) :
    ∃ (i : Nat) (t : Tree) (q : Extent), (insiders children)[i]? = some t ∧
      t.Grown text q ∧ r.operandFields[i]? = some (some f) ∧
      (t.isVisible = true ∧ m = t.toNode (some f) q ∨
        t.isVisible = false ∧ m.kind = .rule .templateGlobal) := by
  have operates := ordered.orders.operates operation
  obtain ⟨i, t, q, here, grown', seen⟩ :=
    exists_of_mem_nodesOf layout none grown.2.2 0 m mem f field
  rw [Nat.zero_add, Option.or_none] at seen
  have isPart := List.mem_of_getElem? here
  obtain ⟨bound, -⟩ := List.getElem?_eq_some_iff.mp here
  have isField : r.operandFields[i]? = some (Layout.field? layout i) := by
    rw [← Rule.fields_of_operates operates]
    simp [bound]
  rcases seen with ⟨visible, known, rfl⟩ | ⟨hidden, below⟩
  · exact ⟨i, t, q, here, grown', by rw [isField, known], .inl ⟨visible, rfl⟩⟩
  · have isExpression : t.symbol = .rule .expression :=
      (Rule.shown_of_operates operates _ (List.mem_map_of_mem isPart)).resolve_left
        (by simpa [isVisible] using hidden)
    obtain ⟨kind, above⟩ := kind_of_mem_nodesBelow grown'
      (ordered.of_mem_children t (List.mem_filter.mp isPart).1) isExpression below field
    exact ⟨i, t, q, here, grown', by rw [isField, above], .inr ⟨hidden, kind⟩⟩

/-- The trees that an operation with two operands is made of. -/
theorem exists_operands (ordered : Ordered (.node (.rule .binaryOp layout) extra measure children)) :
    ∃ left operator right t k, insiders children = [left, operator, right] ∧
      operator.symbol = .token t ∧ t.level? = some k ∧
      level (.node (.rule .binaryOp layout) extra measure children) = k ∧
      k ≤ left.level ∧ k < right.level := by
  obtain ⟨operates, first, last⟩ := ordered.orders
  obtain ⟨x, t, y, k, symbols, -, isLevel⟩ := Rule.operates_binaryOp (operates (by decide))
  have known : Rule.binaryOp.level ((insiders children).map symbol) = k := by
    rw [symbols]
    change (t.level?).getD .compare = k
    rw [isLevel]
    rfl
  obtain ⟨left, others, parts, -, rest⟩ := List.map_eq_cons_iff.mp symbols
  obtain ⟨operator, others, rfl, isOperator, rest⟩ := List.map_eq_cons_iff.mp rest
  obtain ⟨right, rfl, -⟩ := List.map_eq_singleton_iff.mp rest
  refine ⟨left, operator, right, t, k, parts, isOperator, isLevel, known, ?_, ?_⟩
  · have := first left operator [right] parts
    rwa [isOperator, Symbol.demand_token isLevel] at this
  · have := last [left, operator] right parts
    rw [Rule.lastDemand, known] at this
    refine Level.lt_of_next_le this ?_
    rintro rfl
    exact absurd (Token.level_le_multiplicative isLevel) (by decide)

theorem level_le_multiplicative {t : Tree} (ordered : t.Ordered)
    (kind : t.symbol = .rule .binaryOp) : t.level ≤ .multiplicative := by
  obtain ⟨layout, extra, measure, children, rfl⟩ := exists_node_of_symbol kind
  obtain ⟨_, _, _, u, k, -, -, isLevel, level, -⟩ := exists_operands ordered
  rw [level]
  exact Token.level_le_multiplicative isLevel

theorem level_of_unaryOp {t : Tree} (kind : t.symbol = .rule .unaryOp) : t.level = .unary := by
  obtain ⟨layout, extra, measure, children, rfl⟩ := exists_node_of_symbol kind
  rfl

/-- Nothing that an operator binds less strongly is the operand behind an operator with only one. -/
theorem unary_le_level (ordered : Ordered (.node (.rule .unaryOp layout) extra measure children))
    {t : Tree} (here : (insiders children)[1]? = some t) : .unary ≤ t.level := by
  obtain ⟨operates, -, last⟩ := ordered.orders
  have fields := congrArg List.length (Rule.fields_of_operates (operates (by decide)))
  simp only [List.length_map, List.length_range, Rule.operandFields] at fields
  obtain ⟨x, y, parts⟩ : ∃ x y, insiders children = [x, y] := by
    match insiders children, fields with
    | [x, y], _ => exact ⟨x, y, rfl⟩
  rw [parts] at here
  obtain rfl := Option.some.inj here
  exact last [x] y parts

/-- What is indexed, called or accessed is no operation. -/
theorem level_of_access (ordered : Ordered (.node (.rule r layout) extra measure children))
    (access : r = .arrayOp ∨ r = .funcCall ∨ r = .fieldAccess) {t : Tree}
    (here : (insiders children)[0]? = some t) : t.level = .whole := by
  obtain ⟨operates, first, -⟩ := ordered.orders
  have operation : r ∈ Rule.operations := by
    rcases access with rfl | rfl | rfl <;> decide
  obtain ⟨x, second, demand⟩ := Rule.demand_of_operates (operates operation) access
  cases same : insiders children with
  | nil =>
    rw [same] at here
    cases here
  | cons v others =>
    rw [same] at here second
    obtain rfl := Option.some.inj here
    cases others with
    | nil => simp at second
    | cons w others =>
      obtain rfl : w.symbol = x := Option.some.inj second
      have enough := first v w others same
      rw [demand] at enough
      exact Level.eq_whole_of_le enough

/-- The level of an operation with two operands is that of the operator that it shows. -/
theorem operatorLevel?_eq {field : Option Field} {t : Tree} (grown : t.Grown text p)
    (ordered : t.Ordered) (kind : t.symbol = .rule .binaryOp) :
    (t.toNode field p).operatorLevel? = some t.level := by
  obtain ⟨layout, extra, measure, children, rfl⟩ := exists_node_of_symbol kind
  obtain ⟨left, operator, right, u, k, parts, isOperator, isLevel, level, -⟩ :=
    exists_operands ordered
  have visible : operator.isVisible = true := by
    rw [isVisible, isOperator]
    cases u <;> first | rfl | cases isLevel
  have isField : Layout.field? layout 1 = some .operator := by
    have fields := Rule.fields_of_operates (ordered.orders.operates (by decide))
    rw [parts] at fields
    exact (List.cons.inj (List.cons.inj fields).2).1
  have shown : ∃ q, operator.toNode (some .operator) q ∈ nodesOf layout 0 none p children := by
    rw [← isField]
    exact mem_nodesOf_of_isVisible layout visible (i := 1) (by rw [parts]; rfl) 0 p
  obtain ⟨q, shown⟩ := shown
  obtain ⟨m, found⟩ : ∃ m, (nodesOf layout 0 none p children).find?
      (·.field == some .operator) = some m := by
    refine Option.isSome_iff_exists.mp (List.find?_isSome.mpr ⟨_, shown, ?_⟩)
    cases operator <;> exact beq_self_eq_true _
  obtain ⟨i, v, q', here, -, operand, seen⟩ := exists_operand grown ordered (by decide)
    (List.mem_of_find?_eq_some found) (by simpa using List.find?_some found)
  obtain rfl : i = 1 := Rule.eq_idxOf_operand operand
  obtain rfl : operator = v := by
    rw [parts] at here
    exact Option.some.inj here
  rw [level, Node.operatorLevel?]
  change ((nodesOf layout 0 none p children).find? _).bind _ = _
  rw [found]
  rcases seen with ⟨-, rfl⟩ | ⟨hidden, -⟩
  · have kind : (operator.toNode (some .operator) q').kind = .token u := by
      cases operator <;> exact isOperator
    exact (congrArg Symbol.level? kind).trans isLevel
  · rw [visible] at hidden
    cases hidden

end Tree

namespace Node

variable {text : Text} {n : Node}

theorem IsOrdered.of_mem_children (h : n.IsOrdered text) : ∀ m ∈ n.children, m.IsOrdered text := by
  obtain ⟨t, field, p, grown, ordered, -, rfl⟩ := h
  cases t with
  | leaf => exact fun m mem => absurd mem List.not_mem_nil
  | node label =>
    exact Tree.isOrdered_of_mem_nodesOf label.layout 0 none p grown.2.2 ordered.of_mem_children

/-- What is seen with a field in an operation, and is an operation itself, is the operand that has
the field. -/
theorem IsOrdered.exists_operand {field : Option Field} {p : Extent} {t : Tree} {r r' : Rule}
    (grown : t.Grown text p) (ordered : t.Ordered) (kind : t.symbol = .rule r)
    (operation : r ∈ Rule.operations) {m : Node} (mem : m ∈ (t.toNode field p).children) {f : Field}
    (isField : m.field = some f) (isRule : m.kind = .rule r') (ne : r' ≠ .templateGlobal) :
    ∃ (u : Tree) (q : Extent), (Tree.insiders t.children)[r.operandFields.idxOf (some f)]? = some u ∧
      u.Grown text q ∧ u.Ordered ∧ u.symbol = .rule r' ∧ m = u.toNode (some f) q := by
  obtain ⟨layout, extra, measure, children, rfl⟩ := Tree.exists_node_of_symbol kind
  obtain ⟨i, u, q, here, grown', operand, ⟨visible, rfl⟩ | ⟨-, isName⟩⟩ :=
    Tree.exists_operand grown ordered operation mem isField
  · obtain rfl := Rule.eq_idxOf_operand operand
    have below := (List.mem_filter.mp (List.mem_of_getElem? here)).1
    refine ⟨u, q, here, grown', ordered.of_mem_children u below, ?_, rfl⟩
    cases u <;> exact isRule
  · rw [isRule] at isName
    exact absurd (Symbol.rule.inj isName) ne

theorem IsOrdered.mindsLevels (h : n.IsOrdered text) : n.MindsLevels := by
  obtain ⟨t, field, p, grown, ordered, -, rfl⟩ := h
  have symbol {r : Rule} (kind : (t.toNode field p).kind = .rule r) : t.symbol = .rule r := by
    cases t <;> exact kind
  refine ⟨fun kind => ?_, fun kind m mem isField isRule => ?_,
    fun r f known kind m mem isField => ?_⟩
  · refine ⟨_, Tree.operatorLevel?_eq grown ordered (symbol kind), fun m mem isRule => ?_⟩
    have operand {f : Field} (isField : m.field = some f) :=
      exists_operand grown ordered (symbol kind) (by decide) mem isField isRule (by decide)
    obtain ⟨layout, extra, measure, children, rfl⟩ := Tree.exists_node_of_symbol (symbol kind)
    obtain ⟨left, operator, right, _, k, parts, -, -, level, le, lt⟩ :=
      Tree.exists_operands ordered
    rw [level]
    refine ⟨fun isField => ?_, fun isField => ?_⟩
    · obtain ⟨u, q, here, grown', ordered', kind', rfl⟩ := operand isField
      rw [Tree.children, parts] at here
      obtain rfl : left = u := Option.some.inj here
      exact ⟨_, Tree.operatorLevel?_eq grown' ordered' kind', le⟩
    · obtain ⟨u, q, here, grown', ordered', kind', rfl⟩ := operand isField
      rw [Tree.children, parts] at here
      obtain rfl : right = u := Option.some.inj here
      exact ⟨_, Tree.operatorLevel?_eq grown' ordered' kind', lt⟩
  · obtain ⟨u, q, here, -, ordered', kind', rfl⟩ :=
      exists_operand grown ordered (symbol kind) (by decide) mem isField isRule (by decide)
    obtain ⟨layout, extra, measure, children, rfl⟩ := Tree.exists_node_of_symbol (symbol kind)
    have enough := Level.le_trans (Tree.unary_le_level ordered here)
      (Tree.level_le_multiplicative ordered' kind')
    exact absurd enough (by decide)
  · obtain ⟨access, operation, first⟩ : (r = .arrayOp ∨ r = .funcCall ∨ r = .fieldAccess) ∧
        r ∈ Rule.operations ∧ r.operandFields.idxOf (some f) = 0 := by
      simp only [List.mem_cons, Prod.mk.injEq, List.not_mem_nil, or_false] at known
      rcases known with ⟨rfl, rfl⟩ | ⟨rfl, rfl⟩ | ⟨rfl, rfl⟩ <;> decide
    have whole {r' : Rule} (isRule : m.kind = .rule r') (ne : r' ≠ .templateGlobal) :
        ∃ u : Tree, u.Ordered ∧ u.symbol = .rule r' ∧ u.level = .whole := by
      obtain ⟨u, q, here, -, ordered', kind', rfl⟩ :=
        exists_operand grown ordered (symbol kind) operation mem isField isRule ne
      obtain ⟨layout, extra, measure, children, rfl⟩ := Tree.exists_node_of_symbol (symbol kind)
      rw [first] at here
      exact ⟨u, ordered', kind', Tree.level_of_access ordered access here⟩
    refine ⟨fun isRule => ?_, fun isRule => ?_⟩
    · obtain ⟨u, ordered', kind', level⟩ := whole isRule (by decide)
      have low := Tree.level_le_multiplicative ordered' kind'
      rw [level] at low
      exact absurd low (by decide)
    · obtain ⟨u, -, kind', level⟩ := whole isRule (by decide)
      rw [Tree.level_of_unaryOp kind'] at level
      cases level

end Node

theorem Tree.IsWhole.mindsLevels {text : Text} {t : Tree} (h : t.IsWhole text)
    (clean : t.syntaxErrors = []) (ordered : ∀ u ∈ t.children, u.Ordered) :
    ∀ x ∈ t.root.all, x.node.MindsLevels := by
  have kind := (h.isWellShaped clean).kind
  have here : t.root.MindsLevels := by
    refine ⟨fun same => ?_, fun same => ?_, fun r f known same => ?_⟩
    · rw [kind] at same
      cases same
    · rw [kind] at same
      cases same
    · rw [kind] at same
      obtain rfl := Symbol.rule.inj same
      simp at known
  intro x mem
  refine (Node.forall_mem_walk
    (P := fun n => n.MindsLevels ∧ ∀ m ∈ n.children, m.IsOrdered text)
    (fun n h m mem => ⟨(h.2 m mem).mindsLevels, (h.2 m mem).of_mem_children⟩) t.root
    ⟨here, isOrdered_of_mem_root h.grown ordered⟩ 0 none x mem).1

/-- In a source without syntax errors, operands are such that their operators bind strongly enough
where they stand. -/
theorem mindsLevels_parse (source : List UInt8) (clean : (parse source).syntaxErrors = []) :
    ∀ x ∈ (parse source).root.all, x.node.MindsLevels :=
  (isWhole_parse source).mindsLevels clean
    (ordered_parse ((isWhole_parse source).isClean_iff_syntaxErrors.mpr clean))

/-- A sum to the left of a comparison, with a product to the right in it. -/
theorem mindsLevels_parse_nested :
    (parse "module m{
a = b + -c[1] * d < e
}".toUTF8.data.toList).syntaxErrors = [] ∧
      ∀ x ∈ (parse "module m{
a = b + -c[1] * d < e
}".toUTF8.data.toList).root.all,
        x.node.MindsLevels :=
  ⟨by decide +kernel, mindsLevels_parse _ (by decide +kernel)⟩

end SusSyntax
