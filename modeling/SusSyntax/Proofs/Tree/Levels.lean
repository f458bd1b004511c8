import SusSyntax.Proofs.Grammar.Levels
import SusSyntax.Proofs.Tree.Growth

/-!
Trees whose operations stand where their levels allow.

Of trees that follow one another from a state, each has to be held together strongly enough for the
state that it comes in and for the tree that comes behind it (`Linked`). When a rule is reduced from
such trees, its operands have the levels that they should have, and the new node may stand where
they stood (`Linked.reduce`).
-/

namespace SusSyntax

open Grammar

namespace Tree

/-- How strongly a tree is held together. -/
def level : Tree → Level
  | .node (.rule r _) _ _ children => r.level ((insiders children).map symbol)
  | _ => .whole

end Tree

/-- What a rule asks of the trees that it is put over: they can be an operation, each is held
together strongly enough for the next one, and the last one strongly enough for the rule. -/
structure Rule.Orders (r : Rule) (layout : Nat) (ts : List Tree) : Prop where
  operates : r ∈ Rule.operations → r.operates layout (ts.map Tree.symbol) = true
  first : ∀ t u rest, ts = t :: u :: rest → u.symbol.demand ≤ t.level
  last : ∀ front t, ts = front ++ [t] → r.lastDemand (ts.map Tree.symbol) ≤ t.level

namespace Tree

/-- In a tree and everything below, rules are over trees that are ordered by them. -/
inductive Ordered : Tree → Prop where
  | leaf {content : Leaf} {padding size : Extent} {extra : Bool} :
      Ordered (.leaf content padding size extra)
  | node {label : Label} {extra : Bool} {measure : Measure} {children : List Tree} :
      (∀ t ∈ children, t.Ordered) →
      (∀ r layout, label = .rule r layout → r.Orders layout (insiders children)) →
      Ordered (.node label extra measure children)

theorem Ordered.of_mem_children {t : Tree} (h : t.Ordered) : ∀ u ∈ t.children, u.Ordered := by
  cases h with
  | leaf => exact fun u mem => absurd mem List.not_mem_nil
  | node below => exact below

theorem Ordered.orders {r : Rule} {layout : Nat} {extra : Bool} {measure : Measure}
    {children : List Tree} (h : Ordered (.node (.rule r layout) extra measure children)) :
    r.Orders layout (insiders children) := by
  cases h with
  | node _ orders => exact orders r layout rfl

/-! ### Trees in a row -/

/-- Trees that follow one another from a state, behind something that is held together with the level
`k`. -/
def Linked : State → Level → List Tree → Prop
  | _, _, [] => True
  | s, k, t :: rest =>
    t.symbol.demand ≤ k ∧ s.demand ≤ t.level ∧ Linked (s.next t.symbol) t.level rest

/-- The level of the last tree, or else the level `k`. -/
def lastLevel (k : Level) (ts : List Tree) : Level :=
  ts.foldl (fun _ t => t.level) k

variable {s : State} {k : Level} {t : Tree} {ts us : List Tree}

@[simp] theorem lastLevel_nil (k : Level) : lastLevel k [] = k := rfl

@[simp] theorem lastLevel_concat (k : Level) (ts : List Tree) (t : Tree) :
    lastLevel k (ts ++ [t]) = t.level := by
  rw [lastLevel, List.foldl_append]
  rfl

theorem linked_append :
    Linked s k (ts ++ us) ↔
      Linked s k ts ∧ Linked (s.through (ts.map symbol)) (lastLevel k ts) us := by
  induction ts generalizing s k with
  | nil => simp [Linked, State.through]
  | cons t ts ih =>
    rw [List.cons_append, Linked, Linked, ih, and_assoc, and_assoc]
    rfl

theorem linked_singleton : Linked s k [t] ↔ t.symbol.demand ≤ k ∧ s.demand ≤ t.level := by
  simp [Linked]

theorem Linked.first_le (h : Linked s k ts) :
    ((ts.map symbol).headD .error).demand ≤ k := by
  cases ts with
  | nil => exact Level.compare_le k
  | cons t ts => exact h.1

/-! ### Reductions -/

/-- What a reduction makes of trees in a row: they are ordered, and the node of the rule may stand
in their place and before the token that it is reduced before. -/
theorem Linked.reduce {r : Rule} {layout : Nat} {u : Token} (h : Linked s k ts)
    (inside : ∀ t, .token t ∈ ts.map symbol → t.isComment = false)
    (admits : .reduce r ts.length layout ∈
      ((s.through (ts.map symbol)).row.entry u).actions) :
    r.Orders layout ts ∧ (Symbol.rule r).demand ≤ k ∧ s.demand ≤ r.level (ts.map symbol) ∧
      (Symbol.token u).demand ≤ r.level (ts.map symbol) := by
  rw [← List.length_map symbol] at admits
  obtain ⟨before, first, last, operates⟩ := State.levelled_of_reduce inside admits
  refine ⟨⟨operates, fun t u rest same => ?_, fun front t same => ?_⟩,
    Level.le_trans first h.first_le,
    State.demand_le_level operates (State.ne_errorState_of_reduce admits), before⟩
  · subst same
    exact h.2.2.1
  · subst same
    have behind := (linked_append.mp h).2
    exact Level.le_trans (last (front.map symbol) t.symbol (by simp))
      (linked_singleton.mp behind).2

end Tree

end SusSyntax
