import SusSyntax.Proofs.Tree.Shape
import SusSyntax.Proofs.Tree.Skeleton
import SusSyntax.Proofs.Tree.Tiling

/-!
The objects of a source file.

The root of a tree shows its objects as its items, though in the tree some of them stand in nodes that are
not shown (`Tree.objects`). What an item looks like does not depend on where it stands
(`Tree.outline_form_toNode`), so the items look like the objects one by one (`Tree.IsWhole.items_eq`).
-/

namespace SusSyntax

open Grammar

/-- The S-expressions of the items that a root shows. -/
def Node.items (root : Node) : List String :=
  (root.children.filter fun n => n.field == some .item).map Node.outline

theorem Node.mem_walkAll {n : Node} {ns : List Node} {depth : Nat} {parent? : Option Symbol}
    {x : Node.Placed} (mem : n ∈ ns) (below : x ∈ n.walk depth parent?) :
    x ∈ Node.walkAll depth parent? ns := by
  induction ns with
  | nil => cases mem
  | cons m ns ih =>
    rw [Node.walkAll]
    rcases List.mem_cons.mp mem with rfl | later
    · exact List.mem_append_left _ below
    · exact List.mem_append_right _ (ih later)

/-- Below a child of a root there are nodes of the root. -/
theorem Node.mem_all_of_mem_walk {root n : Node} {x : Node.Placed} (mem : n ∈ root.children)
    (below : x ∈ n.walk 1 (some root.kind)) : x ∈ root.all := by
  rw [Node.all, Node.walk_eq]
  exact List.mem_cons_of_mem _ (Node.mem_walkAll mem below)

namespace Tree

mutual

/-- The objects that are seen of a tree. -/
def objects : Tree → List Tree
  | .leaf .. => []
  | .node label extra measure children =>
    if label.symbol.isVisible then
      if label.symbol == .rule .globalObject then [.node label extra measure children] else []
    else objectsOf children

/-- The objects that are seen of trees. -/
def objectsOf : List Tree → List Tree
  | [] => []
  | t :: rest => t.objects ++ objectsOf rest

end

variable {text : Text} {t : Tree}

@[simp] theorem objectsOf_append (ts us : List Tree) :
    objectsOf (ts ++ us) = objectsOf ts ++ objectsOf us := by
  induction ts with
  | nil => rfl
  | cons t ts ih => rw [List.cons_append, objectsOf, ih, objectsOf, List.append_assoc]

theorem objects_ofChildren_hidden {rule : Rule} (hidden : rule.isHidden = true) (layout : Nat)
    (ts : List Tree) : (ofChildren (.rule rule layout) ts).objects = objectsOf ts := by
  have notVisible : (Label.rule rule layout).symbol.isVisible = false := by
    simp [Label.symbol, Symbol.isVisible, Rule.isVisible, hidden]
  rw [ofChildren, objects, notVisible, if_neg Bool.false_ne_true]

/-- What a tree looks like by itself. -/
def look (t : Tree) : String :=
  (t.root.form false).outline

/-- What a node looks like does not depend on its field and its place. -/
theorem outline_form_toNode (proper : t.IsProper) (field : Option Field) (p : Extent) :
    ((t.toNode field p).form false).outline = t.look := by
  rw [look, root, Node.form_eq, Node.form_eq, Form.outline, Form.outline, kind_toNode, kind_toNode]
  cases t with
  | leaf => rfl
  | node label extra measure children =>
    have below (p : Extent) : Node.forms false (nodesOf label.layout 0 none p children) = _ :=
      forms_nodesOf false label.layout 0 none p .zero proper.of_mem_children
    simp only [toNode]
    rw [below p, below .zero]

mutual

theorem looks_nodesBelow (field : Option Field) (p : Extent) : ∀ {t : Tree}, t.IsProper →
    t.isVisible = false →
      ((t.nodesBelow field p).filter fun n => n.kind == .rule .globalObject).map
        (fun n => (n.form false).outline) = t.objects.map look
  | .leaf .., _, _ => rfl
  | .node label extra measure children, proper, hidden => by
    rw [objects, if_neg (show ¬label.symbol.isVisible = true from Bool.eq_false_iff.mp hidden)]
    exact looks_nodesOf label.layout 0 field p proper.of_mem_children

/-- The nodes over objects that are seen of trees look like their objects. -/
theorem looks_nodesOf (layout index : Nat) (above : Option Field) (p : Extent) :
    ∀ {ts : List Tree}, (∀ t ∈ ts, t.IsProper) →
      ((nodesOf layout index above p ts).filter fun n => n.kind == .rule .globalObject).map
        (fun n => (n.form false).outline) = (objectsOf ts).map look
  | [], _ => rfl
  | t :: rest, proper => by
    obtain ⟨first, others⟩ := List.forall_mem_cons.mp proper
    rw [nodesOf, List.filter_append, List.map_append, looks_nodesOf _ _ _ _ others, objectsOf,
      List.map_append]
    refine congrArg (· ++ _) ?_
    split
    · rename_i visible
      cases t with
      | leaf content => cases content <;> rfl
      | node label extra measure children =>
        rw [objects, if_pos (show label.symbol.isVisible = true from visible), List.filter_cons,
          List.filter_nil, kind_toNode]
        change List.map _ (if (label.symbol == _) = true then _ else _) = _
        split
        · rw [List.map_singleton, List.map_singleton, outline_form_toNode first]
        · rfl
    · rename_i hidden
      exact looks_nodesBelow _ p first (by simpa using hidden)

end

/-- In a tree without errors the items of the root are the nodes over objects. -/
theorem IsWhole.isItem_iff (whole : t.IsWhole text) (clean : t.isClean = true) {n : Node}
    (mem : n ∈ t.root.children) : n.field = some .item ↔ n.kind = .rule .globalObject := by
  have shape := whole.isWellShaped (whole.isClean_iff_syntaxErrors.mp clean)
  refine ⟨shape.items n mem, fun isObject => ?_⟩
  have grown := whole.isGrown_root
  have inside := (grown.of_mem_children n mem).isExtra_of_rule isObject
  have shown : (n.kind, n.field) ∈ t.root.shows :=
    List.mem_map.mpr ⟨n, List.mem_filter.mpr ⟨mem, by rw [inside]; rfl⟩, rfl⟩
  have holds := Rule.isListChild_of_shows (by decide) (grown.shows shape.kind) _ shown
  rw [Rule.isListChild, isObject] at holds
  exact eq_of_beq holds

/-- The items that the root of a tree without errors shows look like its objects. -/
theorem IsWhole.items_eq (whole : t.IsWhole text) (clean : t.isClean = true) :
    t.root.items = (objectsOf t.children).map look := by
  have faultless : ∀ n ∈ t.root.children, n.outline = (n.form false).outline := by
    intro n mem
    exact Node.outline_eq n 1 (some t.root.kind) fun x below =>
      whole.isFaultless clean x (Node.mem_all_of_mem_walk mem below)
  have items : (t.root.children.filter fun n => n.field == some .item) =
      t.root.children.filter fun n => n.kind == .rule .globalObject := by
    refine List.filter_congr fun n mem => ?_
    rw [Bool.eq_iff_iff, beq_iff_eq, beq_iff_eq]
    exact whole.isItem_iff clean mem
  rw [Node.items, items, List.map_congr_left fun n mem => faultless n (List.mem_filter.mp mem).1]
  have proper := (whole.isProper clean).of_mem_children
  cases t with
  | leaf => rfl
  | node label extra measure children => exact looks_nodesOf label.layout 0 none .zero proper

end Tree

end SusSyntax
