import SusSyntax.Proofs.Tree.Skeleton
import SusSyntax.Proofs.Tree.Tiling

/-!
The leaves of a tree and the nodes that are seen of it.

The leaves of a tree in the order of the text, each with the kind of the node that it is shown in, are
its tips. In a tree without errors there are tips below everything but the start symbol
(`Grown.isFull`), so every node begins where a tip does and ends where a tip does, and a node over a
token is a tip (`IsFull.isOver_of_mem_walk`). And every tip that is visible is shown
(`IsFull.showsTips`).
-/

namespace SusSyntax

open Grammar Lexical

/-! ### Reductions and the start symbol -/

namespace Grammar

/-- What is so for every reduction of the table: the start symbol is not among what is reduced, and
only it is reduced from nothing. -/
theorem reductions_inner :
    (rows.zipIdx.all fun x => x.1.entries.all fun e => e.1.actions.all fun
      | .reduce r size _ => (size != 0 || r == .sourceFile) &&
          (State.lastSymbols size [x.2]).all fun xs => !xs.contains (.rule .sourceFile)
      | _ => true) = true := by
  decide +kernel

theorem mem_of_mem_sequences {α : Type} {xss : List (List α)} {xs : List α} {x : α}
    (h : xs ∈ sequences xss) (mem : x ∈ xs) : ∃ ys ∈ xss, x ∈ ys := by
  induction xss generalizing xs with
  | nil =>
    obtain rfl := List.mem_singleton.mp h
    cases mem
  | cons ys xss ih =>
    obtain ⟨z, first, rest⟩ := List.mem_flatMap.mp h
    obtain ⟨zs, known, rfl⟩ := List.mem_map.mp rest
    rcases List.mem_cons.mp mem with rfl | mem
    · exact ⟨ys, List.mem_cons_self, first⟩
    · obtain ⟨ys', mem', inside⟩ := ih known mem
      exact ⟨ys', List.mem_cons_of_mem _ mem', inside⟩

theorem inner_of_reduce {s n : State} {xs : List Symbol} {t : Token} {r : Rule} {layout : Nat}
    (inside : ∀ t, .token t ∈ xs → t.isComment = false) (way : s.through xs = n)
    (h : .reduce r xs.length layout ∈ (n.row.entry t).actions) :
    (xs = [] → r = .sourceFile) ∧ .rule .sourceFile ∉ xs := by
  have ne : s.through xs ≠ errorState := by
    rw [way]
    exact State.ne_errorState_of_reduce h
  obtain ⟨_, -, inner⟩ := State.reduction_holds (fun s _ r size _ =>
    (size != 0 || r == .sourceFile) &&
      (State.lastSymbols size [s]).all fun xs => !xs.contains (.rule .sourceFile))
    reductions_inner h
  simp only [Bool.and_eq_true, Bool.or_eq_true, bne_iff_ne, beq_iff_eq, List.all_eq_true,
    Bool.not_eq_true', List.contains_eq_mem, decide_eq_false_iff_not] at inner
  refine ⟨?_, fun mem => ?_⟩
  · rintro rfl
    exact inner.1.resolve_left (fun ne => ne rfl)
  · obtain ⟨ys, known, inside⟩ := mem_of_mem_sequences
      (State.mem_lastSymbols inside ne (List.mem_singleton.mpr way)) mem
    exact inner.2 ys known inside

end Grammar

namespace Tree

open Node

/-! ### Tips -/

/-- A leaf of a tree with the kind of the node that it is shown in. -/
structure Tip where
  parent? : Option Symbol
  tree : Tree

mutual

/-- The leaves of a tree that stands in a node of the kind `parent?`, in the order of the text. -/
def tips (parent? : Option Symbol) : Tree → List Tip
  | .leaf content padding size extra => [⟨parent?, .leaf content padding size extra⟩]
  | .node label _ _ children =>
    tipsOf (if label.symbol.isVisible then some label.symbol else parent?) children

/-- The leaves of trees that follow one another. -/
def tipsOf (parent? : Option Symbol) : List Tree → List Tip
  | [] => []
  | t :: rest => t.tips parent? ++ tipsOf parent? rest

end

/-- The extent of leaves that follow one another. -/
def extentOfTips (ts : List Tip) : Extent :=
  extentOf (ts.map Tip.tree)

/-- Every inner node has children and their measure. -/
inductive IsFull : Tree → Prop where
  | leaf {content : Leaf} {padding size : Extent} {extra : Bool} :
      IsFull (.leaf content padding size extra)
  | node {label : Label} {extra : Bool} {children : List Tree} : children ≠ [] →
      (∀ t ∈ children, t.IsFull) → IsFull (.node label extra (measureOf label children) children)

variable {text : Text} {p q : Extent} {t : Tree} {ts : List Tree} {parent? : Option Symbol}
  {xs ys : List Tip}

@[simp] theorem tipsOf_nil (parent? : Option Symbol) : tipsOf parent? [] = [] := rfl

@[simp] theorem tipsOf_cons (parent? : Option Symbol) (t : Tree) (ts : List Tree) :
    tipsOf parent? (t :: ts) = t.tips parent? ++ tipsOf parent? ts := rfl

@[simp] theorem tipsOf_append (parent? : Option Symbol) (ts us : List Tree) :
    tipsOf parent? (ts ++ us) = tipsOf parent? ts ++ tipsOf parent? us := by
  induction ts with
  | nil => rfl
  | cons t ts ih => rw [List.cons_append, tipsOf_cons, ih, tipsOf_cons, List.append_assoc]

@[simp] theorem extentOfTips_nil : extentOfTips [] = .zero := rfl

@[simp] theorem extentOfTips_append (xs ys : List Tip) :
    extentOfTips (xs ++ ys) = extentOfTips xs + extentOfTips ys := by
  simp [extentOfTips]

theorem extentOf_of_tips (h : ∀ t ∈ ts, t.extent = extentOfTips (t.tips parent?)) :
    extentOf ts = extentOfTips (tipsOf parent? ts) := by
  induction ts with
  | nil => rfl
  | cons t ts ih =>
    obtain ⟨first, rest⟩ := List.forall_mem_cons.mp h
    rw [extentOf_cons, first, ih rest, tipsOf_cons, extentOfTips_append]

/-- A tree takes up what its leaves take up, and begins with the first of them. -/
theorem IsFull.tips_spec (h : t.IsFull) (parent? : Option Symbol) :
    t.extent = extentOfTips (t.tips parent?) ∧
      ∃ first rest, t.tips parent? = first :: rest ∧ first.tree.padding = t.padding := by
  induction h generalizing parent? with
  | leaf => exact ⟨(Extent.add_zero _).symm, _, [], rfl, rfl⟩
  | @node label extra children some _ ih =>
    refine ⟨?_, ?_⟩
    · rw [extent, padding, size, padding_add_size_measureOf, tips]
      exact extentOf_of_tips fun t mem => (ih t mem _).1
    · cases children with
      | nil => exact absurd rfl some
      | cons t rest =>
        obtain ⟨-, first, others, same, padding⟩ := ih t List.mem_cons_self
          (if label.symbol.isVisible then .some label.symbol else parent?)
        have split := tipsOf_cons (if label.symbol.isVisible then .some label.symbol else parent?) t rest
        rw [same, List.cons_append] at split
        exact ⟨first, _, split, padding⟩

/-! ### Trees without errors -/

/-- Below everything but the start symbol there are leaves. -/
theorem Grown.isFull (h : t.Grown text p) (proper : t.IsProper) (ne : t.symbol ≠ .rule .sourceFile) :
    t.IsFull := by
  induction proper generalizing p with
  | leaf => exact .leaf
  | @node r layout measure children proper ih =>
    obtain ⟨rfl, ⟨-, s, u, reduces⟩, grown⟩ := h
    rw [follow_eq_through, ← List.length_map symbol] at reduces
    obtain ⟨some, noStart⟩ := inner_of_reduce grown.noComment rfl reduces
    refine .node ?_ fun t mem => ?_
    · rintro rfl
      exact ne (congrArg Symbol.rule (some rfl))
    · obtain ⟨q, grownThere⟩ := grown.exists_grown mem
      refine ih t mem grownThere ?_
      cases extra : t.isExtra with
      | false =>
        intro isStart
        exact noStart (List.mem_map.mpr ⟨t, List.mem_filter.mpr ⟨mem, by rw [extra]; rfl⟩, isStart⟩)
      | true =>
        cases proper t mem with
        | leaf => nofun
        | node => cases extra

/-- The children of the start symbol have leaves. -/
theorem GrownOf.isFull {r : Rule} {layout : Nat} {extra : Bool} (h : GrownOf text p ts)
    (proper : ∀ t ∈ ts, t.IsProper) (joins : Joins extra ts (.rule r layout)) :
    ∀ t ∈ ts, t.IsFull := by
  obtain ⟨-, s, u, reduces⟩ := joins
  rw [follow_eq_through, ← List.length_map symbol] at reduces
  have noStart := (inner_of_reduce h.noComment rfl reduces).2
  intro t mem
  obtain ⟨q, grown⟩ := h.exists_grown mem
  refine grown.isFull (proper t mem) fun isStart => ?_
  cases extra : t.isExtra with
  | false => exact noStart (List.mem_map.mpr ⟨t, List.mem_filter.mpr ⟨mem, by rw [extra]; rfl⟩, isStart⟩)
  | true =>
    cases proper t mem with
    | leaf => cases isStart
    | node => cases extra

/-- A root is shown. -/
theorem IsWhole.isVisible {t : Tree} (h : t.IsWhole text) : t.isVisible = true := by
  rcases h.root with ⟨_, _, rfl⟩ | ⟨_, rfl⟩ <;> rfl

/-- A tree without errors that has leaves at all is full. -/
theorem IsWhole.isFull (h : t.IsWhole text) (clean : t.isClean = true)
    (some : t.tips none ≠ []) : t.IsFull := by
  have proper := h.isProper clean
  rcases h.root with ⟨layout, children, rfl⟩ | ⟨children, rfl⟩
  · obtain ⟨-, joins, grown⟩ := h.grown
    refine .node ?_ (grown.isFull proper.of_mem_children joins)
    rintro rfl
    exact some rfl
  · cases proper

/-! ### Nodes and leaves -/

/-- A node in its surroundings stands over some of the leaves that follow one another from `p` on: it
begins where the first one does behind its padding and ends where the last one does. If it is one
over a token, it is that leaf. -/
def IsOver (p : Extent) (ts : List Tip) (x : Node.Placed) : Prop :=
  ∃ front first mid back, ts = front ++ first :: mid ++ back ∧
    x.node.start = p + extentOfTips front + first.tree.padding ∧
    x.node.stop = p + extentOfTips (front ++ first :: mid) ∧
    ∀ u, x.node.kind = .token u →
      mid = [] ∧ first.parent? = x.parent? ∧ first.tree.symbol = .token u

theorem IsOver.append_right {x : Node.Placed} (h : IsOver p xs x) (ys : List Tip) :
    IsOver p (xs ++ ys) x := by
  obtain ⟨front, first, mid, back, rfl, bounds⟩ := h
  exact ⟨front, first, mid, back ++ ys, by simp, bounds⟩

theorem IsOver.append_left {x : Node.Placed} (ys : List Tip) (h : IsOver (p + extentOfTips ys) xs x) :
    IsOver p (ys ++ xs) x := by
  obtain ⟨front, first, mid, back, rfl, start, stop, token⟩ := h
  refine ⟨ys ++ front, first, mid, back, by simp, ?_, ?_, token⟩
  · rw [start, extentOfTips_append, Extent.add_assoc p]
  · rw [stop, List.append_assoc ys, extentOfTips_append ys, Extent.add_assoc]

/-- The node of a full tree stands over all of its leaves. -/
theorem IsFull.isOver (h : t.IsFull) (field : Option Field) (p : Extent) (depth : Nat)
    (parent? : Option Symbol) : IsOver p (t.tips parent?) ⟨depth, parent?, t.toNode field p⟩ := by
  obtain ⟨extent, first, rest, same, padding⟩ := h.tips_spec parent?
  refine ⟨[], first, rest, [], by simp [same], ?_, ?_, fun u kind => ?_⟩
  · rw [start_toNode, extentOfTips_nil, Extent.add_zero, padding]
  · rw [stop_toNode, extent, List.nil_append, same]
  · cases t with
    | leaf =>
      obtain ⟨rfl, rfl⟩ := List.cons.inj same
      exact ⟨rfl, rfl, kind⟩
    | node label => cases label <;> cases kind

mutual

theorem IsFull.isOver_of_mem_walk (field : Option Field) (p : Extent) (depth : Nat)
    (parent? : Option Symbol) :
    ∀ {t : Tree}, t.IsFull → t.isVisible = true → ∀ x ∈ (t.toNode field p).walk depth parent?,
      IsOver p (t.tips parent?) x
  | .leaf .., h, _, x, mem => by
    obtain rfl := List.mem_singleton.mp mem
    exact h.isOver field p depth parent?
  | .node label extra measure children, h, visible, x, mem => by
    rw [toNode, walk] at mem
    rcases List.mem_cons.mp mem with rfl | inside
    · exact h.isOver field p depth parent?
    · rw [tips, if_pos (show label.symbol.isVisible = true from visible)]
      cases h with
      | node _ below => exact isOver_of_mem_nodesOf label.layout 0 none p _ _ below x inside

theorem isOver_of_mem_nodesBelow (field : Option Field) (p : Extent) (depth : Nat)
    (parent? : Option Symbol) :
    ∀ {t : Tree}, t.IsFull → t.isVisible = false →
      ∀ x ∈ walkAll depth parent? (t.nodesBelow field p), IsOver p (t.tips parent?) x
  | .leaf .., _, _, _, mem => absurd mem List.not_mem_nil
  | .node label extra measure children, h, hidden, x, mem => by
    rw [tips, if_neg (show ¬label.symbol.isVisible = true from Bool.eq_false_iff.mp hidden)]
    cases h with
    | node _ below => exact isOver_of_mem_nodesOf label.layout 0 field p _ _ below x mem

/-- The nodes that are seen of trees stand over leaves of these. -/
theorem isOver_of_mem_nodesOf (layout index : Nat) (above : Option Field) (p : Extent)
    (depth : Nat) (parent? : Option Symbol) :
    ∀ {ts : List Tree}, (∀ t ∈ ts, t.IsFull) →
      ∀ x ∈ walkAll depth parent? (nodesOf layout index above p ts), IsOver p (tipsOf parent? ts) x
  | [], _, _, mem => absurd mem List.not_mem_nil
  | t :: rest, h, x, mem => by
    obtain ⟨first, others⟩ := List.forall_mem_cons.mp h
    rw [nodesOf, walkAll_append] at mem
    rw [tipsOf_cons]
    rcases List.mem_append.mp mem with mem | mem
    · refine IsOver.append_right ?_ _
      split at mem
      · rename_i visible
        rw [walkAll, walkAll, List.append_nil] at mem
        exact IsFull.isOver_of_mem_walk _ p depth parent? first visible x mem
      · rename_i hidden
        exact isOver_of_mem_nodesBelow _ p depth parent? first (by simpa using hidden) x mem
    · refine IsOver.append_left _ ?_
      rw [← (first.tips_spec parent?).1]
      exact isOver_of_mem_nodesOf _ _ _ _ depth parent? others x mem

end

/-- A leaf among those that follow one another from `p` on is shown as a node. -/
def IsShown (p : Extent) (front : List Tip) (tip : Tip) (x : Node.Placed) : Prop :=
  x.parent? = tip.parent? ∧ x.node.kind = tip.tree.symbol ∧ x.node.children = [] ∧
    x.node.start = p + extentOfTips front + tip.tree.padding ∧
    x.node.stop = p + extentOfTips (front ++ [tip])

/-- All leaves that follow one another from `p` on are shown, if they are visible. -/
def ShowsTips (p : Extent) (ts : List Tip) (xs : List Node.Placed) : Prop :=
  ∀ front tip back, ts = front ++ tip :: back → tip.tree.isVisible = true →
    ∃ x ∈ xs, IsShown p front tip x

theorem ShowsTips.append {us vs : List Node.Placed} (h : ShowsTips p xs us)
    (h' : ShowsTips (p + extentOfTips xs) ys vs) : ShowsTips p (xs ++ ys) (us ++ vs) := by
  intro front tip back split visible
  rcases List.append_eq_append_iff.mp split with ⟨mid, rfl, later⟩ | ⟨mid, rfl, later⟩
  · obtain ⟨x, mem, parent, kind, children, start, stop⟩ := h' mid tip back later visible
    refine ⟨x, List.mem_append_right _ mem, parent, kind, children, ?_, ?_⟩
    · rw [start, extentOfTips_append, Extent.add_assoc p]
    · rw [stop, List.append_assoc, extentOfTips_append xs, Extent.add_assoc]
  · cases mid with
    | nil =>
      obtain ⟨x, mem, parent, kind, children, start, stop⟩ := h' [] tip back later.symm visible
      refine ⟨x, List.mem_append_right _ mem, parent, kind, children, ?_, ?_⟩
      · simpa [Extent.add_assoc] using start
      · simpa [Extent.add_assoc] using stop
    | cons first mid =>
      obtain ⟨rfl, rfl⟩ := List.cons.inj later
      obtain ⟨x, mem, shown⟩ := h front tip mid rfl visible
      exact ⟨x, List.mem_append_left _ mem, shown⟩

mutual

theorem IsFull.showsTips (field : Option Field) (p : Extent) (depth : Nat)
    (parent? : Option Symbol) :
    ∀ {t : Tree}, t.IsFull → t.isVisible = true →
      ShowsTips p (t.tips parent?) ((t.toNode field p).walk depth parent?)
  | .leaf content padding size extra, _, _ => by
    intro front tip back split visible
    cases front with
    | cons _ front => cases front <;> cases split
    | nil =>
      obtain ⟨rfl, rfl⟩ := List.cons.inj split
      exact ⟨_, List.mem_singleton.mpr rfl, rfl, rfl, rfl, by simp [Tree.padding],
        by simp [extentOfTips, extent, Tree.padding, Tree.size, Extent.add_assoc]⟩
  | .node label extra measure children, h, visible => by
    rw [tips, if_pos (show label.symbol.isVisible = true from visible), toNode, walk]
    cases h with
    | node _ below =>
      intro front tip back split shown
      obtain ⟨x, mem, isShown⟩ :=
        showsTips_nodesOf label.layout 0 none p (depth + 1) _ below front tip back split shown
      exact ⟨x, List.mem_cons_of_mem _ mem, isShown⟩

theorem showsTips_nodesBelow (field : Option Field) (p : Extent) (depth : Nat)
    (parent? : Option Symbol) :
    ∀ {t : Tree}, t.IsFull → t.isVisible = false →
      ShowsTips p (t.tips parent?) (walkAll depth parent? (t.nodesBelow field p))
  | .leaf .., _, hidden => by
    intro front tip back split visible
    cases front with
    | cons _ front => cases front <;> cases split
    | nil =>
      obtain ⟨rfl, rfl⟩ := List.cons.inj split
      rw [hidden] at visible
      cases visible
  | .node label extra measure children, h, hidden => by
    rw [tips, if_neg (show ¬label.symbol.isVisible = true from Bool.eq_false_iff.mp hidden)]
    cases h with
    | node _ below => exact showsTips_nodesOf label.layout 0 field p depth _ below

/-- The leaves of full trees are shown by what is seen of these. -/
theorem showsTips_nodesOf (layout index : Nat) (above : Option Field) (p : Extent)
    (depth : Nat) (parent? : Option Symbol) :
    ∀ {ts : List Tree}, (∀ t ∈ ts, t.IsFull) →
      ShowsTips p (tipsOf parent? ts) (walkAll depth parent? (nodesOf layout index above p ts))
  | [], _ => by
    intro front tip back split
    cases front <;> cases split
  | t :: rest, h => by
    obtain ⟨first, others⟩ := List.forall_mem_cons.mp h
    rw [nodesOf, walkAll_append, tipsOf_cons]
    have later := showsTips_nodesOf layout (nextIndex index t) above (p + t.extent) depth parent? others
    rw [(first.tips_spec parent?).1] at later ⊢
    refine ShowsTips.append ?_ later
    split
    · rename_i visible
      rw [walkAll, walkAll, List.append_nil]
      exact IsFull.showsTips _ p depth parent? first visible
    · rename_i hidden
      exact showsTips_nodesBelow _ p depth parent? first (by simpa using hidden)

end

end Tree

end SusSyntax
