import SusSyntax.Proofs.Parse.Run
import SusSyntax.Tree.Node

/-!
The leaves of a tree tile its text.

A leaf is a visible node without children. Read from left to right the leaves follow one another, and
between two of them there are only blanks, or a byte order mark at the beginning (`Tiles`). This is
so for the node of any tree that has grown over the text, by induction on the tree, and so for the
tree of a source: nothing of a source is lost (`isLossless_parse`).
-/

namespace SusSyntax

open Grammar Lexical

/-! ### What may stand between leaves -/

namespace Text

/-- The byte number `i` of a source is a blank, or belongs to the byte order mark at its beginning.
-/
def IsFiller (source : List UInt8) (i : Nat) : Prop :=
  source[i]? ∈ [some 0x20, some 0x09, some 0x0D] ∨ source.take 3 = [0xEF, 0xBB, 0xBF] ∧ i < 3

/-- All bytes of a text from `a` on and before `b` are filler. -/
def Fills (text : Text) (a b : Nat) : Prop :=
  ∀ i, a ≤ i → i < b → IsFiller text.bytes i

variable {text : Text} {a b c : Nat}

theorem fills_of_le (h : b ≤ a) : text.Fills a b := by
  intro i le lt
  omega

theorem Fills.append (h : text.Fills a b) (h' : text.Fills b c) : text.Fills a c := by
  intro i le lt
  rcases Nat.lt_or_ge i b with before | behind
  · exact h i le before
  · exact h' i behind lt

/-- A blank is a space, a tab or a carriage return. -/
theorem mem_of_blank {g : Glyph} (blank : Guard.blank.admits g = true) {byte : UInt8}
    (mem : byte ∈ g.bytes) : byte ∈ [(0x20 : UInt8), 0x09, 0x0D] := by
  simp only [Guard.admits, Glyph.isChar, Bool.or_eq_true, beq_iff_eq] at blank
  rcases blank with (rfl | rfl) | rfl
  · obtain rfl := List.mem_singleton.mp mem
    decide
  · obtain rfl := List.mem_singleton.mp mem
    decide
  · obtain rfl := List.mem_singleton.mp mem
    decide

theorem isFiller_of_mem_blanks {blanks : Text} (blank : IsBlank blanks) {source : List UInt8}
    {i : Nat} {byte : UInt8} (found : source[i]? = some byte) (mem : byte ∈ blanks.bytes) :
    IsFiller source i := by
  obtain ⟨g, mem, inGlyph⟩ := List.mem_flatMap.mp mem
  have isBlank := mem_of_blank (blank g mem) inGlyph
  rw [IsFiller, found]
  simpa using Or.inl isBlank

/-- A gap holds only filler. -/
theorem fills_gap {before gap after : Text} (isGap : IsGap before.extent gap) :
    Fills (before ++ (gap ++ after)) before.extent.bytes (before.extent + gap.extent).bytes := by
  obtain ⟨mark, blanks, rfl, isMark, blank⟩ := isGap
  intro i le lt
  simp only [Extent.bytes_add, extent_append, ← length_bytes] at le lt
  by_cases inMark : i < before.bytes.length + mark.bytes.length
  · rcases isMark with rfl | ⟨atStart, rfl⟩
    · simp at inMark
      omega
    · obtain rfl := eq_nil_of_bytes_eq_zero atStart
      exact .inr ⟨rfl, inMark⟩
  · have inside : i - before.bytes.length - mark.bytes.length < blanks.bytes.length := by omega
    refine isFiller_of_mem_blanks blank ?_ (List.getElem_mem inside)
    rw [bytes_append, bytes_append, bytes_append, List.getElem?_append_right le,
      List.append_assoc, List.getElem?_append_right (by omega), List.getElem?_append_left inside,
      List.getElem?_eq_getElem inside]

end Text

namespace Lexical.Lexeme

/-- Before what a lexeme covers there is only filler. -/
theorem StandsAt.fills {text : Text} {p : Extent} {x : Lexeme} (h : x.StandsAt text p) :
    text.Fills p.bytes (p + x.padding).bytes := by
  obtain ⟨before, gap, body, after, rfl, rfl, isGap, padding, _⟩ := h
  rw [padding]
  exact Text.fills_gap isGap

end Lexical.Lexeme

namespace Tree

variable {text : Text} {p : Extent}

theorem IsGrownLeaf.fills_padding {content : Leaf} {padding size : Extent} {extra : Bool}
    (h : IsGrownLeaf text p content padding size extra) (place : text.IsPlace p) :
    text.Fills p.bytes (p + padding).bytes := by
  cases h with
  | read isRead => exact (isRead.standsAt place).fills
  | missing =>
    rw [Extent.add_zero]
    exact Text.fills_of_le (Nat.le_refl _)
  | whole =>
    rw [Extent.add_zero]
    exact Text.fills_of_le (Nat.le_refl _)

/-- The only leaf that is not shown is the end of the text, and it covers nothing. -/
theorem IsGrownLeaf.size_of_hidden {content : Leaf} {padding size : Extent} {extra : Bool}
    (h : IsGrownLeaf text p content padding size extra) (place : text.IsPlace p)
    (hidden : content.symbol.isVisible = false) : size = .zero := by
  cases h with
  | missing => rfl
  | whole => cases hidden
  | @read x isRead =>
    obtain ⟨before, gap, body, after, split, start, isGap, padding, size, ends⟩ :=
      isRead.standsAt place
    have atEnd : x.isEnd = true := by
      rcases isRead.leaf_cases with ⟨t, leaf⟩ | ⟨stuck, leaf⟩
      · rw [leaf] at hidden
        have isEof : t = .eof := by simpa [Leaf.symbol, Symbol.isVisible, Token.isVisible] using hidden
        rw [Lexeme.isEnd, leaf, isEof]
        rfl
      · rw [leaf] at hidden
        cases hidden
    rw [size, (ends atEnd).1]
    rfl

/-- Before a tree that has grown there is only filler, as far as its padding goes. -/
theorem Grown.fills_padding (place : text.IsPlace p) :
    ∀ {t : Tree}, t.Grown text p → text.Fills p.bytes (p + t.padding).bytes
  | .leaf .., h => IsGrownLeaf.fills_padding h place
  | .node _ _ _ [], h => by
    obtain ⟨rfl, _⟩ := h
    rw [padding, measureOf]
    exact Text.fills_of_le (by simp)
  | .node _ _ _ (t :: _), h => by
    obtain ⟨rfl, _, grown, _⟩ := h
    have fills := Grown.fills_padding place grown
    exact fills

end Tree

/-! ### Leaves -/

namespace Node

/-- Those of several nodes that have no children. -/
def leavesAmong (xs : List Placed) : List Node :=
  (xs.map Placed.node).filter (·.children.isEmpty)

/-- The leaves of a tree of nodes, in the order of the text. -/
def leaves (root : Node) : List Node :=
  leavesAmong root.all

/-- The leaves stand one behind the other between the bytes `a` and `b` of a text, and there is only
filler between them. -/
def Tiles (text : Text) : Nat → List Node → Nat → Prop
  | a, [], b => a ≤ b ∧ text.Fills a b
  | a, n :: rest, b =>
    a ≤ n.start.bytes ∧ text.Fills a n.start.bytes ∧ n.start.bytes ≤ n.stop.bytes ∧
      Tiles text n.stop.bytes rest b

/-- The children of a node lie inside it. -/
def HoldsChildren (n : Node) : Prop :=
  ∀ c ∈ n.children, n.start.bytes ≤ c.start.bytes ∧ c.stop.bytes ≤ n.stop.bytes

variable {text : Text} {a b c : Nat} {xs ys : List Node}

@[simp] theorem leavesAmong_nil : leavesAmong [] = [] := rfl

@[simp] theorem leavesAmong_append (xs ys : List Placed) :
    leavesAmong (xs ++ ys) = leavesAmong xs ++ leavesAmong ys := by
  simp [leavesAmong]

theorem walk_eq (n : Node) (depth : Nat) (parent? : Option Symbol) :
    n.walk depth parent? =
      ⟨depth, parent?, n⟩ :: walkAll (depth + 1) (some n.kind) n.children := by
  cases n
  rw [walk]

theorem walkAll_append (depth : Nat) (parent? : Option Symbol) (xs ys : List Node) :
    walkAll depth parent? (xs ++ ys) = walkAll depth parent? xs ++ walkAll depth parent? ys := by
  induction xs with
  | nil => rfl
  | cons n rest ih => simp [walkAll, ih]

theorem walkAll_eq_flatMap (depth : Nat) (parent? : Option Symbol) (ns : List Node) :
    walkAll depth parent? ns = ns.flatMap fun n => n.walk depth parent? := by
  induction ns with
  | nil => rfl
  | cons n rest ih => rw [walkAll, ih, List.flatMap_cons]

theorem Tiles.of_fills (le : a ≤ b) (fills : text.Fills a b) (h : Tiles text b ys c) :
    Tiles text a ys c := by
  cases ys with
  | nil => exact ⟨Nat.le_trans le h.1, fills.append h.2⟩
  | cons n rest => exact ⟨Nat.le_trans le h.1, fills.append h.2.1, h.2.2⟩

theorem Tiles.append (h : Tiles text a xs b) (h' : Tiles text b ys c) :
    Tiles text a (xs ++ ys) c := by
  induction xs generalizing a with
  | nil => exact h'.of_fills h.1 h.2
  | cons n rest ih => exact ⟨h.1, h.2.1, h.2.2.1, ih h.2.2.2⟩

theorem Tiles.le (h : Tiles text a xs b) : a ≤ b := by
  induction xs generalizing a with
  | nil => exact h.1
  | cons n rest ih => exact Nat.le_trans h.1 (Nat.le_trans h.2.2.1 (ih h.2.2.2))

/-- All leaves lie between the ends. -/
theorem Tiles.inside (h : Tiles text a xs b) {n : Node} (mem : n ∈ xs) :
    a ≤ n.start.bytes ∧ n.start.bytes ≤ n.stop.bytes ∧ n.stop.bytes ≤ b := by
  induction xs generalizing a with
  | nil => cases mem
  | cons m rest ih =>
    obtain ⟨before, _, order, later⟩ := h
    rcases List.mem_cons.mp mem with rfl | mem
    · exact ⟨before, order, later.le⟩
    · obtain ⟨start, order', stop⟩ := ih later mem
      exact ⟨Nat.le_trans (Nat.le_trans before order) start, order', stop⟩

/-- The leaves do not overlap and never go back. -/
theorem Tiles.pairwise (h : Tiles text a xs b) :
    xs.Pairwise fun m n => m.stop.bytes ≤ n.start.bytes := by
  induction xs generalizing a with
  | nil => exact .nil
  | cons m rest ih =>
    obtain ⟨_, _, _, later⟩ := h
    exact .cons (fun n mem => (later.inside mem).1) (ih later)

/-- A byte in none of the leaves is filler. -/
theorem Tiles.isFiller (h : Tiles text a xs b) {i : Nat} (le : a ≤ i) (lt : i < b)
    (outside : ∀ n ∈ xs, ¬(n.start.bytes ≤ i ∧ i < n.stop.bytes)) :
    Text.IsFiller text.bytes i := by
  induction xs generalizing a with
  | nil => exact h.2 i le lt
  | cons m rest ih =>
    obtain ⟨_, fills, _, later⟩ := h
    rcases Nat.lt_or_ge i m.start.bytes with before | behind
    · exact fills i le before
    · have notIn := outside m List.mem_cons_self
      exact ih later (Nat.le_of_not_lt fun inside => notIn ⟨behind, inside⟩)
        fun n mem => outside n (List.mem_cons_of_mem _ mem)

/-- Nodes whose leaves tile a part of the text, and which hold their children. -/
structure Lays (text : Text) (a : Nat) (xs : List Placed) (b : Nat) : Prop where
  tiles : Tiles text a (leavesAmong xs) b
  holds : ∀ x ∈ xs, x.node.HoldsChildren

theorem Lays.append {xs ys : List Placed} (h : Lays text a xs b) (h' : Lays text b ys c) :
    Lays text a (xs ++ ys) c := by
  refine ⟨?_, fun x mem => ?_⟩
  · rw [leavesAmong_append]
    exact h.tiles.append h'.tiles
  · rcases List.mem_append.mp mem with mem | mem
    · exact h.holds x mem
    · exact h'.holds x mem

/-- A node that holds its children, over what these lay; without children it is a leaf behind its
padding. -/
theorem lays_walk {n : Node} (depth : Nat) (parent? : Option Symbol) (holds : n.HoldsChildren)
    (le : a ≤ n.start.bytes) (fills : text.Fills a n.start.bytes)
    (order : n.start.bytes ≤ n.stop.bytes)
    (below : n.children ≠ [] → Lays text a (walkAll (depth + 1) (some n.kind) n.children)
      n.stop.bytes) : Lays text a (n.walk depth parent?) n.stop.bytes := by
  rw [walk_eq]
  cases children : n.children with
  | nil =>
    refine ⟨?_, fun x mem => ?_⟩
    · have leaf : leavesAmong (⟨depth, parent?, n⟩ :: walkAll (depth + 1) (some n.kind) []) = [n] := by
        simp [leavesAmong, walkAll, children]
      rw [leaf]
      exact ⟨le, fills, order, Nat.le_refl _, Text.fills_of_le (Nat.le_refl _)⟩
    · obtain rfl := List.mem_singleton.mp mem
      exact holds
  | cons c rest =>
    rw [children] at below
    obtain ⟨tiles, inner⟩ := below (List.cons_ne_nil c rest)
    refine ⟨?_, fun x mem => ?_⟩
    · have noLeaf : leavesAmong (⟨depth, parent?, n⟩ :: walkAll (depth + 1) (some n.kind) (c :: rest))
          = leavesAmong (walkAll (depth + 1) (some n.kind) (c :: rest)) := by
        rw [leavesAmong, List.map_cons, List.filter_cons_of_neg (by simp [children])]
        rfl
      rw [noLeaf]
      exact tiles
    · rcases List.mem_cons.mp mem with rfl | mem
      · exact holds
      · exact inner x mem

end Node

namespace Tree

variable {text : Text} {p : Extent}

/-! ### Where nodes stand -/

/-- The padding of the first of several trees. -/
def firstPadding (ts : List Tree) : Extent :=
  (ts.head?.map padding).getD .zero

mutual

theorem bounds_nodesBelow (p : Extent) (field : Option Field) :
    ∀ {t : Tree}, t.Grown text p → ∀ n ∈ t.nodesBelow field p,
      p.bytes + t.padding.bytes ≤ n.start.bytes ∧ n.stop.bytes ≤ p.bytes + t.extent.bytes
  | .leaf .., _, n, mem => absurd mem List.not_mem_nil
  | .node label extra measure children, h, n, mem => by
    have extent := h.extent_node
    obtain ⟨rfl, _, grown⟩ := h
    rw [extent]
    exact bounds_nodesOf p label.layout 0 field grown n mem

/-- The nodes of several trees begin behind the padding of the first one, and end with the last. -/
theorem bounds_nodesOf (p : Extent) (layout index : Nat) (above : Option Field) :
    ∀ {ts : List Tree}, GrownOf text p ts → ∀ n ∈ nodesOf layout index above p ts,
      p.bytes + (firstPadding ts).bytes ≤ n.start.bytes ∧
        n.stop.bytes ≤ p.bytes + (extentOf ts).bytes
  | [], _, n, mem => absurd mem List.not_mem_nil
  | t :: rest, h, n, mem => by
    obtain ⟨grown, grownRest⟩ := h
    have first : t.extent.bytes = t.padding.bytes + t.size.bytes := rfl
    change p.bytes + t.padding.bytes ≤ _ ∧ _
    rw [extentOf_cons, Extent.bytes_add]
    rcases mem_nodesOf_cons.mp mem with ⟨-, rfl⟩ | ⟨-, mem⟩ | mem
    · rw [start_toNode, stop_toNode, Extent.bytes_add, Extent.bytes_add]
      omega
    · have := bounds_nodesBelow p _ grown n mem
      omega
    · have := bounds_nodesOf (p + t.extent) _ _ _ grownRest n mem
      rw [Extent.bytes_add] at this
      omega

end

/-! ### What grown trees show -/

open Node

/-- The node of a tree, if the nodes of its children lay what it takes up. -/
theorem lays_toNode_of {t : Tree} (h : t.Grown text p) (place : text.IsPlace p)
    (field : Option Field) (depth : Nat) (parent? : Option Symbol)
    (holds : (t.toNode field p).HoldsChildren)
    (below : (t.toNode field p).children ≠ [] →
      Lays text p.bytes (walkAll (depth + 1) (some (t.toNode field p).kind)
        (t.toNode field p).children) (p + t.extent).bytes) :
    Lays text p.bytes ((t.toNode field p).walk depth parent?) (p + t.extent).bytes := by
  rw [← stop_toNode t field p] at below ⊢
  refine lays_walk depth parent? holds ?_ ?_ ?_ below
  · rw [start_toNode]
    exact Nat.le_add_right ..
  · rw [start_toNode]
    exact h.fills_padding place
  · rw [start_toNode, stop_toNode, extent, ← Extent.add_assoc]
    exact Nat.le_add_right ..

mutual

theorem lays_toNode (p : Extent) (place : text.IsPlace p) (field : Option Field) (depth : Nat)
    (parent? : Option Symbol) :
    ∀ {t : Tree}, t.Grown text p →
      Lays text p.bytes ((t.toNode field p).walk depth parent?) (p + t.extent).bytes
  | .leaf .., h =>
    lays_toNode_of h place field depth parent? (fun _ mem => absurd mem List.not_mem_nil)
      fun some => absurd rfl some
  | .node label extra measure children, h => by
    have extent := h.extent_node
    refine lays_toNode_of h place field depth parent? (fun n mem => ?_) fun _ => ?_
    · obtain ⟨rfl, _, grown⟩ := h
      rw [start_toNode, stop_toNode, extent]
      exact bounds_nodesOf p label.layout 0 none grown n mem
    · rw [extent]
      exact lays_nodesOf p place label.layout 0 none (depth + 1) _ h.2.2

theorem lays_nodesBelow (p : Extent) (place : text.IsPlace p) (field : Option Field) (depth : Nat)
    (parent? : Option Symbol) :
    ∀ {t : Tree}, t.Grown text p → t.isVisible = false →
      Lays text p.bytes (walkAll depth parent? (t.nodesBelow field p)) (p + t.extent).bytes
  | .leaf content padding size extra, h, hidden => by
    have fills := h.fills_padding place
    have nothing : (Tree.leaf content padding size extra).extent = padding := by
      rw [extent, Tree.padding, Tree.size, IsGrownLeaf.size_of_hidden h place hidden,
        Extent.add_zero]
    rw [nothing]
    exact ⟨⟨Nat.le_add_right .., fills⟩, fun _ mem => absurd mem List.not_mem_nil⟩
  | .node label extra measure children, h, _ => by
    rw [h.extent_node]
    exact lays_nodesOf p place label.layout 0 field depth parent? h.2.2

/-- The nodes of trees that follow one another lay the text that these take up. -/
theorem lays_nodesOf (p : Extent) (place : text.IsPlace p) (layout index : Nat)
    (above : Option Field) (depth : Nat) (parent? : Option Symbol) :
    ∀ {ts : List Tree}, GrownOf text p ts →
      Lays text p.bytes (walkAll depth parent? (nodesOf layout index above p ts))
        (p + extentOf ts).bytes
  | [], _ => by
    rw [extentOf_nil, Extent.add_zero]
    exact ⟨⟨Nat.le_refl _, Text.fills_of_le (Nat.le_refl _)⟩, fun _ mem => absurd mem List.not_mem_nil⟩
  | t :: rest, h => by
    obtain ⟨grown, grownRest⟩ := h
    rw [nodesOf, walkAll_append, extentOf_cons, ← Extent.add_assoc]
    refine Lays.append ?_ (lays_nodesOf (p + t.extent) (grown.isPlace place) _ _ _ _ _ grownRest)
    split
    · rw [walkAll, walkAll, List.append_nil]
      exact lays_toNode p place _ depth parent? grown
    · rename_i hidden
      exact lays_nodesBelow p place _ depth parent? grown (by simpa using hidden)

end

end Tree

/-! ### The tree of a source -/

/-- A tree of nodes shows all of a source: the root is the start symbol or an error and ends where
the source ends; all nodes hold their children; the leaves follow one another inside the source; and
only filler is in none of them. -/
structure Node.IsLossless (source : List UInt8) (root : Node) : Prop where
  kind : root.kind = .rule .sourceFile ∨ root.kind = .error
  stop : root.stop.bytes = source.length
  holds : ∀ x ∈ root.all, x.node.HoldsChildren
  inside : ∀ n ∈ root.leaves, n.start.bytes ≤ n.stop.bytes ∧ n.stop.bytes ≤ source.length
  ordered : root.leaves.Pairwise fun m n => m.stop.bytes ≤ n.start.bytes
  filler : ∀ i < source.length,
    (∀ n ∈ root.leaves, ¬(n.start.bytes ≤ i ∧ i < n.stop.bytes)) → Text.IsFiller source i

/-- Nothing of a source is lost in a tree that is whole for it. -/
theorem Tree.IsWhole.isLossless {source : List UInt8} {t : Tree}
    (whole : t.IsWhole (Text.decode source)) : t.root.IsLossless source := by
  have bytes := Text.bytes_decode source
  have length : (Text.decode source).extent.bytes = source.length := by
    rw [← Text.length_bytes, bytes]
  have lays := Tree.lays_toNode .zero (Text.isPlace_zero _) none 0 none whole.grown
  rw [Extent.zero_add, whole.extent, length] at lays
  refine ⟨?_, ?_, lays.holds, fun n mem => (lays.tiles.inside mem).2, lays.tiles.pairwise,
    fun i lt outside => ?_⟩
  · rcases whole.root with ⟨layout, children, same⟩ | ⟨children, same⟩
    · exact .inl (by rw [same]; rfl)
    · exact .inr (by rw [same]; rfl)
  · rw [Tree.root, Tree.stop_toNode, Extent.zero_add, whole.extent, length]
  · rw [← bytes]
    exact lays.tiles.isFiller (Nat.zero_le i) lt outside

/-- Nothing of a source is lost in its tree. -/
theorem isLossless_parse (source : List UInt8) : (parse source).root.IsLossless source :=
  (isWhole_parse source).isLossless

end SusSyntax
