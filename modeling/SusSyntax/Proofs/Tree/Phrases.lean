import SusSyntax.Proofs.Parse.Origins

/-!
What the pieces below a node are to the grammar.

The leaves below a tree without errors are tokens, apart from comments, and the rule of the tree derives
them (`Tree.derives_yield`). A node stands over the leaves of a tree, and if it is one over a rule below
the root, these begin and end with tokens (`IsFull.isTrimmed_leafTrees`). So a node over a rule stands
over pieces that the rule derives, and which begin and end inside the grammar (`Parses.exists_phrase`).
-/

namespace SusSyntax

open Grammar Phrase Lexical Plain

namespace Tree

/-! ### Tokens -/

/-- The token that a leaf is to the grammar. -/
def token? (t : Tree) : Option Token :=
  if t.isExtra then none
  else match t.symbol with
    | .token u => some u
    | _ => none

theorem token?_of_extra {t : Tree} (extra : t.isExtra = true) : t.token? = none :=
  if_pos extra

theorem token?_of_symbol {t : Tree} {u : Token} (inside : t.isExtra = false)
    (symbol : t.symbol = .token u) : t.token? = some u := by
  rw [token?, inside, symbol]
  rfl

/-- The tokens below trees, without the extras. -/
def yieldOf (ts : List Tree) : List Token :=
  (ts.flatMap leafTrees).filterMap token?

@[simp] theorem leafTrees_leaf (content : Leaf) (padding size : Extent) (extra : Bool) :
    (Tree.leaf content padding size extra).leafTrees = [.leaf content padding size extra] := rfl

@[simp] theorem leafTrees_node (label : Label) (extra : Bool) (measure : Measure) (ts : List Tree) :
    (Tree.node label extra measure ts).leafTrees = ts.flatMap leafTrees := by
  rw [leafTrees, tips, map_tipsOf]

theorem yieldOf_cons (t : Tree) (ts : List Tree) : yieldOf (t :: ts) = yieldOf [t] ++ yieldOf ts := by
  simp [yieldOf]

theorem yieldOf_node (label : Label) (extra : Bool) (measure : Measure) (ts : List Tree) :
    yieldOf [.node label extra measure ts] = yieldOf ts := by
  simp [yieldOf]

variable {text : Text} {p : Extent}

mutual

/-- A rule derives the tokens below it. -/
theorem derives_yield {r : Rule} : ∀ {t : Tree} {p : Extent}, t.Grown text p → t.IsProper →
    t.symbol = .rule r → (Phrase.rule r).Derives (yieldOf [t])
  | .leaf .., _, _, proper, isRule => by
    cases proper
    cases isRule
  | .node label extra measure children, p, h, proper, isRule => by
    cases label with
    | rule r' layout =>
      obtain rfl := Symbol.rule.inj isRule
      obtain ⟨-, joins, grown⟩ := h
      rw [yieldOf_node]
      exact .rule ((spans_of_joins joins grown none).derives
        (yields_yieldOf layout 0 none grown proper.of_mem_children))
    | error | skipped => cases isRule

theorem yields_yieldOf (layout index : Nat) (above : Option Field) :
    ∀ {ts : List Tree} {p : Extent}, GrownOf text p ts → (∀ t ∈ ts, t.IsProper) →
      Yields derivesPart (partsOf layout index above (insiders ts)) (yieldOf ts)
  | [], _, _, _ => .nil
  | .leaf content padding size extra :: rest, p, h, proper => by
    obtain ⟨first, others⟩ := List.forall_mem_cons.mp proper
    rw [yieldOf_cons]
    cases first with
    | leaf outside =>
      cases extra with
      | true =>
        rw [insiders_cons_of_extra rfl]
        exact yields_yieldOf layout index above h.2 others
      | false =>
        rw [insiders_cons_of_not_extra rfl]
        exact .cons rfl (yields_yieldOf layout (index + 1) above h.2 others)
  | .node label extra measure children :: rest, p, h, proper => by
    obtain ⟨first, others⟩ := List.forall_mem_cons.mp proper
    rw [yieldOf_cons]
    cases id first with
    | @node r l =>
      rw [insiders_cons_of_not_extra rfl]
      exact .cons (derives_yield h.1 first rfl) (yields_yieldOf layout (index + 1) above h.2 others)

end

theorem IsProper.of_mem_leafTrees {t : Tree} (h : t.IsProper) : ∀ u ∈ t.leafTrees, u.IsProper := by
  induction h with
  | leaf outside =>
    rw [leafTrees_leaf]
    exact List.forall_mem_singleton.mpr (.leaf outside)
  | node _ ih =>
    rw [leafTrees_node]
    intro u mem
    obtain ⟨t, child, mem⟩ := List.mem_flatMap.mp mem
    exact ih t child u mem

/-! ### Nodes and their trees -/

/-- The leaves of trees take up what the trees do. -/
theorem IsFull.extent_eq {t : Tree} (h : t.IsFull) : t.extent = extentOf t.leafTrees :=
  (h.tips_spec none).1

theorem IsFull.leafTrees_ne_nil {t : Tree} (h : t.IsFull) : t.leafTrees ≠ [] := by
  obtain ⟨-, first, rest, same, -⟩ := h.tips_spec none
  rw [leafTrees, same]
  exact List.cons_ne_nil _ _

/-- A node shows a tree, in which `P` holds, over some of the leaves that follow one another from `p`
on. -/
def ShowsTree (P : Tree → Prop) (p : Extent) (leaves : List Tree) (x : Node.Placed) : Prop :=
  ∃ (front back : List Tree) (u : Tree) (field : Option Field),
    leaves = front ++ u.leafTrees ++ back ∧ P u ∧ u.IsFull ∧
      x.node = u.toNode field (p + extentOf front)

section ShowsTree

variable {P : Tree → Prop} {leaves : List Tree} {x : Node.Placed}

theorem ShowsTree.append_right (h : ShowsTree P p leaves x) (ts : List Tree) :
    ShowsTree P p (leaves ++ ts) x := by
  obtain ⟨front, back, u, field, rfl, known⟩ := h
  exact ⟨front, back ++ ts, u, field, by simp, known⟩

theorem ShowsTree.append_left (ts : List Tree) (h : ShowsTree P (p + extentOf ts) leaves x) :
    ShowsTree P p (ts ++ leaves) x := by
  obtain ⟨front, back, u, field, rfl, holds, full, node⟩ := h
  exact ⟨ts ++ front, back, u, field, by simp, holds, full, by simp [node, Extent.add_assoc]⟩

mutual

/-- A node from a tree down shows a tree; what holds of a tree and is passed on to the children holds of
that tree. -/
theorem IsFull.showsTree (below : ∀ t, P t → ∀ u ∈ t.children, P u) (field : Option Field) (p : Extent)
    (depth : Nat) (parent? : Option Symbol) : ∀ {t : Tree}, t.IsFull → P t →
      ∀ x ∈ (t.toNode field p).walk depth parent?, ShowsTree P p t.leafTrees x
  | .leaf .., full, holds, x, mem => by
    obtain rfl := List.mem_singleton.mp mem
    exact ⟨[], [], _, field, by simp, holds, full, by rw [extentOf_nil, Extent.add_zero]; rfl⟩
  | .node label extra measure children, full, holds, x, mem => by
    rw [toNode, Node.walk] at mem
    rcases List.mem_cons.mp mem with rfl | inside
    · exact ⟨[], [], _, field, by simp, holds, full, by rw [extentOf_nil, Extent.add_zero, toNode]⟩
    · rw [leafTrees_node]
      cases full with
      | node _ full => exact showsTree_nodesOf below label.layout 0 none p _ _ full (below _ holds) x inside

theorem showsTree_nodesBelow (below : ∀ t, P t → ∀ u ∈ t.children, P u) (field : Option Field)
    (p : Extent) (depth : Nat) (parent? : Option Symbol) : ∀ {t : Tree}, t.IsFull → P t →
      ∀ x ∈ Node.walkAll depth parent? (t.nodesBelow field p), ShowsTree P p t.leafTrees x
  | .leaf .., _, _, _, mem => absurd mem List.not_mem_nil
  | .node label extra measure children, full, holds, x, mem => by
    rw [leafTrees_node]
    cases full with
    | node _ full => exact showsTree_nodesOf below label.layout 0 field p _ _ full (below _ holds) x mem

theorem showsTree_nodesOf (below : ∀ t, P t → ∀ u ∈ t.children, P u) (layout index : Nat)
    (above : Option Field) (p : Extent) (depth : Nat) (parent? : Option Symbol) :
    ∀ {ts : List Tree}, (∀ t ∈ ts, t.IsFull) → (∀ t ∈ ts, P t) →
      ∀ x ∈ Node.walkAll depth parent? (nodesOf layout index above p ts),
        ShowsTree P p (ts.flatMap leafTrees) x
  | [], _, _, _, mem => absurd mem List.not_mem_nil
  | t :: rest, full, holds, x, mem => by
    obtain ⟨first, others⟩ := List.forall_mem_cons.mp full
    obtain ⟨here, there⟩ := List.forall_mem_cons.mp holds
    rw [nodesOf, Node.walkAll_append] at mem
    rw [List.flatMap_cons]
    rcases List.mem_append.mp mem with mem | mem
    · refine ShowsTree.append_right ?_ _
      split at mem
      · rw [Node.walkAll, Node.walkAll, List.append_nil] at mem
        exact IsFull.showsTree below _ p depth parent? first here x mem
      · exact showsTree_nodesBelow below _ p depth parent? first here x mem
    · refine ShowsTree.append_left _ ?_
      rw [← first.extent_eq]
      exact showsTree_nodesOf below _ _ _ _ depth parent? others there x mem

end

end ShowsTree

/-- The leaves of a tree that is no extra begin and end with ones that are none. -/
theorem IsFull.isTrimmed_leafTrees {t : Tree} (full : t.IsFull) {s : State} (founded : t.Founded s)
    (inside : t.isExtra = false) : IsTrimmed t.leafTrees := by
  induction full generalizing s with
  | leaf => exact ⟨fun _ mem => Option.some.inj mem ▸ inside, fun _ mem => Option.some.inj mem ▸ inside⟩
  | @node label extra children some full ih =>
    obtain ⟨-, ⟨first, last⟩, -, founded⟩ := founded
    rw [leafTrees_node]
    refine ⟨fun u mem => ?_, fun u mem => ?_⟩
    · obtain ⟨t, rest, rfl⟩ := List.exists_cons_of_ne_nil some
      obtain ⟨v, leaves, same⟩ := List.exists_cons_of_ne_nil (full t List.mem_cons_self).leafTrees_ne_nil
      refine (ih t List.mem_cons_self founded.1 (first t rfl)).1 u ?_
      rw [List.flatMap_cons, same] at mem
      rw [same]
      exact mem
    · obtain ⟨rest, t, rfl⟩ : ∃ rest t, children = rest ++ [t] :=
        (List.eq_nil_or_concat children).resolve_left some |>.imp fun _ ⟨t, same⟩ => ⟨t, by simpa using same⟩
      obtain ⟨q, known⟩ := founded.exists_founded t (by simp)
      have ne := (full t (by simp)).leafTrees_ne_nil
      refine (ih t (by simp) known (last t (by simp))).2 u ?_
      rw [List.flatMap_append, List.flatMap_singleton, List.getLast?_append,
        List.getLast?_eq_some_getLast ne, Option.some_or] at mem
      rw [List.getLast?_eq_some_getLast ne]
      exact mem

end Tree

/-! ### Pieces -/

namespace Lexical.Piece

/-- Whether a piece stands outside the grammar: a comment, or the end of the text. -/
def isOutside (z : Piece) : Bool :=
  (Leaf.read z.token).isOutside

/-- What a piece can be taken for: for its token, or a keyword for a name. -/
def MayBe (z : Piece) (u : Token) : Prop :=
  u = z.token ∨ z.token ∈ Token.keywords ∧ u = .identifier

/-- The tokens that pieces are taken for. -/
inductive Spells : List Piece → List Token → Prop where
  | nil : Spells [] []
  | outside {z : Piece} {zs : List Piece} {w : List Token} :
      z.isOutside = true → Spells zs w → Spells (z :: zs) w
  | inside {z : Piece} {zs : List Piece} {u : Token} {w : List Token} :
      z.isOutside = false → z.MayBe u → Spells zs w → Spells (z :: zs) (u :: w)

variable {z : Piece} {xs ys : List Piece} {w : List Token}

theorem Spells.append {v : List Token} (h : Spells xs v) (h' : Spells ys w) :
    Spells (xs ++ ys) (v ++ w) := by
  induction h with
  | nil => exact h'
  | outside outside _ ih => exact .outside outside ih
  | inside inside known _ ih => exact .inside inside known ih

theorem Spells.split (h : Spells (xs ++ ys) w) :
    ∃ u v, w = u ++ v ∧ Spells xs u ∧ Spells ys v := by
  induction xs generalizing w with
  | nil => exact ⟨[], w, rfl, .nil, h⟩
  | cons x xs ih =>
    cases h with
    | outside outside later =>
      obtain ⟨u, v, rfl, front, back⟩ := ih later
      exact ⟨u, v, rfl, .outside outside front, back⟩
    | @inside _ _ t _ inside known later =>
      obtain ⟨u, v, rfl, front, back⟩ := ih later
      exact ⟨t :: u, v, rfl, .inside inside known front, back⟩

/-- A piece inside the grammar is a token. -/
theorem Spells.ne_nil (h : Spells (xs ++ z :: ys) w) (inside : z.isOutside = false) : w ≠ [] := by
  obtain ⟨u, v, rfl, -, behind⟩ := h.split
  cases behind with
  | outside outside => exact absurd (outside.symm.trans inside) (by decide)
  | inside => simp

/-- A keyword that can be taken for a name is one of the keywords, or a name anyway. -/
theorem Stands.mayBe_identifier {after : Text} (h : z.Stands after) (keyword : z.isKeyword = true) :
    z.isOutside = false ∧ z.MayBe .identifier := by
  rcases h.kind with ⟨-, -, -, none⟩ | ⟨-, -, u, -, ⟨rfl, name⟩ | ⟨rfl, isKeyword⟩⟩
  · exact absurd (none.symm.trans keyword) (by decide)
  · rw [isOutside, name keyword]
    exact ⟨rfl, .inl (name keyword).symm⟩
  · have inside : ∀ k ∈ Token.keywords, (Leaf.read k).isOutside = false := by decide
    exact ⟨inside _ isKeyword, .inr ⟨isKeyword, rfl⟩⟩

end Lexical.Piece

namespace Plain

variable {pieces : List Piece} {t : Tree} {ts : List Tree} {z : Piece}

/-- Pieces fall apart where their leaves do. -/
theorem AreLeaves.split_pieces {us : List Tree} (h : AreLeaves (pieces.map Piece.lexeme) (ts ++ us)) :
    ∃ ys zs, pieces = ys ++ zs ∧ AreLeaves (ys.map Piece.lexeme) ts ∧
      AreLeaves (zs.map Piece.lexeme) us := by
  obtain ⟨xs, xs', same, front, back⟩ := h.split
  obtain ⟨ys, zs, rfl, rfl, rfl⟩ := List.map_eq_append_iff.mp same
  exact ⟨ys, zs, rfl, front, back⟩

/-- The leaf of a piece is an extra just if the piece stands outside the grammar. -/
theorem IsLeafOf.spec {after : Text} (h : IsLeafOf z.lexeme t) (stands : z.Stands after)
    (proper : t.IsProper) : t.isExtra = z.isOutside ∧
      (z.isOutside = false → ∃ u, t.token? = some u ∧ z.MayBe u) := by
  obtain ⟨y, extra, rfl | ⟨keyword, rfl⟩, rfl⟩ := h
  · cases proper with
    | leaf outside =>
      obtain rfl : extra = z.isOutside := outside
      exact ⟨rfl, fun inside => ⟨z.token, Tree.token?_of_symbol inside rfl, .inl rfl⟩⟩
  · obtain ⟨inside, known⟩ := stands.mayBe_identifier keyword
    cases proper with
    | leaf outside =>
      obtain rfl : extra = false := outside
      exact ⟨inside.symm, fun _ => ⟨.identifier, rfl, known⟩⟩

theorem AreLeaves.spells (h : AreLeaves (pieces.map Piece.lexeme) ts)
    (stands : ∀ z ∈ pieces, ∃ after, z.Stands after) (proper : ∀ t ∈ ts, t.IsProper) :
    Piece.Spells pieces (ts.filterMap Tree.token?) := by
  induction pieces generalizing ts with
  | nil =>
    cases h
    exact .nil
  | cons z pieces ih =>
    cases h with
    | @cons _ t _ ts first later =>
      obtain ⟨⟨after, here⟩, there⟩ := List.forall_mem_cons.mp stands
      obtain ⟨properHere, properThere⟩ := List.forall_mem_cons.mp proper
      obtain ⟨extra, known⟩ := first.spec here properHere
      have rest := ih later there properThere
      cases outside : z.isOutside with
      | true =>
        rw [List.filterMap_cons_none (Tree.token?_of_extra (extra.trans outside))]
        exact .outside outside rest
      | false =>
        obtain ⟨u, token, known⟩ := known outside
        rw [List.filterMap_cons_some token]
        exact .inside outside known rest

/-- Pieces with leaves that begin and end with no extras begin and end inside the grammar. -/
theorem AreLeaves.inside_ends (h : AreLeaves (pieces.map Piece.lexeme) ts)
    (stands : ∀ z ∈ pieces, ∃ after, z.Stands after) (proper : ∀ t ∈ ts, t.IsProper)
    (trimmed : Tree.IsTrimmed ts) :
    (∀ z ∈ pieces.head?, z.isOutside = false) ∧ ∀ z ∈ pieces.getLast?, z.isOutside = false := by
  obtain ⟨first, last⟩ := trimmed
  refine ⟨fun z ahead => ?_, fun z behind => ?_⟩
  · obtain ⟨rest, rfl⟩ := List.head?_eq_some_iff.mp ahead
    cases h with
    | @cons _ t _ ts isLeaf _ =>
      obtain ⟨after, known⟩ := stands z List.mem_cons_self
      rw [← (isLeaf.spec known (proper t List.mem_cons_self)).1]
      exact first t rfl
  · obtain ⟨front, rfl⟩ := List.getLast?_eq_some_iff.mp behind
    rw [List.map_append] at h
    obtain ⟨us, vs, rfl, -, isLast⟩ := h.split_lexemes
    cases isLast with
    | @cons _ t _ ts isLeaf none =>
      cases none
      obtain ⟨after, known⟩ := stands z (by simp)
      rw [← (isLeaf.spec known (proper t (by simp))).1]
      exact last t (by simp)

namespace Parses

theorem exists_stands (h : Parses pieces t) : ∀ z ∈ pieces, ∃ after, z.Stands after := by
  intro z mem
  obtain ⟨ys, zs, rfl⟩ := List.append_of_mem mem
  exact ⟨_, h.stands⟩

theorem root_eq (whole : t.IsWhole (Piece.textOf pieces)) (clean : t.isClean = true) :
    t.symbol = .rule .sourceFile := by
  have proper := whole.isProper clean
  rcases whole.root with ⟨_, _, rfl⟩ | ⟨_, rfl⟩
  · rfl
  · cases proper

/-- A node over a rule below the root shows a tree with leaves that the rule derives, and which begin and
end with no extras. -/
theorem exists_subtree (h : Parses pieces t) (whole : t.IsWhole (Piece.textOf pieces))
    (clean : t.isClean = true) {x : Node.Placed} (mem : x ∈ t.root.all) {r : Rule}
    (kind : x.node.kind = .rule r) (ne : r ≠ .sourceFile) :
    ∃ (front back : List Tree) (u : Tree) (field : Option Field),
      t.leafTrees = front ++ u.leafTrees ++ back ∧ u.IsFull ∧
      (Phrase.rule r).Derives (u.leafTrees.filterMap Tree.token?) ∧ Tree.IsTrimmed u.leafTrees ∧
      x.node = u.toNode field (Tree.extentOf front) := by
  have proper := whole.isProper clean
  obtain ⟨d, takes, accepted⟩ := h.takes
  have founded := takes.foundedOf accepted
  -- Below the root every tree can be built from some state on.
  let Known (u : Tree) : Prop := (∃ p, u.Grown (Piece.textOf pieces) p) ∧ u.IsProper ∧
    (u.symbol ≠ .rule .sourceFile → ∃ s, u.Founded s) ∧ ∃ s, Tree.FoundedOf s u.children
  have below : ∀ u, Known u → ∀ c ∈ u.children, Known c := by
    rintro u ⟨⟨p, grown⟩, proper, -, s, founded⟩ c mem
    obtain ⟨q, known⟩ := founded.exists_founded c mem
    exact ⟨grown.children.exists_grown mem, proper.of_mem_children c mem, fun _ => ⟨q, known⟩, q,
      known.children⟩
  have known : Known t :=
    ⟨⟨_, whole.grown⟩, proper, fun ne => absurd (root_eq whole clean) ne, _, founded⟩
  obtain ⟨front, back, u, field, split, ⟨⟨q, grown⟩, proper, below, -⟩, full, node⟩ :=
    (h.isFull whole clean).showsTree below none .zero 0 none known x mem
  have symbol : u.symbol = .rule r := by
    rw [← kind, node, Tree.kind_toNode]
  have inside : u.isExtra = false := by
    cases proper with
    | leaf => cases symbol
    | node => rfl
  obtain ⟨s, founded⟩ := below (by simpa [symbol] using ne)
  refine ⟨front, back, u, field, split, full, ?_, full.isTrimmed_leafTrees founded inside, ?_⟩
  · have derives := Tree.derives_yield grown proper symbol
    rwa [Tree.yieldOf, List.flatMap_singleton] at derives
  · rw [node, Extent.zero_add]

/-- A node over a rule below the root stands over pieces that the rule derives, in a source that derives
them; they begin and end inside the grammar. -/
theorem exists_phrase (h : Parses pieces t) (whole : t.IsWhole (Piece.textOf pieces))
    (clean : t.isClean = true) {x : Node.Placed} (mem : x ∈ t.root.all) {r : Rule}
    (kind : x.node.kind = .rule r) (ne : r ≠ .sourceFile) :
    ∃ ys z mid zs v w v', pieces = ys ++ z :: mid ++ zs ∧ Piece.Spells ys v ∧
      Piece.Spells (z :: mid) w ∧ Piece.Spells zs v' ∧
      (Phrase.rule .sourceFile).Derives (v ++ w ++ v') ∧ (Phrase.rule r).Derives w ∧
      z.isOutside = false ∧ (∀ y ∈ (z :: mid).getLast?, y.isOutside = false) ∧
      x.node.start = (Piece.textOf ys ++ z.gap).extent ∧
      x.node.stop = (Piece.textOf (ys ++ z :: mid)).extent := by
  obtain ⟨front, back, u, field, split, full, derives, trimmed, node⟩ :=
    h.exists_subtree whole clean mem kind ne
  have derivesAll := Tree.derives_yield whole.grown (whole.isProper clean) (root_eq whole clean)
  have proper := (whole.isProper clean).of_mem_leafTrees
  have leaves := h.areLeaves
  have stands := h.exists_stands
  rw [Tree.yieldOf, List.flatMap_singleton] at derivesAll
  rw [split] at leaves derivesAll proper
  rw [List.filterMap_append, List.filterMap_append] at derivesAll
  clear h
  obtain ⟨upper, zs, rfl, upTo, behind⟩ := leaves.split_pieces
  obtain ⟨ys, us, rfl, before, here⟩ := upTo.split_pieces
  simp only [List.forall_mem_append] at proper stands
  have ends := here.inside_ends stands.1.2 proper.1.2 trimmed
  have spells := here.spells stands.1.2 proper.1.2
  have reached := here.extentOf_eq
  obtain ⟨-, first, rest, isFirst, padding⟩ := full.tips_spec none
  have some : u.leafTrees = first.tree :: rest.map Tree.Tip.tree := congrArg (List.map _) isFirst
  cases us with
  | nil =>
    rw [some] at here
    cases here
  | cons z mid =>
    have gap : u.padding = z.gap.extent := by
      rw [some] at here
      cases here with
      | cons isLeaf _ => exact padding.symm.trans isLeaf.measures.1
    refine ⟨ys, z, mid, zs, _, _, _, rfl, before.spells stands.1.1 proper.1.1, spells,
      behind.spells stands.2 proper.2, derivesAll, derives, ends.1 z rfl, ends.2, ?_, ?_⟩
    · rw [node, Tree.start_toNode, before.extentOf_eq, gap, Text.extent_append]
    · rw [node, Tree.stop_toNode, before.extentOf_eq, full.extent_eq, reached, Piece.textOf_append,
        Text.extent_append]

/-- The pieces of a source are tokens that the grammar derives. -/
theorem exists_spells (h : Parses pieces t) (whole : t.IsWhole (Piece.textOf pieces))
    (clean : t.isClean = true) :
    ∃ w, Piece.Spells pieces w ∧ (Phrase.rule .sourceFile).Derives w := by
  have proper := whole.isProper clean
  have derives := Tree.derives_yield whole.grown proper (root_eq whole clean)
  rw [Tree.yieldOf, List.flatMap_singleton] at derives
  exact ⟨_, h.areLeaves.spells h.exists_stands proper.of_mem_leafTrees, derives⟩

end Parses

end Plain

end SusSyntax
