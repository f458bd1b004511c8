import SusSyntax.Proofs.Lexical.Insertions
import SusSyntax.Proofs.Parse.Replay
import SusSyntax.Proofs.Tree.Comments
import SusSyntax.Proofs.Tree.Tips

/-!
Where the nodes of a tree stand among the pieces of its text.

A run puts every lexeme that it takes on the stack, as a leaf, and keeps the leaves in their order
(`Takes.areLeaves`). So the leaves of an accepted tree are the pieces of the text, but for keywords that
were taken for names (`Parses.exists_pieces`), and its nodes begin and end where pieces do
(`Parses.exists_cut`).
-/

namespace SusSyntax

open Grammar Lexical

namespace Lexical.Lexeme

/-- What a lexeme can be taken for: for itself, or a keyword for a name. -/
def MayBe (x y : Lexeme) : Prop :=
  y = x ∨ x.isKeyword = true ∧ y = x.asIdentifier

end Lexical.Lexeme

namespace Tree

/-- The leaves of a tree, in the order of the text. -/
def leafTrees (t : Tree) : List Tree :=
  (t.tips none).map Tip.tree

mutual

theorem map_tips (parent? : Option Symbol) :
    ∀ t : Tree, (t.tips parent?).map Tip.tree = t.leafTrees
  | .leaf .. => rfl
  | .node label _ _ children => by
    rw [leafTrees, tips, tips, map_tipsOf _ children, map_tipsOf _ children]

theorem map_tipsOf (parent? : Option Symbol) :
    ∀ ts : List Tree, (tipsOf parent? ts).map Tip.tree = ts.flatMap leafTrees
  | [] => rfl
  | t :: ts => by
    rw [tipsOf_cons, List.map_append, map_tips parent? t, map_tipsOf parent? ts, List.flatMap_cons]

end

@[simp] theorem leafTrees_ofChildren (label : Label) (ts : List Tree) :
    (ofChildren label ts).leafTrees = ts.flatMap leafTrees := by
  rw [leafTrees, ofChildren, tips, map_tipsOf]

/-- The root over trees has their leaves. -/
theorem leafTrees_rootOf? {ts : List Tree} {t : Tree} (h : Parse.rootOf? ts = some t) :
    t.leafTrees = ts.flatMap leafTrees := by
  rcases exists_trailing ts with all | ⟨front, u, extras, rfl, inside, all⟩
  · rw [rootOf?_of_extras all] at h
    cases h
  · rw [rootOf?_append front inside all] at h
    cases u with
    | leaf => cases h
    | node label extra measure children =>
      obtain rfl := Option.some.inj h
      have node : (Tree.node label extra measure children).leafTrees = children.flatMap leafTrees := by
        rw [leafTrees, tips, map_tipsOf]
      simp [node]

end Tree

namespace Plain

variable {c d : Config} {frames left : List Frame} {x y : Lexeme} {xs zs : List Lexeme}
  {ts us : List Tree}

theorem trees_pushTrees (target : State) (frames : List Frame) (ts : List Tree) :
    ((pushTrees target frames ts).map Frame.tree).reverse =
      (frames.map Frame.tree).reverse ++ ts := by
  induction ts generalizing frames with
  | nil => simp
  | cons t ts ih => rw [pushTrees_cons, ih]; simp

/-- The leaves of the trees on a stack. -/
def leavesOf (frames : List Frame) : List Tree :=
  (frames.map Frame.tree).reverse.flatMap Tree.leafTrees

theorem leavesOf_cons (f : Frame) (frames : List Frame) :
    leavesOf (f :: frames) = leavesOf frames ++ f.tree.leafTrees := by
  simp [leavesOf]

/-- A reduction keeps the leaves. -/
theorem leavesOf_putNode {rule : Rule} {size layout : Nat} {trees : List Tree} {target : State}
    (popped : pop size frames = some (trees, left)) :
    leavesOf (putNode rule layout trees target left) = leavesOf frames := by
  obtain ⟨taken, rfl, rfl, -⟩ := pop_spec popped
  rw [leavesOf, leavesOf, putNode_eq, trees_pushTrees, List.map_append, List.reverse_append,
    List.flatMap_append, List.flatMap_append, List.flatMap_cons, Tree.leafTrees_ofChildren,
    ← List.flatMap_append, Tree.append_splitTrailingExtras]

/-- The tree is a leaf of the lexeme. -/
def IsLeafOf (x : Lexeme) (t : Tree) : Prop :=
  ∃ y extra, x.MayBe y ∧ t = y.toTree.withExtra extra

/-- The trees are the leaves of these lexemes. -/
inductive AreLeaves : List Lexeme → List Tree → Prop where
  | nil : AreLeaves [] []
  | cons {x : Lexeme} {t : Tree} {xs : List Lexeme} {ts : List Tree} :
      IsLeafOf x t → AreLeaves xs ts → AreLeaves (x :: xs) (t :: ts)

theorem AreLeaves.append (h : AreLeaves xs ts) (h' : AreLeaves zs us) :
    AreLeaves (xs ++ zs) (ts ++ us) := by
  induction h with
  | nil => exact h'
  | cons first _ ih => exact .cons first ih

theorem AreLeaves.concat (h : AreLeaves xs ts) (known : x.MayBe y) (extra : Bool) :
    AreLeaves (xs ++ [x]) (ts ++ [y.toTree.withExtra extra]) :=
  h.append (.cons ⟨y, extra, known, rfl⟩ .nil)

/-- The lexemes fall apart where their leaves do. -/
theorem AreLeaves.split (h : AreLeaves zs (ts ++ us)) :
    ∃ xs ys, zs = xs ++ ys ∧ AreLeaves xs ts ∧ AreLeaves ys us := by
  induction ts generalizing zs with
  | nil => exact ⟨[], zs, rfl, .nil, h⟩
  | cons t ts ih =>
    cases h with
    | @cons x _ zs _ first later =>
      obtain ⟨xs, ys, rfl, front, back⟩ := ih later
      exact ⟨x :: xs, ys, rfl, .cons first front, back⟩

/-- The leaves fall apart where their lexemes do. -/
theorem AreLeaves.split_lexemes (h : AreLeaves (xs ++ zs) ts) :
    ∃ us vs, ts = us ++ vs ∧ AreLeaves xs us ∧ AreLeaves zs vs := by
  induction xs generalizing ts with
  | nil => exact ⟨[], ts, rfl, .nil, h⟩
  | cons x xs ih =>
    cases h with
    | @cons _ t _ ts first later =>
      obtain ⟨us, vs, rfl, front, back⟩ := ih later
      exact ⟨t :: us, vs, rfl, .cons first front, back⟩

theorem IsLeafOf.measures {t : Tree} (h : IsLeafOf x t) :
    t.padding = x.padding ∧ t.extent = x.extent := by
  obtain ⟨y, extra, rfl | ⟨-, rfl⟩, rfl⟩ := h <;> exact ⟨rfl, rfl⟩

theorem IsLeafOf.exists_symbol {z : Piece} {t : Tree} (h : IsLeafOf z.lexeme t) :
    ∃ u, t.symbol = .token u := by
  obtain ⟨y, extra, rfl | ⟨-, rfl⟩, rfl⟩ := h <;> exact ⟨_, rfl⟩

/-- A leaf of a piece is its token, or a name instead of a keyword. -/
theorem IsLeafOf.symbol_eq {z : Piece} {t : Tree} {u : Token} (h : IsLeafOf z.lexeme t)
    (symbol : t.symbol = .token u) : u = z.token ∨ z.isKeyword = true ∧ u = .identifier := by
  obtain ⟨y, extra, rfl | ⟨keyword, rfl⟩, rfl⟩ := h
  · exact .inl (Symbol.token.inj symbol).symm
  · exact .inr ⟨keyword, (Symbol.token.inj symbol).symm⟩

theorem AreLeaves.extentOf_eq {pieces : List Piece} (h : AreLeaves (pieces.map Piece.lexeme) ts) :
    Tree.extentOf ts = (Piece.textOf pieces).extent := by
  induction pieces generalizing ts with
  | nil =>
    cases h
    rfl
  | cons z pieces ih =>
    cases h with
    | cons first later =>
      rw [Tree.extentOf_cons, first.measures.2, ih later, Piece.textOf_cons, Text.extent_append,
        Text.extent_append, ← Extent.add_assoc]
      rfl

/-- These lexemes were taken: they are leaves of the stack, but for the last one if it is held. -/
inductive Config.Bears : List Lexeme → Config → Prop where
  | free {frames : List Frame} {xs : List Lexeme} :
      AreLeaves xs (leavesOf frames) → Config.Bears xs ⟨frames, none⟩
  | holding {frames : List Frame} {xs : List Lexeme} {x y : Lexeme} :
      AreLeaves xs (leavesOf frames) → x.MayBe y → Config.Bears (xs ++ [x]) ⟨frames, some y⟩

theorem Works.bears (h : Works c d) (bears : c.Bears zs) : d.Bears zs := by
  cases h with
  | rename renames =>
    cases bears with
    | holding leaves known =>
      simp only [Config.renames, Bool.and_eq_true, bne_iff_ne] at renames
      rcases known with rfl | ⟨-, rfl⟩
      · exact .holding leaves (.inr ⟨renames.1.1.2, rfl⟩)
      · exact absurd rfl renames.1.2
  | @act frames x a _ _ _ applies =>
    cases bears with
    | holding leaves known =>
      cases apply_eq_some_iff.mp applies with
      | shift => exact .free (leavesOf_cons .. ▸ leaves.concat known false)
      | shiftExtra => exact .free (leavesOf_cons .. ▸ leaves.concat known true)
      | reduce popped => exact .holding (leavesOf_putNode popped ▸ leaves) known

theorem Takes.bears (h : Takes c xs d) (bears : c.Bears zs) : d.Bears (zs ++ xs) := by
  induction h generalizing zs with
  | done => rwa [List.append_nil]
  | work works _ ih => exact ih (works.bears bears)
  | @read frames x xs d _ _ ih =>
    cases bears with
    | free leaves =>
      have next := ih (.holding leaves (.inl rfl))
      rwa [List.append_assoc] at next

/-- The leaves of an accepted tree are the lexemes that were taken. -/
theorem Takes.areLeaves {t : Tree} (h : Takes .initial xs d) (accepted : d.accepted? = some t) :
    AreLeaves xs t.leafTrees := by
  have bears : d.Bears ([] ++ xs) := h.bears (.free .nil)
  rw [List.nil_append] at bears
  cases bears with
  | free => cases accepted
  | @holding frames xs x y leaves known =>
    obtain ⟨_, same, -, root⟩ := accepted?_eq_some_iff.mp accepted
    obtain rfl := Option.some.inj same
    rw [Tree.leafTrees_rootOf? root, List.flatMap_append]
    exact leaves.concat known y.isEnd

/-! ### Pieces and nodes -/

/-- Pieces of the same kinds are taken for the same lexemes. -/
theorem skeletons_eq_of_kinds {xs ys : List Piece} (same : xs.map Piece.kind = ys.map Piece.kind) :
    (xs.map Piece.lexeme).map Lexeme.skeleton = (ys.map Piece.lexeme).map Lexeme.skeleton := by
  have shape (xs : List Piece) : (xs.map Piece.lexeme).map Lexeme.skeleton =
      (xs.map Piece.kind).map fun k => ⟨.read k.1, .zero, .zero, k.2.1, k.2.2⟩ := by
    simp [Lexeme.skeleton, Piece.lexeme, Piece.kind]
  rw [shape, shape, same]

/-- Pieces that the machine takes up to the acceptance of a tree. -/
structure Parses (pieces : List Piece) (t : Tree) : Prop where
  laid : Piece.Laid true pieces
  takes : ∃ d, Takes .initial (pieces.map Piece.lexeme) d ∧ d.accepted? = some t

namespace Parses

variable {pieces ys zs : List Piece} {z : Piece} {t : Tree}

theorem areLeaves (h : Parses pieces t) : AreLeaves (pieces.map Piece.lexeme) t.leafTrees :=
  let ⟨_, takes, accepted⟩ := h.takes
  takes.areLeaves accepted

theorem exists_end (h : Parses pieces t) : ∃ front last, pieces = front ++ [last] ∧
    last.token = .eof ∧ last.body = [] ∧ ∀ x ∈ front, x.token ≠ .eof ∧ x.body ≠ [] :=
  let ⟨_, takes, accepted⟩ := h.takes
  Plain.exists_end h.laid takes accepted

theorem stands (h : Parses (ys ++ z :: zs) t) : z.Stands (Piece.textOf zs) :=
  (Piece.Laid.append_right h.laid).stands

/-- A tree that pieces are taken for has leaves. -/
theorem isFull (h : Parses pieces t) (whole : t.IsWhole (Piece.textOf pieces))
    (clean : t.isClean = true) : t.IsFull := by
  refine whole.isFull clean fun none => ?_
  obtain ⟨front, last, rfl, -⟩ := h.exists_end
  have leaves := h.areLeaves
  rw [Tree.leafTrees, none, List.map_append] at leaves
  obtain ⟨us, vs, same, -, back⟩ := leaves.split_lexemes
  obtain ⟨rfl, rfl⟩ := List.append_eq_nil_iff.mp same.symm
  cases back

/-- A node begins where a piece does behind its gap, and it ends where a piece does. One over a token
is a piece. -/
theorem exists_pieces (h : Parses pieces t) (full : t.IsFull) (visible : t.isVisible = true)
    {x : Node.Placed} (mem : x ∈ t.root.all) : ∃ ys z mid zs, pieces = ys ++ z :: mid ++ zs ∧
      x.node.start = (Piece.textOf ys ++ z.gap).extent ∧
      x.node.stop = (Piece.textOf (ys ++ z :: mid)).extent ∧
      ∀ u, x.node.kind = .token u →
        mid = [] ∧ (u = z.token ∨ z.isKeyword = true ∧ u = .identifier) := by
  obtain ⟨front, first, mid, back, split, start, stop, token⟩ :=
    full.isOver_of_mem_walk none .zero 0 none visible x mem
  have leaves := h.areLeaves
  rw [Tree.leafTrees, split, List.map_append] at leaves
  obtain ⟨as, ds, whole, upper, -⟩ := leaves.split
  obtain ⟨upper', zs, rfl, rfl, rfl⟩ := List.map_eq_append_iff.mp whole
  rw [List.map_append] at upper
  obtain ⟨as, bs, whole', before, inside⟩ := upper.split
  obtain ⟨ys, cs, rfl, rfl, rfl⟩ := List.map_eq_append_iff.mp whole'
  cases cs with
  | nil => cases inside
  | cons z mid' =>
    cases inside with
    | cons isFirst inside =>
      have atStart := before.extentOf_eq
      have reached : AreLeaves ((ys ++ z :: mid').map Piece.lexeme)
          (front.map Tree.Tip.tree ++ first.tree :: mid.map Tree.Tip.tree) := by
        rw [List.map_append]
        exact before.append (.cons isFirst inside)
      refine ⟨ys, z, mid', zs, rfl, ?_, ?_, fun u kind => ?_⟩
      · rw [start, Tree.extentOfTips, atStart, isFirst.measures.1, Extent.zero_add,
          Text.extent_append]
        rfl
      · rw [stop, Extent.zero_add, Tree.extentOfTips, List.map_append, List.map_cons, reached.extentOf_eq]
      · obtain ⟨rfl, -, symbol⟩ := token u kind
        obtain rfl : mid' = [] := by
          cases mid' with
          | nil => rfl
          | cons => cases inside
        exact ⟨rfl, isFirst.symbol_eq symbol⟩

/-- Every piece but the end of the text is shown as a node. -/
theorem exists_node (h : Parses (ys ++ z :: zs) t) (full : t.IsFull) (visible : t.isVisible = true)
    (notEnd : z.token ≠ .eof) : ∃ n ∈ t.root.leaves,
      n.start = (Piece.textOf ys ++ z.gap).extent ∧ n.stop = (Piece.textOf (ys ++ [z])).extent ∧
      ∃ u, n.kind = .token u ∧ (u = z.token ∨ z.isKeyword = true ∧ u = .identifier) := by
  have leaves := h.areLeaves
  rw [List.map_append, List.map_cons] at leaves
  obtain ⟨us, vs, split, before, back⟩ := leaves.split_lexemes
  cases back with
  | @cons _ leaf _ vs isLeaf _ =>
    obtain ⟨front, rest, tips, rfl, same⟩ := List.map_eq_append_iff.mp split
    obtain ⟨tip, back, rfl, rfl, -⟩ := List.map_eq_cons_iff.mp same
    obtain ⟨u, symbol⟩ := isLeaf.exists_symbol
    have known := isLeaf.symbol_eq symbol
    have shown : tip.tree.isVisible = true := by
      rw [Tree.isVisible, symbol]
      rcases known with rfl | ⟨-, rfl⟩
      · exact bne_iff_ne.mpr notEnd
      · rfl
    obtain ⟨x, mem, -, kind, children, start, stop⟩ :=
      full.showsTips none .zero 0 none visible front tip back tips shown
    refine ⟨x.node, Node.mem_leaves.mpr ⟨⟨x, mem, rfl⟩, children⟩, ?_, ?_, u, kind.trans symbol, known⟩
    · rw [start, Tree.extentOfTips, before.extentOf_eq, isLeaf.measures.1, Extent.zero_add,
        Text.extent_append]
      rfl
    · have reached : AreLeaves ((ys ++ [z]).map Piece.lexeme)
          (front.map Tree.Tip.tree ++ [tip.tree]) := by
        rw [List.map_append]
        exact before.append (.cons isLeaf .nil)
      rw [stop, Extent.zero_add, Tree.extentOfTips, List.map_append, List.map_singleton,
        reached.extentOf_eq]

/-- A node begins and ends where a piece begins behind its gap, or where one ends. -/
theorem exists_cut (h : Parses pieces t) (full : t.IsFull) (visible : t.isVisible = true)
    {x : Node.Placed} (mem : x ∈ t.root.all) {p : Extent} (bound : p = x.node.start ∨ p = x.node.stop) :
    ∃ ys z zs gap gap', pieces = ys ++ z :: zs ∧ z.gap = gap ++ gap' ∧
      p = (Piece.textOf ys ++ gap).extent ∧ (gap' = [] ∨ gap = [] ∧ ys ≠ []) := by
  obtain ⟨ys, z, mid, zs, rfl, start, stop, -⟩ := h.exists_pieces full visible mem
  rcases bound with rfl | rfl
  · exact ⟨ys, z, mid ++ zs, z.gap, [], by simp, by simp, start, .inl rfl⟩
  · cases zs with
    | cons w zs =>
      exact ⟨ys ++ z :: mid, w, zs, [], w.gap, by simp, rfl, by simpa using stop, .inr ⟨rfl, by simp⟩⟩
    | nil =>
      rw [List.append_nil] at h
      obtain ⟨front, last, same, -, none, -⟩ := h.exists_end
      refine ⟨front, last, [], last.gap, [], by simpa using same, by simp, ?_, .inl rfl⟩
      rw [stop, same]
      simp [none]

/-- Other pieces of the same kinds are taken as well, up to a tree of the same skeleton. -/
theorem replay {pieces' : List Piece} (h : Parses pieces t) (laid : Piece.Laid true pieces')
    (same : pieces'.map Piece.kind = pieces.map Piece.kind) (bare : Bool) :
    ∃ t', Parses pieces' t' ∧ t.skeleton bare = t'.skeleton bare := by
  obtain ⟨-, d, takes, accepted⟩ := h
  have none : Settled Config.initial.frames := trivial
  have start : Config.initial.skeleton bare = Config.initial.skeleton bare := rfl
  obtain ⟨d', takes', sameEnd, settled, settled'⟩ :=
    takes.replay none none start (skeletons_eq_of_kinds same.symm)
  obtain ⟨t', accepted', sameTree⟩ := accepted?_replay settled settled' sameEnd accepted
  exact ⟨t', ⟨laid, d', takes', accepted'⟩, sameTree⟩

end Parses

end Plain

open Plain

variable {source : List UInt8} {pieces : List Piece} {t : Tree}

/-- A source without errors falls into pieces that its tree is built of. -/
theorem exists_parses (clean : (parse source).isClean = true) :
    ∃ pieces, Piece.textOf pieces = Text.decode source ∧ Parses pieces (parse source) := by
  obtain ⟨pieces, d, text, laid, takes, accepted⟩ :=
    accepts_iff_pieces.mp ((accepts_iff_of_isClean clean _).mpr rfl)
  exact ⟨pieces, text, laid, d, takes, accepted⟩

/-- Pieces that a tree is built of are those of a source without errors that has this tree. -/
theorem Plain.Parses.parse_eq (h : Parses pieces t) (text : Piece.textOf pieces = Text.decode source) :
    (parse source).isClean = true ∧ parse source = t := by
  obtain ⟨laid, d, takes, accepted⟩ := h
  have accepts : Accepts (Text.decode source) t :=
    accepts_iff_pieces.mpr ⟨pieces, d, text, laid, takes, accepted⟩
  have clean := isClean_of_accepts accepts
  exact ⟨clean, (accepts_iff_of_isClean clean t).mp accepts⟩

end SusSyntax
