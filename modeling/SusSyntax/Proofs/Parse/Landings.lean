import SusSyntax.Proofs.Grammar.Names
import SusSyntax.Proofs.Tree.Phrases

/-!
Where the leaves of a tree were put on the stack.

The state that a leaf was shifted to can be found again wherever the leaf ends up, as the one that
leads on from what stands before it (`Tree.landings`). Reductions keep these states
(`Works.landed_eq`), so those of an accepted tree are the ones that were on the stack
(`Takes.landings_eq`). And where a leaf was shifted to a state inside a path of names, it is shown in a
node that is made of such paths (`Tree.showsPaths`).
-/

namespace SusSyntax

open Grammar Lexical Plain

namespace Tree

/-- A leaf with the state that it leads to, unless it is an extra. -/
structure Landing where
  leaf : Tree
  state? : Option State

mutual

/-- The leaves of a tree that is built from the state `s` on. -/
def landings (s : State) : Tree → List Landing
  | .leaf content padding size extra =>
    [⟨.leaf content padding size extra, if extra then none else some (s.next content.symbol)⟩]
  | .node _ _ _ children => landingsOf s children

/-- The leaves of trees that are built one behind the other from the state `s` on. -/
def landingsOf (s : State) : List Tree → List Landing
  | [] => []
  | t :: rest => t.landings s ++ landingsOf (stateBehind s t) rest

end

variable {s : State} {t : Tree} {ts us : List Tree}

@[simp] theorem landingsOf_append (s : State) (ts us : List Tree) :
    landingsOf s (ts ++ us) = landingsOf s ts ++ landingsOf (follow s ts) us := by
  induction ts generalizing s with
  | nil => rfl
  | cons t ts ih => rw [List.cons_append, landingsOf, ih, landingsOf, follow_cons, List.append_assoc]

mutual

theorem map_landings (s : State) : ∀ t : Tree, (t.landings s).map Landing.leaf = t.leafTrees
  | .leaf .. => rfl
  | .node _ _ _ children => by rw [landings, map_landingsOf s children, leafTrees_node]

theorem map_landingsOf (s : State) :
    ∀ ts : List Tree, (landingsOf s ts).map Landing.leaf = ts.flatMap leafTrees
  | [] => rfl
  | t :: ts => by
    rw [landingsOf, List.map_append, map_landings s t, map_landingsOf _ ts, List.flatMap_cons]

end

/-- Extras lead nowhere, whatever state they stand behind. -/
theorem landingsOf_of_extras (extras : ∀ t ∈ ts, t.isExtra = true)
    (founded : ∀ t ∈ ts, ∃ s, t.Founded s) (s : State) :
    landingsOf s ts = ts.map fun t => ⟨t, none⟩ := by
  induction ts generalizing s with
  | nil => rfl
  | cons t ts ih =>
    obtain ⟨extra, others⟩ := List.forall_mem_cons.mp extras
    obtain ⟨⟨q, first⟩, rest⟩ := List.forall_mem_cons.mp founded
    obtain ⟨_, _, _, rfl⟩ := first.exists_leaf extra
    rw [landingsOf, ih others rest, landings]
    rfl

/-- The root over trees has their leaves, with the states behind them. -/
theorem landings_rootOf? (founded : FoundedOf s ts) (root : Parse.rootOf? ts = some t) :
    t.landings s = landingsOf s ts := by
  rcases exists_trailing ts with all | ⟨front, u, extras, rfl, inside, all⟩
  · rw [rootOf?_of_extras all] at root
    cases root
  · rw [foundedOf_append] at founded
    have behind := founded.2.exists_founded
    rw [rootOf?_append front inside all] at root
    cases u with
    | leaf => cases root
    | node label extra measure children =>
      obtain rfl := Option.some.inj root
      rw [ofChildren, landings]
      simp only [landingsOf_append, landingsOf_of_extras all behind, landingsOf, landings,
        List.append_nil]

end Tree

namespace Plain

variable {c d : Config} {frames taken left : List Frame} {xs : List Lexeme} {t : Tree}

/-! ### Leaves on the stack -/

/-- The leaves of the trees on a stack, with the states behind them. -/
def landed (frames : List Frame) : List Tree.Landing :=
  Tree.landingsOf startState (frames.map Frame.tree).reverse

theorem map_landed (frames : List Frame) : (landed frames).map Tree.Landing.leaf = leavesOf frames :=
  Tree.map_landingsOf ..

theorem Grounded.follow_eq (h : Grounded frames) :
    Tree.follow startState (frames.map Frame.tree).reverse = topState frames := by
  rw [← List.append_nil frames] at h
  have leads := h.spec.2
  rwa [List.append_nil] at leads

theorem landed_append (grounded : Grounded left) (taken : List Frame) :
    landed (taken ++ left) =
      landed left ++ Tree.landingsOf (topState left) (taken.map Frame.tree).reverse := by
  rw [landed, List.map_append, List.reverse_append, Tree.landingsOf_append, grounded.follow_eq]
  rfl

theorem landed_shift {x : Lexeme} {target : State}
    (grounded : Grounded (⟨x.toTree.withExtra false, target⟩ :: frames)) :
    landed (⟨x.toTree.withExtra false, target⟩ :: frames) =
      landed frames ++ [⟨x.toTree.withExtra false, some target⟩] := by
  obtain ⟨-, state, grounded⟩ := grounded
  exact (landed_append grounded [_]).trans (by rw [show target = _ from state]; rfl)

/-- A reduction keeps the leaves and where they lead. -/
theorem landed_putNode {rule : Rule} {size layout : Nat} {trees : List Tree} {target : State}
    (grounded : Grounded frames) (popped : pop size frames = some (trees, left)) :
    landed (putNode rule layout trees target left) = landed frames := by
  obtain ⟨taken, rfl, rfl, -⟩ := pop_spec popped
  have founded := grounded.spec.1
  rw [← Tree.append_splitTrailingExtras (taken.map Frame.tree).reverse, Tree.foundedOf_append]
    at founded
  have extras := Tree.landingsOf_of_extras (fun t => Tree.isExtra_of_mem_trailing)
    founded.2.exists_founded
  have whole := landed_append grounded.of_append taken
  rw [← Tree.append_splitTrailingExtras (taken.map Frame.tree).reverse, Tree.landingsOf_append,
    extras] at whole
  rw [whole, putNode_eq, landed, trees_pushTrees, Tree.landingsOf_append, Tree.landingsOf, extras,
    grounded.of_append.follow_eq]
  rfl

theorem Works.landed_eq (h : Works c d) (grounded : Grounded c.frames) :
    ∃ more, landed d.frames = landed c.frames ++ more := by
  cases h with
  | rename => exact ⟨[], (List.append_nil _).symm⟩
  | @act frames x a _ _ _ applies =>
    cases apply_eq_some_iff.mp applies with
    | shift | shiftExtra => exact ⟨_, landed_append grounded [_]⟩
    | reduce popped => exact ⟨[], by rw [List.append_nil]; exact landed_putNode grounded popped⟩

theorem Takes.landed_eq (h : Takes c xs d) (grounded : Grounded c.frames) :
    ∃ more, landed d.frames = landed c.frames ++ more := by
  induction h with
  | done => exact ⟨[], (List.append_nil _).symm⟩
  | work works _ ih =>
    obtain ⟨more, first⟩ := works.landed_eq grounded
    obtain ⟨more', later⟩ := ih (works.grounded grounded)
    exact ⟨more ++ more', by rw [later, first, List.append_assoc]⟩
  | read _ _ ih => exact ih grounded

/-- The leaves of an accepted tree lead to where they did on the stack. -/
theorem Takes.landings_eq (h : Takes .initial xs d) (accepted : d.accepted? = some t) :
    ∃ more, t.landings startState = landed d.frames ++ more := by
  obtain ⟨x, founded, root⟩ := h.exists_trees accepted
  rw [Tree.landings_rootOf? founded root, Tree.landingsOf_append]
  exact ⟨_, rfl⟩

end Plain

namespace Tree

/-! ### Paths of names -/

/-- The rules whose nodes show the identifiers in paths of names; in the root there are none. -/
def pathParents : List Rule :=
  [.namespaceList, .templateDeclarationType, .sourceFile]

/-- What stands in a path of names stands in a node that shows it. -/
def FitsPath (parent? : Option Symbol) (s : State) (t : Tree) : Prop :=
  t.isExtra = false →
    (stateBehind s t ∈ State.pathStates → ∃ r ∈ pathParents, parent? = some (.rule r)) ∧
      (t.symbol = .rule .namespaceListItems → parent? = some (.rule .namespaceList))

/-- All leaves that were shifted to a state inside a path of names are shown in nodes made of paths. -/
def ShowsPaths (tips : List Tip) (landings : List Landing) : Prop :=
  ∀ x ∈ tips.zip landings, ∀ n ∈ x.2.state?, n ∈ State.pathStates →
    ∃ r ∈ pathParents, x.1.parent? = some (.rule r)

variable {s : State} {parent? : Option Symbol} {r : Rule} {layout : Nat} {u : Token}
  {ts front back : List Tree} {c : Tree}

theorem ShowsPaths.append {xs ys : List Tip} {ls ms : List Landing} (same : xs.length = ls.length)
    (h : ShowsPaths xs ls) (h' : ShowsPaths ys ms) : ShowsPaths (xs ++ ys) (ls ++ ms) := by
  intro x mem
  rw [List.zip_append same] at mem
  rcases List.mem_append.mp mem with mem | mem
  · exact h x mem
  · exact h' x mem

/-- What is known of a child by the reduction that it was taken for. -/
theorem path_of_child (noComment : ∀ v, .token v ∈ (insiders (front ++ c :: back)).map symbol →
      v.isComment = false) (inside : c.isExtra = false)
    (reduces : .reduce r (insiders (front ++ c :: back)).length layout ∈
      ((follow s (front ++ c :: back)).row.entry u).actions) :
    (stateBehind (follow s front) c ∈ State.pathStates → r ∈ State.pathRules) ∧
      (c.symbol = .rule .namespaceListItems → r = .namespaceList ∨ r = .namespaceListItems) := by
  have split : (insiders (front ++ c :: back)).map symbol =
      (insiders front).map symbol ++ c.symbol :: (insiders back).map symbol := by
    rw [insiders_append, insiders_cons_of_not_extra inside, List.map_append, List.map_cons]
  rw [follow_eq_through, ← List.length_map symbol] at reduces
  rw [split] at noComment reduces
  rw [stateBehind_of_not_extra _ inside, follow_eq_through]
  exact State.path_of_reduce noComment rfl reduces

mutual

/-- Leaves that were shifted inside a path of names are shown in nodes made of paths. -/
theorem showsPaths (parent? : Option Symbol) :
    ∀ {t : Tree} {s : State}, t.Founded s → FitsPath parent? s t →
      ShowsPaths (t.tips parent?) (t.landings s)
  | .leaf content padding size extra, s, _, fits => by
    intro x mem n lands path
    obtain rfl := List.mem_singleton.mp mem
    cases extra with
    | true => cases lands
    | false =>
      obtain rfl := Option.some.inj lands
      exact (fits rfl).1 path
  | .node (.rule r layout) extra measure children, s, founded, fits => by
    obtain ⟨rfl, -, ⟨r', layout', u, same, reduces⟩, founded⟩ := founded
    obtain ⟨rfl, rfl⟩ := Label.rule.inj same
    rw [tips, landings]
    refine showsPathsOf _ founded fun front c back split inside => ?_
    subst split
    obtain ⟨path, items⟩ := path_of_child founded.noComment inside reduces
    have above := (fits rfl).2
    refine ⟨fun mem => ?_, fun isItems => ?_⟩
    · have known := path mem
      simp only [State.pathRules, List.mem_cons, List.not_mem_nil, or_false] at known
      rcases known with rfl | rfl | rfl
      · exact ⟨.namespaceList, by decide, rfl⟩
      · exact ⟨.namespaceList, by decide, above rfl⟩
      · exact ⟨.templateDeclarationType, by decide, rfl⟩
    · rcases items isItems with rfl | rfl
      · rfl
      · exact above rfl
  | .node .error extra measure children, s, founded, _ => by
    obtain ⟨-, -, ⟨r, layout, u, same, -⟩, -⟩ := founded
    cases same
  | .node .skipped extra measure children, s, founded, _ => by
    obtain ⟨-, -, ⟨r, layout, u, same, -⟩, -⟩ := founded
    cases same

theorem showsPathsOf (parent? : Option Symbol) :
    ∀ {ts : List Tree} {s : State}, FoundedOf s ts →
      (∀ front c back, ts = front ++ c :: back → FitsPath parent? (follow s front) c) →
      ShowsPaths (tipsOf parent? ts) (landingsOf s ts)
  | [], _, _, _ => nofun
  | t :: ts, s, founded, fits => by
    rw [tipsOf_cons, landingsOf]
    refine ShowsPaths.append ?_ (showsPaths parent? founded.1 (fits [] t ts rfl))
      (showsPathsOf parent? founded.2 fun front c back split => fits (t :: front) c back (by rw [split]; rfl))
    rw [← List.length_map Tip.tree, map_tips, ← map_landings s, List.length_map]

end

/-- Tips and leaves with the states behind them stand at the same places. -/
theorem ShowsPaths.of_split {t : Tree} (h : ShowsPaths (t.tips none) (t.landings s))
    {before behind : List Tip} {tip : Tip} {ls ms : List Landing} {l : Landing}
    (tips : t.tips none = before ++ tip :: behind) (landings : t.landings s = ls ++ l :: ms)
    (same : before.length = ls.length) : tip.tree = l.leaf ∧
      ∀ n ∈ l.state?, n ∈ State.pathStates → ∃ r ∈ pathParents, tip.parent? = some (.rule r) := by
  constructor
  · have leaves : (t.tips none).map Tip.tree = (t.landings s).map Landing.leaf :=
      (map_landings s t).symm
    rw [tips, landings, List.map_append, List.map_append] at leaves
    obtain ⟨-, here⟩ := List.append_inj leaves (by simpa using same)
    exact (List.cons.inj here).1
  · refine h (tip, l) ?_
    rw [tips, landings, List.zip_append same]
    exact List.mem_append_right _ List.mem_cons_self

end Tree

end SusSyntax
