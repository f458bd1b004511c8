import SusSyntax.Proofs.Parse.Extras
import SusSyntax.Proofs.Parse.Folds
import SusSyntax.Proofs.Parse.Landings

/-!
Names can be anything.

A keyword that has no place is read as a name, but only where no reduction is left to be made before
it. A name that a construct is called by is taken behind reductions that all keywords allow as well
(`Folds.takes_name`), so whatever it is spelled like it is taken in the same way. And all that stands
before and behind it is read as it was (`Piece.Laid.rename`). So such a name may be replaced by any other
one (`renamesFreely_parse`).
-/

namespace SusSyntax

open Grammar Lexical

/-! ### Pieces -/

namespace Lexical

/-- What a glyph stands in that neither opens nor ends a comment is cut there. -/
theorem closes_of_append_cons {a b : Text} {g : Glyph} (ne : g ≠ star ∧ g ≠ slash)
    (h : Closes (a ++ g :: b)) : Closes a ∨ Closes b := by
  induction a with
  | nil => exact .inr ((closes_cons_of_ne ne.1).mp h)
  | cons f a ih =>
    by_cases isStar : f = star
    · subst isStar
      cases a with
      | nil =>
        rcases closes_star_cons.mp h with isSlash | closes
        · exact absurd isSlash ne.2
        · exact .inr ((closes_cons_of_ne ne.1).mp closes)
      | cons f a =>
        rcases closes_star_cons.mp h with isSlash | closes
        · exact .inl (closes_star_cons.mpr (.inl isSlash))
        · exact (ih closes).imp_left fun closes => closes_star_cons.mpr (.inr closes)
    · rw [closes_cons_of_ne isStar]
      exact ih ((closes_cons_of_ne isStar).mp h)

/-- The glyphs of a name. -/
def isNamePart (g : Glyph) : Bool :=
  Guard.identifierContinue.admits g

theorem not_isNamePart : isNamePart star = false ∧ isNamePart slash = false ∧ isNamePart nul = false := by
  decide

/-- A comment that is closed around a name is closed before it or behind it. -/
theorem closes_of_replace_name {a b name : Text} (other : Text) (parts : ∀ g ∈ name, isNamePart g = true)
    (ne : name ≠ []) (h : Closes (a ++ (name ++ b))) : Closes (a ++ (other ++ b)) := by
  have apart {g : Glyph} (part : isNamePart g = true) : g ≠ star ∧ g ≠ slash := by
    constructor <;> rintro rfl <;> revert part <;> decide
  have behind {name : Text} (parts : ∀ g ∈ name, isNamePart g = true) (h : Closes (name ++ b)) :
      Closes b := by
    induction name with
    | nil => exact h
    | cons g name ih =>
      obtain ⟨first, others⟩ := List.forall_mem_cons.mp parts
      exact ih others ((closes_cons_of_ne (apart first).1).mp h)
  obtain ⟨g, others, rfl⟩ := List.exists_cons_of_ne_nil ne
  obtain ⟨first, parts⟩ := List.forall_mem_cons.mp parts
  rcases closes_of_append_cons (apart first) h with before | later
  · exact List.IsInfix.trans before (List.prefix_append ..).isInfix
  · exact closes_append_right (closes_append_right (behind parts later) other) a

theorem Fits.isNamePart {body after : Text} (h : Fits .identifier body after) :
    ∀ g ∈ body, isNamePart g = true := by
  obtain ⟨g, rest, rfl, starts, all, -⟩ := h
  exact List.forall_mem_cons.mpr ⟨identifierContinue_of_start starts, all⟩

/-- The spelling of a name is read as a name or as a keyword, wherever names end. -/
theorem reading_name (s : State) {name other after : Text} (isName : Fits .identifier name [])
    (ends : Fits .identifier other after) : ∃ t k, reading s (name ++ after) = some (t, k, name.extent) ∧
      (t = .identifier ∨ t ∈ Token.keywords ∧ k = true) := by
  obtain ⟨g, rest, rfl, starts, all, -⟩ := isName
  obtain ⟨-, -, -, -, -, stops⟩ := ends
  have isName : Fits .identifier (g :: rest) after := ⟨g, rest, rfl, starts, all, stops⟩
  have reads := reading_of_fits s isName
  refine ⟨_, _, reads, ?_⟩
  cases keyword : keywordOf? s (g :: rest ++ after) (Text.extent (g :: rest)) with
  | none => exact .inl rfl
  | some k =>
    refine .inr ⟨(keywordOf?_spec starts keyword).1, ?_⟩
    obtain ⟨found, ahead, -⟩ := Option.bind_eq_some_iff.mp keyword
    rw [ahead]
    rfl

/-- Any name may begin behind a gap. -/
theorem IsGapBefore.rename {fresh : Bool} {gap rest name after : Text} {g : Glyph}
    (h : IsGapBefore fresh gap rest) (starts : Guard.identifierStart.admits g = true) :
    IsGapBefore fresh gap (g :: name ++ after) := by
  obtain ⟨-, kind⟩ := h
  refine ⟨fun f ahead => ?_, kind.imp_left fun ⟨blank, noMark⟩ => ⟨blank, fun isFresh => ?_⟩⟩
  · obtain rfl := Option.some.inj ahead
    rw [← Bool.not_eq_true]
    intro blank
    exact absurd (MayEnd.not_admits_isBreak (isBreak_of_blank blank)).2.1 (by simp [starts])
  · cases gap with
    | cons b blanks => exact noMark isFresh
    | nil =>
      intro mark
      obtain rfl := Option.some.inj mark
      revert starts
      decide +kernel

namespace Piece

variable {ys zs : List Piece} {z : Piece} {name : Text}

/-- Where a name is read that does not stand behind a number, any other name can be read. -/
theorem Laid.rename (h : Laid true (ys ++ z :: zs)) (isName : Fits .identifier z.body (textOf zs))
    (isName' : Fits .identifier name []) (noNumber : ∀ front y, ys = front ++ [y] → y.token ≠ .number)
    (free : nul ∉ textOf (ys ++ z :: zs)) :
    ∃ t k, Laid true (ys ++ ⟨z.gap, name, t, k, z.state⟩ :: zs) ∧
      (t = .identifier ∨ t ∈ Token.keywords ∧ k = true) := by
  obtain ⟨t, k, reads, known⟩ := reading_name z.state isName' isName
  obtain ⟨isGap, -, -, later⟩ := Laid.append_right h
  have parts := isName'.isNamePart
  obtain ⟨g, others, body, starts, -⟩ := isName
  obtain ⟨g', others', rfl, starts', -⟩ := isName'
  have free' : nul ∉ textOf ys ++ (z.gap ++ (g' :: others' ++ textOf zs)) := by
    intro mem
    simp only [textOf_append, textOf_cons, List.mem_append] at mem free
    rcases mem with mem | mem | mem | mem
    · exact free (.inl mem)
    · exact free (.inr (.inl mem))
    · exact absurd ((parts nul mem).symm.trans not_isNamePart.2.2) (by decide)
    · exact free (.inr (.inr (.inr mem)))
  refine ⟨t, k, h.replace_of_seam (List.cons_ne_nil _ _)
    ⟨isGap.rename starts', reads, fun _ => List.cons_ne_nil _ _, later⟩ (by simpa using free') ?_ ?_, known⟩
  · intro front y back rest split some isSlash same rest' same' closes
    subst split
    have laid : Laid _ (y :: (back ++ z :: zs)) :=
      Laid.append_right (show Laid true (front ++ y :: (back ++ z :: zs)) by simpa using h)
    have stands := laid.stands
    rw [same] at stands
    refine stands.not_closes isSlash (fun mem => free ?_) ?_
    · have inside : nul ∈ textOf (back ++ z :: zs) := by
        rw [same]
        exact List.mem_cons_of_mem _ mem
      simpa using .inr (.inr (.inr (by simpa using inside)))
    · obtain ⟨x, others, rfl⟩ := List.exists_cons_of_ne_nil some
      obtain ⟨f, tail, text⟩ := List.exists_cons_of_ne_nil
        (textOf_ne_nil (laid.2.2.2.2.2.1 (by simp)) others)
      rw [textOf_append, text, textOf_cons, List.cons_append] at same same'
      obtain ⟨-, rfl⟩ := List.cons.inj same
      obtain ⟨-, rfl⟩ := List.cons.inj same'
      rw [← List.append_assoc] at closes ⊢
      exact closes_of_replace_name z.body parts (List.cons_ne_nil _ _) closes
  · intro front y split m mayEnd ends
    subst split
    rw [textOf_cons] at ends ⊢
    cases gap : z.gap with
    | nil =>
      rw [gap, body] at ends
      exact mayEnd.ends_of_name (noNumber front y rfl) ends starts starts' _
    | cons b blanks =>
      have notFresh : (true && (front ++ [y]).isEmpty) = false := by cases front <;> rfl
      rw [gap, notFresh] at isGap
      rw [gap] at ends free'
      have blank := isGap.isBlank
      refine mayEnd.ends_of_same_head ends (fun mem => free' ?_) fun _ isStar => ?_
      · rw [List.mem_append, List.cons_append]
        exact .inr (List.mem_cons_of_mem b mem)
      · subst isStar
        cases blank star List.mem_cons_self

end Piece

end Lexical

/-! ### The machine before a name -/

namespace Plain

variable {frames left mid more : List Frame} {u k : Token} {n : State} {x : Lexeme} {rule : Rule}
  {size layout : Nat} {trees : List Tree} {target : State}

/-- The children of a node on the stack lead from the state below it to the one that reduces them. -/
theorem through_of_pop (grounded : Grounded frames) (popped : pop size frames = some (trees, left)) :
    (∀ t, .token t ∈ (Tree.insiders trees).map Tree.symbol → t.isComment = false) ∧
      (topState left).through ((Tree.insiders trees).map Tree.symbol) = topState frames ∧
      ((Tree.insiders trees).map Tree.symbol).length = size := by
  obtain ⟨taken, rfl, rfl, count, -⟩ := pop_spec popped
  obtain ⟨founded, leads⟩ := grounded.spec
  exact ⟨founded.noComment, by rw [← Tree.follow_eq_through, leads],
    by rw [List.length_map, length_insiders, count]⟩

/-- Reductions before a keyword that an identifier may come behind are made before an identifier too. -/
theorem Folds.of_keyword (h : Folds k frames more) (keyword : k ∈ Token.keywords)
    (grounded : Grounded frames) (some : ((topState more).row.entry .identifier).actions ≠ []) :
    Folds .identifier frames more := by
  induction h with
  | done => exact .done
  | step admits popped goto _ ih =>
    have later := ih (grounded_putNode grounded popped admits goto) some
    obtain ⟨inside, way, rfl⟩ := through_of_pop grounded popped
    have next := later.goesOn some
    rw [topState_putNode] at next
    exact .step (State.mem_identifier_of_keyword keyword inside way admits goto next) popped goto later

/-- What the machine does with a token up to taking it: it makes reductions, and it may take a keyword
for a name before some of them. -/
theorem Takes.exists_folds (h : Takes ⟨frames, some x⟩ [] ⟨more, none⟩) (leaf : x.leaf = .read u)
    (noComment : u.isComment = false) : ∃ below n,
      Folds u frames below ∧ .shift n ∈ ((topState below).row.entry u).actions ∧
          more = ⟨x.toTree.withExtra false, n⟩ :: below ∨
        x.isKeyword = true ∧ u ≠ .identifier ∧
          (∃ mid, Folds u frames mid ∧ Folds .identifier mid below) ∧
          .shift n ∈ ((topState below).row.entry .identifier).actions ∧
          more = ⟨x.asIdentifier.toTree.withExtra false, n⟩ :: below := by
  generalize start : (⟨frames, some x⟩ : Config) = c at h
  generalize stop : (⟨more, none⟩ : Config) = d at h
  generalize none : ([] : List Lexeme) = xs at h
  induction h generalizing frames x u with
  | done =>
    subst start
    cases stop
  | read => cases start
  | @work c c' d xs works takes ih =>
    subst start
    have ends {frames' : List Frame} (isNext : c' = ⟨frames', Option.none⟩) : more = frames' := by
      subst isNext none stop
      exact (Config.mk.inj takes.eq_of_none).1
    rcases works.cases_of_leaf leaf with ⟨keyword, notName, -, -, rfl⟩ | ⟨target, admits, next⟩ |
      ⟨admits, -⟩ | ⟨rule, size, layout, trees, left, target, admits, popped, goto, rfl⟩
    · obtain ⟨below, n, ⟨folds, shift, same⟩ | ⟨-, ne, -⟩⟩ := ih rfl (by decide) rfl stop none
      · exact ⟨below, n, .inr ⟨keyword, notName, ⟨_, .done, folds⟩, shift, same⟩⟩
      · exact absurd rfl ne
    · exact ⟨frames, target, .inl ⟨.done, admits, ends next⟩⟩
    · rw [State.isComment_of_shiftExtra admits] at noComment
      cases noComment
    · obtain ⟨below, n, ⟨folds, shift, same⟩ | ⟨keyword, ne, ⟨mid, first, folds⟩, shift, same⟩⟩ :=
        ih leaf noComment rfl stop none
      · exact ⟨below, n, .inl ⟨.step admits popped goto folds, shift, same⟩⟩
      · exact ⟨below, n, .inr ⟨keyword, ne, ⟨mid, .step admits popped goto first, folds⟩, shift, same⟩⟩

/-- Where a leaf was shifted as a name, the machine made reductions before a name. -/
theorem Takes.folds_identifier {leaf : Tree} (h : Takes ⟨frames, some x⟩ [] ⟨⟨leaf, n⟩ :: more, none⟩)
    (isLeaf : x.leaf = .read u) (noComment : u.isComment = false) (grounded : Grounded frames)
    (known : x.isKeyword = true → u ≠ .identifier → u ∈ Token.keywords)
    (isName : leaf.symbol = .token .identifier) :
    Folds .identifier frames more ∧ .shift n ∈ ((topState more).row.entry .identifier).actions ∧
      leaf = x.asIdentifier.toTree.withExtra false := by
  obtain ⟨below, m, ⟨folds, shift, same⟩ | ⟨keyword, ne, ⟨mid, first, later⟩, shift, same⟩⟩ :=
    h.exists_folds isLeaf noComment
  · obtain ⟨top, rfl⟩ := List.cons.inj same
    obtain ⟨rfl, rfl⟩ := Frame.mk.inj top
    obtain rfl : u = .identifier := by
      rw [Tree.symbol_withExtra, show x.toTree.symbol = .token u from congrArg Leaf.symbol isLeaf] at isName
      exact Symbol.token.inj isName
    exact ⟨folds, shift, by rw [Lexeme.asIdentifier, ← isLeaf]⟩
  · obtain ⟨top, rfl⟩ := List.cons.inj same
    obtain ⟨rfl, rfl⟩ := Frame.mk.inj top
    have some := later.goesOn (List.ne_nil_of_mem shift)
    exact ⟨(first.of_keyword (known keyword ne) grounded some).trans later, shift, rfl⟩

/-- Where a name is taken that is none in a path, a keyword is taken for one. -/
theorem Folds.takes_keyword (h : Folds .identifier frames more)
    (shift : .shift n ∈ ((topState more).row.entry .identifier).actions) (name : n ∉ State.pathStates)
    (leaf : x.leaf = .read k) (keyword : k ∈ Token.keywords) (isKeyword : x.isKeyword = true) :
    Takes ⟨frames, some x⟩ [] ⟨⟨x.asIdentifier.toTree.withExtra false, n⟩ :: more, none⟩ := by
  have notName : k ≠ .identifier := by
    rintro rfl
    revert keyword
    decide
  -- Where a keyword has no place it is taken for a name, and all that is to be done is done with this.
  have renamed {frames : List Frame} (folds : Folds .identifier frames more)
      (shift : .shift n ∈ ((topState more).row.entry .identifier).actions)
      (empty : ((topState frames).row.entry k).actions = []) :
      Takes ⟨frames, some x⟩ [] ⟨⟨x.asIdentifier.toTree.withExtra false, n⟩ :: more, none⟩ :=
    .work (works_rename leaf isKeyword notName empty (folds.goesOn (List.ne_nil_of_mem shift)))
      (folds.takes rfl shift)
  induction h with
  | done => exact renamed .done shift (State.keyword_of_name keyword shift name)
  | @step frames left more rule size layout trees target admits popped goto later ih =>
    rcases State.keyword_of_identifier keyword admits with none | known | rfl
    · exact renamed (.step admits popped goto later) shift none
    · exact .work (works_reduce leaf known popped goto) (ih shift renamed)
    · -- Behind the modifiers of a write there is only a path of names.
      have only := State.identifier_of_writeModifiers goto
      exfalso
      cases later with
      | done =>
        rw [topState_putNode, only] at shift
        obtain rfl := Action.shift.inj (List.mem_singleton.mp shift)
        exact name (by decide)
      | step admits =>
        rw [topState_putNode, only] at admits
        cases List.mem_singleton.mp admits

/-- A name that is none in a path is taken whatever it is spelled like. -/
theorem Folds.takes_name (h : Folds .identifier frames more)
    (shift : .shift n ∈ ((topState more).row.entry .identifier).actions) (name : n ∉ State.pathStates)
    (leaf : x.leaf = .read u) (known : u = .identifier ∨ u ∈ Token.keywords ∧ x.isKeyword = true) :
    Takes ⟨frames, some x⟩ [] ⟨⟨x.asIdentifier.toTree.withExtra false, n⟩ :: more, none⟩ := by
  rcases known with rfl | ⟨keyword, isKeyword⟩
  · have same : x.asIdentifier = x := by rw [Lexeme.asIdentifier, ← leaf]
    rw [same]
    exact h.takes leaf shift
  · exact h.takes_keyword shift name leaf keyword isKeyword

end Plain

/-! ### Leaves in the field of a name -/

namespace Tree

/-- All leaves of a tree without errors that were shifted inside a path of names are shown in nodes made
of paths. -/
theorem IsWhole.showsPaths {text : Text} {t : Tree} (whole : t.IsWhole text) (clean : t.isClean = true)
    (founded : FoundedOf startState t.children) : ShowsPaths (t.tips none) (t.landings startState) := by
  have grown := whole.grown
  rcases whole.root with ⟨layout, children, rfl⟩ | ⟨children, rfl⟩
  · obtain ⟨-, ⟨-, s, u, reduces⟩, grown⟩ := grown
    refine showsPathsOf _ founded fun front c back split inside => ?_
    subst split
    refine ⟨fun _ => ⟨.sourceFile, by decide, rfl⟩, fun isItems => ?_⟩
    rcases (path_of_child grown.noComment inside reduces).2 isItems with same | same <;> cases same
  · cases whole.isProper clean

end Tree

namespace Plain

variable {pieces ys zs : List Piece} {z : Piece} {t : Tree} {xs : List Lexeme} {ts : List Tree}

theorem AreLeaves.length_eq (h : AreLeaves xs ts) : ts.length = xs.length := by
  induction h with
  | nil => rfl
  | cons _ _ ih => rw [List.length_cons, List.length_cons, ih]

theorem Takes.length_landed {frames : List Frame} (h : Takes .initial xs ⟨frames, none⟩) :
    (landed frames).length = xs.length := by
  have bears : Config.Bears ([] ++ xs) ⟨frames, none⟩ := h.bears (.free .nil)
  rw [List.nil_append] at bears
  cases bears with
  | free leaves => rw [← List.length_map (f := Tree.Landing.leaf), map_landed, leaves.length_eq]

/-- A piece is taken for a name that is none in a path: behind reductions before a name it leads to the
state `target`, and then all that follows is taken. -/
structure TakesName (ys : List Piece) (z : Piece) (zs : List Piece) (t : Tree)
    (frames below : List Frame) (target : State) : Prop where
  before : Takes .initial (ys.map Piece.lexeme) ⟨frames, none⟩
  state : z.state = topState frames
  folds : Folds .identifier frames below
  shift : .shift target ∈ ((topState below).row.entry .identifier).actions
  name : target ∉ State.pathStates
  settled : Settled below
  after : ∃ d, Takes ⟨⟨z.lexeme.asIdentifier.toTree.withExtra false, target⟩ :: below, none⟩
    (zs.map Piece.lexeme) d ∧ d.accepted? = some t

/-- What is taken for a name is spelled like one. -/
theorem fits_identifier {after : Text} (h : z.Stands after)
    (known : z.token = .identifier ∨ z.isKeyword = true) : Fits .identifier z.body after := by
  rcases h.kind with ⟨isEnd, -, -, none⟩ | ⟨-, -, u, fits, ⟨rfl, isName⟩ | ⟨rfl, -⟩⟩
  · simp [isEnd, none] at known
  · rwa [known.elim id isName] at fits
  · exact fits

/-- Behind a number there is no name. -/
theorem TakesName.not_number {frames below : List Frame} {target : State} {front : List Piece}
    {y : Piece} (h : TakesName (front ++ [y]) z zs t frames below target) {after : Text}
    (stands : y.Stands after) : y.token ≠ .number := by
  intro isNumber
  have before := h.before
  rw [List.map_append, List.map_singleton] at before
  obtain ⟨frames', -, -, takes⟩ := before.split
  have goesOn := h.folds.goesOn (List.ne_nil_of_mem h.shift)
  obtain ⟨below', n, ⟨-, shift, rfl⟩ | ⟨keyword, -⟩⟩ := takes.exists_folds rfl (by rw [isNumber]; rfl)
  · rw [isNumber] at shift
    exact goesOn (State.identifier_of_number shift)
  · obtain ⟨-, same | ⟨isKeyword, -⟩⟩ := stands.mayBe_identifier keyword
    · cases same.trans isNumber
    · rw [isNumber] at isKeyword
      revert isKeyword
      decide

namespace Parses

/-- The leaf that an identifier is shown by, in a node that is not made of paths of names, was taken for a
name. -/
theorem takesName_of_leaf (h : Parses (ys ++ z :: zs) t) (whole : t.IsWhole text)
    (clean : t.isClean = true) {front back : List Tree.Tip} {tip : Tree.Tip}
    (split : t.tips none = front ++ tip :: back) (place : front.length = ys.length)
    (isName : tip.tree.symbol = .token .identifier)
    (noPath : ∀ r ∈ Tree.pathParents, tip.parent? ≠ some (.rule r))
    (known : z.token = .identifier ∨ z.isKeyword = true) (notEnd : z.token ≠ .eof) :
    ∃ frames below target, TakesName ys z zs t frames below target := by
  have stands := h.stands
  obtain ⟨d, takes, accepted⟩ := h.takes
  cases zs with
  | nil =>
    obtain ⟨others, last, same, isEnd, -⟩ := h.exists_end
    obtain ⟨-, same⟩ := List.append_inj' same rfl
    exact absurd ((List.cons.inj same).1 ▸ isEnd) notEnd
  | cons w zs =>
    have landings := takes.landings_eq accepted
    have showsPaths := whole.showsPaths clean (takes.foundedOf accepted)
    rw [List.map_append, List.map_cons, List.map_cons] at takes
    obtain ⟨frames, before, state, takes⟩ := takes.split
    obtain ⟨frames', taken, next, takes⟩ := @Takes.split _ _ _ [] _ takes
    have upTo := before.trans (.read state taken)
    have grounded' : Grounded frames' := upTo.grounded trivial
    have keyword : z.isKeyword = true → z.token ≠ .identifier → z.token ∈ Token.keywords := by
      intro isKeyword ne
      obtain ⟨-, same | ⟨known, -⟩⟩ := stands.mayBe_identifier isKeyword
      · exact absurd same.symm ne
      · exact known
    have noComment : z.token.isComment = false := by
      have inside : ∀ k ∈ Token.keywords, k.isComment = false := by decide
      by_cases isName : z.token = .identifier
      · rw [isName]
        rfl
      · exact inside _ (keyword (known.resolve_left isName) isName)
    obtain ⟨below, target, taken'⟩ := taken.exists_folds rfl noComment
    obtain ⟨y, rfl⟩ : ∃ y : Lexeme, frames' = ⟨y.toTree.withExtra false, target⟩ :: below := by
      rcases taken' with ⟨-, -, same⟩ | ⟨-, -, -, -, same⟩ <;> exact ⟨_, same⟩
    -- The leaf stands in the tree where it does on the stack.
    have landed := landed_shift grounded'
    obtain ⟨more, later⟩ := takes.landed_eq grounded'
    obtain ⟨more', all⟩ := landings
    rw [later, landed, List.append_assoc, List.append_assoc, List.singleton_append] at all
    have length : front.length = (Plain.landed below).length := by
      have count := upTo.length_landed
      rw [landed, List.length_append, List.length_append, List.length_map] at count
      exact place.trans (Nat.add_right_cancel count).symm
    obtain ⟨same, path⟩ := showsPaths.of_split split all length
    rw [same] at isName
    obtain ⟨folds, shift, isLeaf⟩ :=
      taken.folds_identifier rfl noComment (before.grounded trivial) keyword isName
    rw [isLeaf] at takes
    refine ⟨frames, below, target, before, state, folds, shift, fun mem => ?_, (upTo.settled trivial).2,
      d, .read next takes, accepted⟩
    obtain ⟨r, isPath, shownIn⟩ := path target rfl mem
    exact noPath r isPath shownIn

/-- An identifier that is shown in a node that is not made of paths of names is taken for a name. -/
theorem exists_takesName (h : Parses pieces t) (whole : t.IsWhole (Piece.textOf pieces))
    (clean : t.isClean = true) {x : Node.Placed} (mem : x ∈ t.root.all)
    (kind : x.node.kind = .token .identifier) {r : Rule} (parent : x.parent? = some (.rule r))
    (noPath : r ∉ Tree.pathParents) : ∃ ys z zs frames below target, pieces = ys ++ z :: zs ∧
      x.node.start = (Piece.textOf ys ++ z.gap).extent ∧
      x.node.stop = (Piece.textOf (ys ++ [z])).extent ∧
      (z.token = .identifier ∨ z.isKeyword = true) ∧ TakesName ys z zs t frames below target := by
  obtain ⟨front, first, mid, back, split, start, stop, token⟩ :=
    (h.isFull whole clean).isOver_of_mem_walk none .zero 0 none whole.isVisible x mem
  obtain ⟨rfl, shownIn, isName⟩ := token _ kind
  have leaves := h.areLeaves
  rw [Tree.leafTrees, split, List.map_append] at leaves
  obtain ⟨upper, zs, rfl, upTo, -⟩ := leaves.split_pieces
  rw [List.map_append] at upTo
  obtain ⟨ys, us, rfl, before, here⟩ := upTo.split_pieces
  cases us with
  | nil => cases here
  | cons z us =>
    obtain rfl : us = [] := by
      cases us with
      | nil => rfl
      | cons =>
        cases here with
        | cons _ none => cases none
    cases here with
    | cons isFirst none =>
      rw [List.append_assoc, List.singleton_append] at h
      have known := (isFirst.symbol_eq isName).imp Eq.symm And.left
      have notEnd : z.token ≠ .eof := by
        rintro isEnd
        rcases h.stands.kind with ⟨-, -, -, noKeyword⟩ | ⟨ne, -⟩
        · simp [isEnd, noKeyword] at known
        · exact ne isEnd
      obtain ⟨frames, below, target, takesName⟩ := 
        h.takesName_of_leaf whole clean (by simpa using split) (by simpa using before.length_eq) isName
          (fun r' isPath same => noPath (by simp_all)) known notEnd
      refine ⟨ys, z, zs, frames, below, target, by simp, ?_, ?_, known, takesName⟩
      · rw [start, Tree.extentOfTips, before.extentOf_eq, isFirst.measures.1, Extent.zero_add,
          Text.extent_append]
        rfl
      · have reached : AreLeaves ((ys ++ [z]).map Piece.lexeme)
            (front.map Tree.Tip.tree ++ [first.tree]) := by
          rw [List.map_append]
          exact before.append (.cons isFirst .nil)
        rw [stop, Extent.zero_add, Tree.extentOfTips, List.map_append, List.map_singleton,
          reached.extentOf_eq]

/-- Where a piece is taken for a name that is none in a path, any other name is taken in the same way. -/
theorem rename {name : Text} (h : Parses (ys ++ z :: zs) t) {frames below : List Frame} {target : State}
    (takesName : TakesName ys z zs t frames below target)
    (known : z.token = .identifier ∨ z.isKeyword = true) (isName : Fits .identifier name [])
    (free : nul ∉ Piece.textOf (ys ++ z :: zs)) :
    ∃ z' t', z'.gap = z.gap ∧ z'.body = name ∧ Parses (ys ++ z' :: zs) t' ∧
      t.skeleton false = t'.skeleton false := by
  have noNumber : ∀ front y, ys = front ++ [y] → y.token ≠ .number := by
    rintro front y rfl
    rw [List.append_assoc, List.singleton_append] at h
    exact takesName.not_number h.stands
  obtain ⟨u, k, laid, spelled⟩ :=
    h.laid.rename (fits_identifier h.stands known) isName noNumber free
  obtain ⟨before, state, folds, shift, name', settled, d, after, accepted⟩ := takesName
  let z' : Piece := ⟨z.gap, name, u, k, z.state⟩
  have taken : Takes ⟨frames, some z'.lexeme⟩ []
      ⟨⟨z'.lexeme.asIdentifier.toTree.withExtra false, target⟩ :: below, none⟩ :=
    folds.takes_name shift name' rfl spelled
  have settled' (x : Lexeme) : Settled (⟨x.toTree.withExtra false, target⟩ :: below) := ⟨nofun, settled⟩
  have start : Config.skeleton false
        ⟨⟨z.lexeme.asIdentifier.toTree.withExtra false, target⟩ :: below, none⟩ =
      Config.skeleton false
        ⟨⟨z'.lexeme.asIdentifier.toTree.withExtra false, target⟩ :: below, none⟩ := rfl
  obtain ⟨d', after', sameEnd, settledEnd, settledEnd'⟩ :=
    after.replay (settled' _) (settled' _) start (rfl : (zs.map Piece.lexeme).map _ = _)
  obtain ⟨t', accepted', sameTree⟩ := accepted?_replay settledEnd settledEnd' sameEnd accepted
  refine ⟨z', t', rfl, rfl, ⟨laid, d', ?_, accepted'⟩, sameTree⟩
  rw [List.map_append, List.map_cons]
  exact before.trans (.read state (taken.trans after'))

end Parses

end Plain

/-! ### Names in a source -/

/-- Bytes that spell a name: they are read as characters that begin and go on a name. -/
def IsName (name : List UInt8) : Prop :=
  Fits .identifier (Text.decode name) []

/-- The nodes that show what a construct is called by, in their field for the name. -/
def namedRules : List Rule :=
  [.globalObject, .declaration, .fieldAccess, .interfaceStatement, .domainStatement, .templateArg]

/-- A source in which what stands between two offsets is replaced. -/
def replaceAt (source : List UInt8) (start stop : Nat) (new : List UInt8) : List UInt8 :=
  source.take start ++ new ++ source.drop stop

/-- A name is read as itself in place of something else. -/
theorem Text.decode_replaceAt {source name : List UInt8} {u m v : Text} (isName : IsName name)
    (h : decode source = u ++ m ++ v) :
    decode (replaceAt source u.extent.bytes (u ++ m).extent.bytes name) = u ++ (decode name ++ v) := by
  have chars : ∀ g ∈ decode name, ∃ code, g = .char code := by
    intro g mem
    cases g with
    | char code => exact ⟨code, rfl⟩
    | malformed => cases isName.isNamePart _ mem
  have whole : decode name = decode name ++ [] := (List.append_nil _).symm
  have known : decode ((decode name).bytes ++ v.bytes) = decode name ++ decode v.bytes :=
    decode_append whole (.inr chars)
  rw [bytes_decode, decode_bytes_of_append h] at known
  have front := (take_drop_of_decode (h.trans (List.append_assoc ..))).1
  rw [replaceAt, front, (take_drop_of_decode h).2, List.append_assoc,
    decode_append (h.trans (List.append_assoc ..)) (.inl fun b ahead => ?_), known]
  obtain ⟨g, others, decoded, -⟩ := isName
  obtain ⟨rest, bytes, -, ⟨code, -, isCode⟩ | ⟨a, rfl, -⟩⟩ := decode_eq_cons decoded
  · obtain ⟨a, tail, spelled, starts, -⟩ := isCode.parts
    rw [bytes, spelled] at ahead
    obtain rfl := Option.some.inj ahead
    exact starts
  · obtain ⟨code, same⟩ := chars (.malformed a) (by rw [decoded]; exact List.mem_cons_self)
    cases same

/-- Names can be anything. In a source without errors an identifier in the field for the name of a node may
be replaced by any other one, also by one that is spelled like a keyword: there are no errors then, and
the tree looks the same. -/
theorem renamesFreely_parse (source : List UInt8) (clean : (parse source).syntaxErrors = []) :
    ∀ x ∈ (parse source).root.all, x.node.kind = .token .identifier → x.node.field = some .name →
      (∃ r ∈ namedRules, x.parent? = some (.rule r)) → ∀ name, IsName name →
        (parse (replaceAt source x.node.start.bytes x.node.stop.bytes name)).syntaxErrors = [] ∧
          (parse (replaceAt source x.node.start.bytes x.node.stop.bytes name)).root.outline =
            (parse source).root.outline := by
  rintro x mem kind - ⟨r, named, parent⟩ name isName
  have whole := isWhole_parse source
  have isClean := whole.isClean_iff_syntaxErrors.mpr clean
  have apart : ∀ r ∈ namedRules, r ∉ Tree.pathParents := by decide
  obtain ⟨pieces, text, parses⟩ := exists_parses isClean
  obtain ⟨ys, z, zs, frames, below, target, rfl, start, stop, known, takesName⟩ :=
    parses.exists_takesName (text ▸ whole) isClean mem kind parent (apart r named)
  obtain ⟨z', t', gap, body, parses', same⟩ :=
    parses.rename takesName known isName (text ▸ whole.nul_not_mem clean)
  have split : Text.decode source = Piece.textOf ys ++ z.gap ++ z.body ++ Piece.textOf zs := by
    simp [← text]
  have decoded := Text.decode_replaceAt isName split
  rw [start, stop]
  have place : Piece.textOf (ys ++ [z]) = Piece.textOf ys ++ z.gap ++ z.body := by simp
  rw [place]
  obtain ⟨clean', found⟩ := parses'.parse_eq (by rw [decoded]; simp [gap, body])
  have whole' := isWhole_parse (replaceAt source (Piece.textOf ys ++ z.gap).extent.bytes
    (Piece.textOf ys ++ z.gap ++ z.body).extent.bytes name)
  exact ⟨whole'.isClean_iff_syntaxErrors.mp clean',
    (whole.outline_eq whole' isClean clean' (same.trans (congrArg _ found.symm))).symm⟩

/-- A declaration of `in` behind a type, where `in` could go on with something else, and a field `module`. -/
theorem renamesFreely_parse_keywords :
    (parse "module m{
int a = b.c
}".toUTF8.data.toList).syntaxErrors = [] ∧
      (parse "module m{
int in = b.c
}".toUTF8.data.toList).syntaxErrors = [] ∧
      (parse "module m{
int a = b.module
}".toUTF8.data.toList).syntaxErrors = [] := by
  have clean : (parse "module m{
int a = b.c
}".toUTF8.data.toList).syntaxErrors = [] := by
    decide +kernel
  have declared : ∃ x ∈ (parse "module m{
int a = b.c
}".toUTF8.data.toList).root.all, x.node.kind = .token .identifier ∧ x.node.field = some .name ∧
      x.parent? = some (.rule .declaration) ∧ x.node.start.bytes = 14 ∧ x.node.stop.bytes = 15 := by
    decide +kernel
  have accessed : ∃ x ∈ (parse "module m{
int a = b.c
}".toUTF8.data.toList).root.all, x.node.kind = .token .identifier ∧ x.node.field = some .name ∧
      x.parent? = some (.rule .fieldAccess) ∧ x.node.start.bytes = 20 ∧ x.node.stop.bytes = 21 := by
    decide +kernel
  have isIn : IsName "in".toUTF8.data.toList :=
    ⟨_, _, rfl, by decide, by decide, nofun⟩
  have isModule : IsName "module".toUTF8.data.toList :=
    ⟨_, _, rfl, by decide, by decide, nofun⟩
  obtain ⟨x, mem, kind, field, parent, start, stop⟩ := declared
  obtain ⟨y, mem', kind', field', parent', start', stop'⟩ := accessed
  have first := (renamesFreely_parse _ clean x mem kind field ⟨_, by decide, parent⟩ _ isIn).1
  have second := (renamesFreely_parse _ clean y mem' kind' field' ⟨_, by decide, parent'⟩ _ isModule).1
  rw [start, stop] at first
  rw [start', stop'] at second
  exact ⟨clean, first, second⟩

end SusSyntax
