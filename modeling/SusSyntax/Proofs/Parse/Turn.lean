import SusSyntax.Proofs.Parse.Fork

/-!
One round.

At the beginning of a round there is one version, which pursues what the single stack does: it stands
over the frames of the stack, or over a fork, and then the single stack may have either of two lines
under the bracket (`Pursues`). After the round the version has come further, or it has ended with the
tree of the single stack, or nothing is pursued any more and the single stack cannot go on either
(`Turn`). So it is for a version over a line (`turn_lone`) and for one over a fork (`turn_forked`).
-/

namespace SusSyntax

open Grammar Lexical Plain

namespace Parse

variable {text : Text} {p q r : Parse} {v limit fuel furthest : Nat} {x : Lexeme}

/-! ### The next lexeme -/

/-- The same parse, with another lexeme that was read last. -/
def noting (p : Parse) (place : Nat) (x : Lexeme) : Parse :=
  { p with lastRead? := some (place, x) }

/-- Where nothing was read before, a lexeme is read. -/
theorem nextLexeme_fresh
    (fresh : ∀ place x, p.lastRead? = some (place, x) → place < (p.stack.pos v).bytes) :
    p.nextLexeme v = (p.noting (p.stack.pos v).bytes (scan p.text (p.stack.state v) (p.stack.pos v)),
      scan p.text (p.stack.state v) (p.stack.pos v)) := by
  have none : p.reused? v = none := by
    rw [reused?]
    split
    · rename_i place x last
      rw [if_neg]
      rw [Bool.and_eq_true, decide_eq_true_eq]
      exact fun both => absurd both.1 (Nat.ne_of_lt (fresh place x last))
    · rfl
  rw [nextLexeme, none]
  rfl

/-- Where a lexeme was read before, it is used again, or another one is read. -/
theorem exists_nextLexeme (last : p.lastRead? = some ((p.stack.pos v).bytes, x)) :
    ∃ z, p.nextLexeme v = (p.noting (p.stack.pos v).bytes z, z) ∧
      (z = x ∨ z = scan p.text (p.stack.state v) (p.stack.pos v) ∧
        canReuse (p.stack.state v) x = false) := by
  cases reuse : canReuse (p.stack.state v) x with
  | true =>
    have again : p.reused? v = some x := by
      rw [reused?, last]
      simp [reuse]
    refine ⟨x, ?_, .inl rfl⟩
    rw [nextLexeme, again, noting, ← last]
  | false =>
    have none : p.reused? v = none := by
      rw [reused?, last]
      simp [reuse]
    refine ⟨_, ?_, .inr ⟨rfl, rfl⟩⟩
    rw [nextLexeme, none]
    rfl

/-- A lexeme can be used again where the table says that it does not matter. -/
theorem canReuse_of_reusable {s : State} (reusable : (s.entry x.symbol).reusable = true)
    (covers : 0 < x.size.bytes) : canReuse s x = true := by
  rw [canReuse]
  split
  · rfl
  · rw [if_neg, reusable]
    simp
    omega

/-! ### Advancing -/

/-- A version is advanced once if it is further then than the others were, or waits. -/
theorem advanceBeyond_once (active : p.stack.isActive v = true) (advance : p.advance v = q)
    (done : q.stack.isActive v = true → furthest < (q.stack.pos v).bytes ∨
      0 < v ∧ (q.stack.pos v).bytes = furthest) (fuel : Nat) :
    ∃ f, advanceBeyond v (fuel + 2) (p, furthest) = (q, f) ∧
      (f = furthest ∨ f = (q.stack.pos v).bytes) := by
  rw [advanceBeyond, if_pos active]
  dsimp only
  rw [advance]
  split
  · exact ⟨_, rfl, .inr rfl⟩
  · rename_i behind
    refine ⟨furthest, ?_, .inl rfl⟩
    rw [advanceBeyond, if_neg fun still => behind (by simpa using done still)]

/-- One version that stays one is advanced. -/
theorem advanceFrom_one (active : p.stack.isActive 0 = true) (advance : p.advance 0 = q)
    (one : q.stack.count = 1)
    (done : q.stack.isActive 0 = true → furthest < (q.stack.pos 0).bytes) (limit fuel : Nat) :
    ∃ f, advanceFrom (limit + 2) (fuel + 2) 0 (p, furthest) = (q, f) ∧
      (f = furthest ∨ f = (q.stack.pos 0).bytes) := by
  obtain ⟨f, advanced, reached⟩ :=
    advanceBeyond_once active advance (fun still => .inl (done still)) limit
  refine ⟨f, ?_, reached⟩
  rw [advanceFrom, if_pos (Stack.isAt_of_isActive active).lt_count, advanced, advanceFrom, one,
    if_neg (by decide)]

/-- One version that becomes two is advanced, and then the other one. -/
theorem advanceFrom_two (active : p.stack.isActive 0 = true) (advance : p.advance 0 = q)
    (done : q.stack.isActive 0 = true → furthest < (q.stack.pos 0).bytes)
    (active' : q.stack.isActive 1 = true) (advance' : q.advance 1 = r) (two : r.stack.count = 2)
    (done' : r.stack.isActive 1 = true →
      furthest ≤ (r.stack.pos 1).bytes ∧ (q.stack.pos 0).bytes ≤ (r.stack.pos 1).bytes)
    (limit fuel : Nat) :
    ∃ f, advanceFrom (limit + 2) (fuel + 3) 0 (p, furthest) = (r, f) ∧
      (f = furthest ∨ f = (q.stack.pos 0).bytes ∨ f = (r.stack.pos 1).bytes) := by
  obtain ⟨f, advanced, reached⟩ :=
    advanceBeyond_once active advance (fun still => .inl (done still)) limit
  have further (still : r.stack.isActive 1 = true) :
      f < (r.stack.pos 1).bytes ∨ 0 < 1 ∧ (r.stack.pos 1).bytes = f := by
    have := done' still
    omega
  obtain ⟨f', advanced', reached'⟩ := advanceBeyond_once active' advance' further limit
  refine ⟨f', ?_, by omega⟩
  rw [advanceFrom, if_pos (Stack.isAt_of_isActive active).lt_count, advanced, advanceFrom,
    if_pos (Stack.isAt_of_isActive active').lt_count, advanced', advanceFrom, two, if_neg (by decide)]

end Parse

/-! ### What is pursued -/

/-- The first version of a stack pursues what the single stack does: it stands over its frames, or
over a fork, and then the single stack has two ways to go on, with one and the same part on top. -/
inductive Pursues (text : Text) (s : Stack) : Prop where
  | lone {frames : List Frame} {n : State} {below : List State} :
      s.cell 0 = .bottom → s.Bears 0 0 frames (n :: below) →
      (∀ t, Accepts text t ↔ Succeeds text ⟨frames, none⟩ t) → Pursues text s
  | forked {fork a b : Nat} {l : Tree} {frames first second : List Frame} {n m q q' : State}
      {below above above' : List State} :
      s.Forks fork a b l first second → EndsInTerm first m q above →
      EndsInType second q' above' → endOf first = endOf second →
      s.Bears 0 fork frames (n :: below) →
      (∀ t, Accepts text t ↔ Succeeds text ⟨frames ++ ⟨l, State.bracket⟩ :: first, none⟩ t ∨
        Succeeds text ⟨frames ++ ⟨l, State.bracket⟩ :: second, none⟩ t) → Pursues text s

theorem Pursues.settles {text : Text} {s s' : Stack} (h : Pursues text s) (settles : s.Settles s') :
    Pursues text s' := by
  cases h with
  | lone bottom bears agrees =>
    exact .lone (bears.bottom_eq settles.extends bottom) (settles.bears bears) agrees
  | forked forks terms types places bears agrees =>
    exact .forked (forks.extend settles.extends) terms types places (settles.bears bears) agrees

/-- A stack is not deeper than it has cells. -/
theorem Stack.Bears.load_le {s : Stack} {v base : Nat} {frames : List Frame} {states : List State}
    (h : s.Bears v base frames states) : load states ≤ 8 * s.cells.size + 17 := by
  have inside : insideCount frames ≤ frames.length := List.countP_le_length
  have length := h.line.length_le
  have count := h.carries.insideCount_eq
  have weight := (states.headD errorState).weight_le
  rw [load]
  omega

namespace Parse

/-- A round begins: nothing has been finished, and there is one version, further than anything was
read. -/
structure Begins (text : Text) (p : Parse) (furthest : Nat) : Prop where
  text_eq : p.text = text
  place : text.IsPlace (p.stack.pos 0)
  finished : p.finished? = none
  one : p.stack.count = 1
  fresh : ∀ place x, p.lastRead? = some (place, x) → place < (p.stack.pos 0).bytes
  furthest_le : furthest ≤ (p.stack.pos 0).bytes

/-- What comes of advancing all versions in a round that begins at `place`: one version goes on
further in the text, or it has ended, or none can go on. -/
inductive Turn (text : Text) (place : Nat) : Parse × Nat → Prop where
  | goes {q : Parse} {furthest : Nat} {s : Stack} {x : Lexeme} :
      q.condense = (q.withStack s, some 0) → q.finished? = none →
      q.lastRead? = some (place, x) → s.count = 1 → place < (s.pos 0).bytes →
      furthest ≤ (s.pos 0).bytes → Pursues text s → Turn text place (q, furthest)
  | ends {q : Parse} {furthest : Nat} {s : Stack} {t : Tree} :
      q.condense = (q.withStack s, none) → q.finished? = some t → t.cost = 0 →
      (∀ u, Accepts text u ↔ t = u) → Turn text place (q, furthest)
  | fails {q : Parse} {furthest : Nat} :
      (∀ v, q.stack.isActive v = false) → q.finished? = none → (∀ u, ¬Accepts text u) →
      Turn text place (q, furthest)

variable {text : Text} {p : Parse} {furthest : Nat} {x : Lexeme} {s' : Stack} {n : State}

theorem isActive_of_count_le {s : Stack} {v : Nat} (outside : s.count ≤ v) :
    s.isActive v = false := by
  rw [Stack.isActive, Stack.head_of_count_le outside]
  rfl

theorem isActive_of_waitingFor? {s : Stack} {v : Nat} {y : Lexeme}
    (waits : s.waitingFor? v = some y) : s.isActive v = false := by
  rw [Stack.waitingFor?] at waits
  rw [Stack.isActive]
  cases status : (s.head v).status with
  | paused => rfl
  | active | halted => rw [status] at waits; cases waits

theorem isActive_of_stands {s : Stack} {v base : Nat} {frames : List Frame}
    (h : s.Stands v base frames) : s.isActive v = true := by
  rw [Stack.isActive, h.active]
  rfl

/-- In a round one lexeme is read first. -/
theorem Begins.advance_eq (h : Begins text p furthest) (state : p.stack.state 0 = n) :
    p.advance 0 = advanceBy 0 p.stack.patience (scan text n (p.stack.pos 0))
      (p.noting (p.stack.pos 0).bytes (scan text n (p.stack.pos 0))) := by
  rw [advance, nextLexeme_fresh h.fresh, h.text_eq, state]
  rfl

/-- What is taken in takes up text. -/
theorem Begins.size_pos (h : Begins text p furthest) (taken : ∃ t, t ≠ .eof ∧
    ((scan text n (p.stack.pos 0)).leaf = .read t ∨
      (scan text n (p.stack.pos 0)).isKeyword = true)) :
    0 < (scan text n (p.stack.pos 0)).size.bytes := by
  obtain ⟨t, notEnd, leaf | keyword⟩ := taken
  · exact size_pos_of_scan h.place leaf notEnd
  · rcases leaf_of_isKeyword keyword with leaf | ⟨k, isKeyword, leaf, -⟩
    · exact size_pos_of_scan h.place leaf (by decide)
    · refine size_pos_of_scan h.place leaf ?_
      rintro rfl
      revert isKeyword
      decide

/-- The version goes on alone. -/
theorem Begins.turn_goes (h : Begins text p furthest) (active : p.stack.isActive 0 = true)
    (advance : p.advance 0 = (p.noting (p.stack.pos 0).bytes x).withStack s')
    (one : s'.count = 1) (safe : s'.IsSafe 0) (further : (p.stack.pos 0).bytes < (s'.pos 0).bytes)
    (pursues : Pursues text s') (limit : Nat) :
    Turn text (p.stack.pos 0).bytes (advanceFrom (limit + 3) (limit + 3) 0 (p, furthest)) := by
  have le := h.furthest_le
  obtain ⟨f, advanced, reached⟩ := advanceFrom_one active advance one (fun _ => by
    change furthest < (s'.pos 0).bytes
    omega) (limit + 1) (limit + 1)
  obtain ⟨s, condensed, settles⟩ := condense_lone
    (p := (p.noting (p.stack.pos 0).bytes x).withStack s') one safe
  have pos : (s.pos 0).bytes = (s'.pos 0).bytes := by
    rw [Stack.pos, settles.top_eq]
    rfl
  change f = furthest ∨ f = (s'.pos 0).bytes at reached
  rw [advanced]
  exact .goes condensed h.finished rfl (settles.count_eq.trans one) (by omega) (by omega)
    (pursues.settles settles)

/-- The version waits, and nothing is pursued any more. -/
theorem Begins.turn_fails (h : Begins text p furthest) (active : p.stack.isActive 0 = true)
    (advance : p.advance 0 = (p.noting (p.stack.pos 0).bytes x).withStack s')
    (one : s'.count = 1) {y : Lexeme} (waits : s'.waitingFor? 0 = some y)
    (fails : ∀ t, ¬Accepts text t) (limit : Nat) :
    Turn text (p.stack.pos 0).bytes (advanceFrom (limit + 3) (limit + 3) 0 (p, furthest)) := by
  have stopped := isActive_of_waitingFor? waits
  obtain ⟨f, advanced, -⟩ := advanceFrom_one active advance one (fun still => by
    rw [show ((p.noting (p.stack.pos 0).bytes x).withStack s').stack.isActive 0 = _ from stopped]
      at still
    cases still) (limit + 1) (limit + 1)
  rw [advanced]
  refine .fails (fun v => ?_) h.finished fails
  cases v with
  | zero => exact stopped
  | succ v => exact isActive_of_count_le (show s'.count ≤ v + 1 by omega)

/-! ### The end -/

variable {frames : List Frame} {below : List State}

/-- A version over a line that is accepted ends with the one root over its trees, at no cost. -/
theorem exists_accept (bears : p.stack.Bears 0 0 frames (State.acceptState :: below))
    (bottom : p.stack.cell 0 = .bottom) (one : p.stack.count = 1) (nothing : p.finished? = none)
    (ends : x.leaf = .read .eof) :
    ∃ t, rootOf? ((frames.map Frame.tree).reverse ++ [x.toTree]) = some t ∧ t.cost = 0 ∧
      (p.accept 0 x).finished? = some t ∧ (p.accept 0 x).stack.count = 1 ∧
      ((p.accept 0 x).stack.head 0).status.isHalted = true := by
  have carries := bears.carries
  rw [bottom] at carries
  have extra : x.toTree.isExtra = true := by
    rw [Lexeme.toTree, Lexeme.isEnd, ends]
    rfl
  obtain ⟨layout, ts, root, known⟩ := Carries.exists_root carries extra
  have free : (Tree.ofChildren (.rule .sourceFile layout) ts).cost = 0 := by
    refine (Tree.isFree_ofChildren fun u mem => ?_).1
    rcases known u mem with rfl | ⟨f, isFrame, rfl⟩ | ⟨f, isFrame, inside⟩
    · rw [Lexeme.toTree, ends]
      rfl
    · exact (bears.free f isFrame).1
    · exact (bears.free f isFrame).2 u inside
  obtain ⟨stands, alters⟩ := bears.toStands.push x.toTree startState
  have pops := stands.line.popAll_eq <| by
    rw [alters.extends'.cell_eq 0 bears.within, bottom]
    rfl
  have count := alters.count_eq.trans one
  rw [count, List.map_cons, List.reverse_cons] at pops
  refine ⟨_, root, free, ?_⟩
  rw [accept, pops]
  generalize p.stack.push 0 (some x.toTree) startState = s at *
  have added : ((s.addVersion 0 0).remove 1).count = 1 := by
    have := (Stack.drops_remove (s := s.addVersion 0 0) (w := 1) (by
      rw [Stack.count_addVersion]
      omega)).count
    rw [Stack.count_addVersion] at this
    omega
  simp only [List.flatMap_cons, List.flatMap_nil, List.append_nil, List.head?_cons,
    List.filterMap_cons, root, List.filterMap_nil, List.foldl_cons, List.foldl_nil, finish,
    withStack, nothing]
  refine ⟨trivial, ?_, ?_⟩
  · rw [Stack.halt, Stack.count_modifyHead, added]
  · rw [Stack.halt, Stack.head_modifyHead, if_pos ⟨rfl, by omega⟩]
    rfl

/-- The version ends with the tree that the single stack is accepted with. -/
theorem turn_ends (place furthest : Nat) (active : p.stack.isActive 0 = true)
    {q : Parse} (advance : p.advance 0 = q.accept 0 x)
    (bears : q.stack.Bears 0 0 frames (State.acceptState :: below))
    (bottom : q.stack.cell 0 = .bottom) (one : q.stack.count = 1) (nothing : q.finished? = none)
    (ends : x.leaf = .read .eof)
    (agrees : ∀ t, Accepts text t ↔
      rootOf? ((frames.map Frame.tree).reverse ++ [x.toTree]) = some t) (limit : Nat) :
    Turn text place (advanceFrom (limit + 3) (limit + 3) 0 (p, furthest)) := by
  obtain ⟨t, root, free, finished, count, halted⟩ := exists_accept bears bottom one nothing ends
  have stopped : (q.accept 0 x).stack.isActive 0 = false := by
    rw [Stack.isActive]
    cases status : ((q.accept 0 x).stack.head 0).status with
    | halted => rfl
    | active | paused => rw [status] at halted; cases halted
  obtain ⟨f, advanced, -⟩ := advanceFrom_one active advance count (fun still => by
    rw [stopped] at still
    cases still) (limit + 1) (limit + 1)
  obtain ⟨s, condensed⟩ := condense_halted count halted
  rw [advanced]
  refine .ends condensed finished free fun u => ?_
  rw [agrees, root, Option.some.injEq]

/-! ### Two versions -/

/-- There are two versions, over two stacks, where the lexeme `x` is read. -/
structure Parts (text : Text) (pos : Extent) (s : Stack) (first second : List Frame)
    (x : Lexeme) : Prop where
  two : s.count = 2
  bottom : s.cell 0 = .bottom
  stands : s.Stands 0 0 first
  stands' : s.Stands 1 0 second
  endOf_eq : endOf first = pos
  endOf_eq' : endOf second = pos
  agrees : ∀ t, Accepts text t ↔
    Succeeds text ⟨first, some x⟩ t ∨ Succeeds text ⟨second, some x⟩ t

variable {s s₁ s₂ : Stack} {first second : List Frame} {y z : Lexeme} {pos : Extent}
  {states : List State}

theorem ne_errorState_of_bottom (h : s.cell 0 = .bottom) : (s.cell 0).state ≠ errorState := by
  rw [h]
  decide

theorem cost_of_bottom (h : s.cell 0 = .bottom) : (s.cell 0).cost = 0 := by
  rw [h]
  rfl

theorem pos_eq_of_stands {v : Nat} (h : s.Stands v 0 frames) (bottom : s.cell 0 = .bottom) :
    s.pos v = endOf frames := by
  rw [h.pos_eq, bottom]
  exact Extent.zero_add _

theorem Takes.bottom {v : Nat} (takes : Takes text v s first x s₁ frames states)
    (stands : s.Stands v 0 first) (bottom : s.cell 0 = .bottom) : s₁.cell 0 = .bottom :=
  (takes.alters.extends'.cell_eq 0 (Nat.zero_lt_of_lt stands.inside)).trans bottom

theorem Waits.bottom {v : Nat} (waits : Waits text v s first x s₁)
    (stands : s.Stands v 0 first) (bottom : s.cell 0 = .bottom) : s₁.cell 0 = .bottom :=
  (waits.alters.extends'.cell_eq 0 (Nat.zero_lt_of_lt stands.inside)).trans bottom

theorem Takes.pos_eq {v : Nat} (takes : Takes text v s first x s₁ frames states)
    (stands : s.Stands v 0 first) (bottom : s.cell 0 = .bottom) :
    s₁.pos v = endOf first + x.extent := by
  rw [pos_eq_of_stands takes.bears.toStands (takes.bottom stands bottom), takes.endOf_eq]

/-- What the second version does is found after the first one was advanced. -/
theorem Begins.exists_advance_second (h : Begins text p furthest) (place : s₁.pos 1 = p.stack.pos 0)
    (state : s₁.state 1 = n) :
    ∃ z, ((p.noting (p.stack.pos 0).bytes x).withStack s₁).advance 1 =
        advanceBy 1 s₁.patience z ((p.noting (p.stack.pos 0).bytes z).withStack s₁) ∧
      (z = x ∨ z = scan text n (p.stack.pos 0) ∧ canReuse n x = false) := by
  obtain ⟨z, next, which⟩ := exists_nextLexeme (v := 1) (x := x)
    (p := (p.noting (p.stack.pos 0).bytes x).withStack s₁) (by rw [← place]; rfl)
  change _ ∨ z = scan p.text (s₁.state 1) (s₁.pos 1) ∧ canReuse (s₁.state 1) x = false at which
  rw [h.text_eq, state, place] at which
  refine ⟨z, ?_, which⟩
  rw [advance, next, ← place]
  rfl

/-- Both versions are advanced. -/
theorem Begins.exists_advanceFrom (h : Begins text p furthest) (active : p.stack.isActive 0 = true)
    (advance : p.advance 0 = (p.noting (p.stack.pos 0).bytes x).withStack s₁)
    (advance' : ((p.noting (p.stack.pos 0).bytes x).withStack s₁).advance 1 =
      (p.noting (p.stack.pos 0).bytes z).withStack s₂) (two : s₂.count = 2)
    (first : s₁.isActive 0 = true → (p.stack.pos 0).bytes < (s₁.pos 0).bytes)
    (active' : s₁.isActive 1 = true)
    (second : s₂.isActive 1 = true → (p.stack.pos 0).bytes ≤ (s₂.pos 1).bytes ∧
      (s₁.pos 0).bytes ≤ (s₂.pos 1).bytes) (limit : Nat) :
    ∃ f, advanceFrom (limit + 3) (limit + 3) 0 (p, furthest) =
        ((p.noting (p.stack.pos 0).bytes z).withStack s₂, f) ∧
      (f ≤ (p.stack.pos 0).bytes ∨ f = (s₁.pos 0).bytes ∨ f = (s₂.pos 1).bytes) := by
  have le := h.furthest_le
  obtain ⟨f, advanced, reached⟩ := advanceFrom_two active advance
    (fun still => Nat.lt_of_le_of_lt le (first still)) active' advance' two
    (fun still => ⟨Nat.le_trans le (second still).1, (second still).2⟩) (limit + 1) limit
  refine ⟨f, advanced, reached.imp_left fun same => ?_⟩
  rw [same]
  exact le

/-- The first version goes on alone. -/
theorem Begins.turn_first (h : Begins text p furthest) (active : p.stack.isActive 0 = true)
    (parts : Parts text (p.stack.pos 0) s first second y)
    (advance : p.advance 0 = (p.noting (p.stack.pos 0).bytes x).withStack s₁)
    (advance' : ((p.noting (p.stack.pos 0).bytes x).withStack s₁).advance 1 =
      (p.noting (p.stack.pos 0).bytes z).withStack s₂)
    (takes : Takes text 0 s first y s₁ frames (n :: below)) (covers : 0 < y.extent.bytes)
    (waits : Waits text 1 s₁ second z s₂) (fails : ∀ t, ¬Succeeds text ⟨second, some y⟩ t)
    (limit : Nat) :
    Turn text (p.stack.pos 0).bytes (advanceFrom (limit + 3) (limit + 3) 0 (p, furthest)) := by
  obtain ⟨w, waiting⟩ := waits.waits
  have bottom := takes.bottom parts.stands parts.bottom
  have stands' := parts.stands'.alters takes.alters Nat.one_ne_zero
  have bears := takes.bears.alters waits.alters Nat.zero_ne_one
  have bottom' := waits.bottom stands' bottom
  have two : s₂.count = 2 :=
    waits.alters.count_eq.trans (takes.alters.count_eq.trans parts.two)
  have pos : (s₁.pos 0).bytes = (p.stack.pos 0).bytes + y.extent.bytes := by
    rw [takes.pos_eq parts.stands parts.bottom, parts.endOf_eq, Extent.bytes_add]
  have pos' : (s₂.pos 1).bytes = (p.stack.pos 0).bytes := by
    rw [waits.pos_eq, pos_eq_of_stands stands' bottom, parts.endOf_eq']
  have pos₂ : (s₂.pos 0).bytes = (s₁.pos 0).bytes := by
    rw [pos_eq_of_stands bears.toStands bottom', pos_eq_of_stands takes.bears.toStands bottom]
  obtain ⟨f, advanced, reached⟩ := h.exists_advanceFrom active advance advance' two
    (fun _ => by omega) (isActive_of_stands stands') (fun still => by
      rw [isActive_of_waitingFor? waiting] at still
      cases still) limit
  obtain ⟨s', condensed, remains⟩ := condense_first
    (p := (p.noting (p.stack.pos 0).bytes z).withStack s₂) two bears
    (cost_of_bottom bottom') (ne_errorState_of_bottom bottom') waiting
  have bears' := remains.bears bears
  have bottom'' : s'.cell 0 = .bottom := bears.bottom_eq remains.extends' bottom'
  have pos'' : (s'.pos 0).bytes = (s₁.pos 0).bytes := by
    rw [pos_eq_of_stands bears'.toStands bottom'', pos_eq_of_stands takes.bears.toStands bottom]
  rw [advanced]
  refine .goes condensed h.finished rfl remains.count_eq (by omega) (by omega)
    (.lone bottom'' bears' fun t => ?_)
  rw [parts.agrees, or_iff_left (fails t), takes.succeeds]

/-- The second version goes on alone. -/
theorem Begins.turn_second (h : Begins text p furthest) (active : p.stack.isActive 0 = true)
    (parts : Parts text (p.stack.pos 0) s first second y)
    (advance : p.advance 0 = (p.noting (p.stack.pos 0).bytes x).withStack s₁)
    (advance' : ((p.noting (p.stack.pos 0).bytes x).withStack s₁).advance 1 =
      (p.noting (p.stack.pos 0).bytes z).withStack s₂)
    (waits : Waits text 0 s first y s₁) (takes : Takes text 1 s₁ second z s₂ frames (n :: below))
    (covers : 0 < z.extent.bytes)
    (same : ∀ t, Succeeds text ⟨second, some y⟩ t ↔ Succeeds text ⟨second, some z⟩ t)
    (limit : Nat) :
    Turn text (p.stack.pos 0).bytes (advanceFrom (limit + 3) (limit + 3) 0 (p, furthest)) := by
  obtain ⟨w, waiting⟩ := waits.waits
  have bottom := waits.bottom parts.stands parts.bottom
  have stands' := parts.stands'.alters waits.alters Nat.one_ne_zero
  have bottom' := takes.bottom stands' bottom
  have two : s₂.count = 2 :=
    takes.alters.count_eq.trans (waits.alters.count_eq.trans parts.two)
  have waiting' : s₂.waitingFor? 0 = some w := by
    rw [Stack.waitingFor?, takes.alters.head_eq 0 Nat.zero_ne_one]
    exact waiting
  have pos : (s₁.pos 0).bytes = (p.stack.pos 0).bytes := by
    rw [waits.pos_eq, pos_eq_of_stands parts.stands parts.bottom, parts.endOf_eq]
  have pos' : (s₂.pos 1).bytes = (p.stack.pos 0).bytes + z.extent.bytes := by
    rw [takes.pos_eq stands' bottom, parts.endOf_eq', Extent.bytes_add]
  obtain ⟨f, advanced, reached⟩ := h.exists_advanceFrom active advance advance' two
    (fun still => by
      rw [isActive_of_waitingFor? waiting] at still
      cases still) (isActive_of_stands stands') (fun _ => by omega) limit
  obtain ⟨s', condensed, remains⟩ := condense_second
    (p := (p.noting (p.stack.pos 0).bytes z).withStack s₂) two waiting' takes.bears
    (cost_of_bottom bottom') (ne_errorState_of_bottom bottom')
  have bears' := remains.bears takes.bears
  have bottom'' : s'.cell 0 = .bottom := takes.bears.bottom_eq remains.extends' bottom'
  have pos'' : (s'.pos 0).bytes = (s₂.pos 1).bytes := by
    rw [pos_eq_of_stands bears'.toStands bottom'', pos_eq_of_stands takes.bears.toStands bottom']
  rw [advanced]
  refine .goes condensed h.finished rfl remains.count_eq (by omega) (by omega)
    (.lone bottom'' bears' fun t => ?_)
  rw [parts.agrees, or_iff_right (waits.fails t), same, takes.succeeds]

/-- Neither version can go on. -/
theorem Begins.turn_neither (h : Begins text p furthest) (active : p.stack.isActive 0 = true)
    (parts : Parts text (p.stack.pos 0) s first second y)
    (advance : p.advance 0 = (p.noting (p.stack.pos 0).bytes x).withStack s₁)
    (advance' : ((p.noting (p.stack.pos 0).bytes x).withStack s₁).advance 1 =
      (p.noting (p.stack.pos 0).bytes z).withStack s₂)
    (waits : Waits text 0 s first y s₁) (waits' : Waits text 1 s₁ second z s₂)
    (fails : ∀ t, ¬Succeeds text ⟨second, some y⟩ t) (limit : Nat) :
    Turn text (p.stack.pos 0).bytes (advanceFrom (limit + 3) (limit + 3) 0 (p, furthest)) := by
  obtain ⟨w, waiting⟩ := waits.waits
  obtain ⟨w', waiting'⟩ := waits'.waits
  have two : s₂.count = 2 :=
    waits'.alters.count_eq.trans (waits.alters.count_eq.trans parts.two)
  have stopped := isActive_of_waitingFor? waiting
  have stopped' := isActive_of_waitingFor? waiting'
  obtain ⟨f, advanced, -⟩ := h.exists_advanceFrom active advance advance' two
    (fun still => by rw [stopped] at still; cases still)
    (isActive_of_stands (parts.stands'.alters waits.alters Nat.one_ne_zero))
    (fun still => by rw [stopped'] at still; cases still) limit
  rw [advanced]
  refine .fails (fun v => ?_) h.finished fun t accepts => ?_
  · rcases v with _ | _ | v
    · change s₂.isActive 0 = false
      rw [Stack.isActive, waits'.alters.head_eq 0 Nat.zero_ne_one]
      exact stopped
    · exact stopped'
    · exact isActive_of_count_le (show s₂.count ≤ v + 2 by omega)
  · exact ((parts.agrees t).mp accepts).elim (waits.fails t) (fails t)

/-- Both versions take the same bracket in, and become one over a fork. -/
theorem Begins.turn_both (h : Begins text p furthest) (active : p.stack.isActive 0 = true)
    {lower upper : List Frame} {m q q' : State} {above above' : List State}
    (parts : Parts text (p.stack.pos 0) s first second x)
    (advance : p.advance 0 = (p.noting (p.stack.pos 0).bytes x).withStack s₁)
    (advance' : ((p.noting (p.stack.pos 0).bytes x).withStack s₁).advance 1 =
      (p.noting (p.stack.pos 0).bytes x).withStack s₂)
    (takes : Takes text 0 s first x s₁ (⟨x.toTree.withExtra false, State.bracket⟩ :: lower)
      (State.bracket :: m :: q :: above))
    (takes' : Takes text 1 s₁ second x s₂ (⟨x.toTree.withExtra false, State.bracket⟩ :: upper)
      (State.bracket :: State.typeRead :: q' :: above'))
    (terms : EndsInTerm lower m q above) (types : EndsInType upper q' above')
    (places : endOf lower = endOf upper) (covers : 0 < x.extent.bytes) (limit : Nat) :
    Turn text (p.stack.pos 0).bytes (advanceFrom (limit + 3) (limit + 3) 0 (p, furthest)) := by
  have bottom := takes.bottom parts.stands parts.bottom
  have stands' := parts.stands'.alters takes.alters Nat.one_ne_zero
  have bears := takes.bears.alters takes'.alters Nat.zero_ne_one
  have bottom' := takes'.bottom stands' bottom
  have two : s₂.count = 2 :=
    takes'.alters.count_eq.trans (takes.alters.count_eq.trans parts.two)
  have pos : (s₁.pos 0).bytes = (p.stack.pos 0).bytes + x.extent.bytes := by
    rw [takes.pos_eq parts.stands parts.bottom, parts.endOf_eq, Extent.bytes_add]
  have pos' : (s₂.pos 1).bytes = (p.stack.pos 0).bytes + x.extent.bytes := by
    rw [takes'.pos_eq stands' bottom, parts.endOf_eq', Extent.bytes_add]
  obtain ⟨f, advanced, reached⟩ := h.exists_advanceFrom active advance advance' two
    (fun _ => by omega) (isActive_of_stands stands') (fun _ => by omega) limit
  have differs : stateOver startState lower ≠ stateOver startState upper := by
    rw [terms.carries.stateOver_eq, types.carries.stateOver_eq]
    exact terms.ne_typeRead
  obtain ⟨s', fork, a, b, condensed, one, forks, bears'⟩ := condense_both
    (p := (p.noting (p.stack.pos 0).bytes x).withStack s₂) two bottom' bears takes'.bears
    (Tree.isExtra_withExtra ..) covers places differs
  have pos'' : (s'.pos 0).bytes = (p.stack.pos 0).bytes + x.extent.bytes := by
    rw [bears'.pos_eq, forks.pos_eq, ← parts.endOf_eq, ← Extent.bytes_add, ← takes.endOf_eq]
    exact congrArg Extent.bytes (Extent.add_zero _)
  rw [advanced]
  refine .goes condensed h.finished rfl one (by omega) (by omega)
    (.forked forks terms types places bears' fun t => ?_)
  rw [parts.agrees, takes.succeeds, takes'.succeeds]
  rfl

/-! ### A version over a line -/

theorem extent_pos (covers : 0 < x.size.bytes) : 0 < x.extent.bytes :=
  Nat.lt_of_lt_of_le covers (Nat.le_add_left ..)

/-- There is one lexeme to be read in a state at a place. -/
theorem succeeds_scan {t : Tree} (top : topState frames = n) (place : endOf frames = pos) :
    Succeeds text ⟨frames, none⟩ t ↔ Succeeds text ⟨frames, some (scan text n pos)⟩ t := by
  rw [succeeds_read, top, place]

/-- In a round the version deals with one lexeme; if it has not done with it in time, there are
steps left for whatever lies below. -/
theorem Begins.deals {base : Nat} (h : Begins text p furthest)
    (bears : p.stack.Bears 0 base frames (n :: below))
    (notError : (p.stack.cell base).state ≠ errorState) :
    Deals text 0 base (p.noting (p.stack.pos 0).bytes (scan text n (p.stack.pos 0))) frames
      (scan text n (p.stack.pos 0)) p.stack.patience (8 * p.stack.cells.size + 99 + 1)
      (p.advance 0) := by
  rw [h.advance_eq bears.state_eq]
  refine deals_advanceBy bears notError (Nat.le_trans (Nat.le_of_eq h.one) (by decide))
    (Stack.alone_of_count h.one 0 rfl) (Lexeme.isReadAt_scan text n (p.stack.pos 0)) ?_
  have := bears.load_le
  rw [Stack.patience]
  split <;> omega

/-- At the choice the version becomes two, and both take the bracket in. -/
theorem Begins.turn_chooses (h : Begins text p furthest) (active : p.stack.isActive 0 = true)
    {fuel : Nat} (advance : p.advance 0 =
      advanceBy 0 (fuel + 2) x ((p.noting (p.stack.pos 0).bytes x).withStack s))
    (bears : s.Bears 0 0 frames (State.choice :: below)) (bottom : s.cell 0 = .bottom)
    (one : s.count = 1) (place : endOf frames = p.stack.pos 0) (read : x.leaf = .read .lbracket)
    (covers : 0 < x.size.bytes)
    (agrees : ∀ t, Accepts text t ↔ Succeeds text ⟨frames, some x⟩ t) (limit : Nat) :
    Turn text (p.stack.pos 0).bytes (advanceFrom (limit + 3) (limit + 3) 0 (p, furthest)) := by
  obtain ⟨s₁, first, second, m, q, above, splits, ext, two, stands, stands', terms, types, moves,
    moves', succeeds⟩ := exists_split text ((p.noting (p.stack.pos 0).bytes x).withStack s)
      (fuel + 1) bears one bottom read
  have bottom₁ : s₁.cell 0 = .bottom := bears.bottom_eq ext bottom
  have parts : Parts text (p.stack.pos 0) s₁ first second x :=
    ⟨two, bottom₁, stands, stands', moves.trans place, moves'.trans place, fun t =>
      (agrees t).trans (succeeds t)⟩
  obtain ⟨s₂, advance₂, takes⟩ := exists_bracket text
    ((p.noting (p.stack.pos 0).bytes x).withStack s₁) fuel
    (stands.bears bottom₁ terms.carries terms.free) bottom₁ read (State.entry_termRead terms.isTerm).1
  have stands₂ := stands'.alters takes.alters Nat.one_ne_zero
  have bottom₂ := takes.bottom stands bottom₁
  have bears₂ := stands₂.bears bottom₂ types.carries types.free
  obtain ⟨z, advance₃, again | ⟨-, anew⟩⟩ := h.exists_advance_second (x := x)
    ((pos_eq_of_stands stands₂ bottom₂).trans parts.endOf_eq') bears₂.state_eq
  · subst again
    have typed : (State.typeRead.row.entry .lbracket).actions = [.shift State.bracket] := by
      rw [State.entry_typeRead.2, Entry.shared]
    obtain ⟨fuel', enough⟩ : ∃ fuel', s₂.patience = fuel' + 1 := ⟨s₂.patience - 1, by
      rw [Stack.patience]
      omega⟩
    obtain ⟨s₃, advance₄, takes'⟩ := exists_bracket text
      ((p.noting (p.stack.pos 0).bytes z).withStack s₂) fuel' bears₂ bottom₂ read typed
    refine h.turn_both active parts ((advance.trans splits).trans advance₂)
      (advance₃.trans (enough ▸ advance₄)) takes takes' terms types ?_ (extent_pos covers) limit
    rw [moves, moves']
  · rw [canReuse_of_reusable (by
      rw [Lexeme.symbol, read, Leaf.symbol, State.entry, State.entry_typeRead.2, Entry.shared])
      covers] at anew
    cases anew

theorem Begins.turn_lone (h : Begins text p furthest) (bottom : p.stack.cell 0 = .bottom)
    (bears : p.stack.Bears 0 0 frames (n :: below))
    (agrees : ∀ t, Accepts text t ↔ Succeeds text ⟨frames, none⟩ t) (limit : Nat) :
    Turn text (p.stack.pos 0).bytes (advanceFrom (limit + 3) (limit + 3) 0 (p, furthest)) := by
  have active := isActive_of_stands bears.toStands
  have covers := h.size_pos (n := n)
  have place : endOf frames = p.stack.pos 0 := (pos_eq_of_stands bears.toStands bottom).symm
  have base : (p.stack.cell 0).state = startState := by rw [bottom]; rfl
  have carries := bears.carries
  rw [base] at carries
  have agrees' (t : Tree) : Accepts text t ↔
      Succeeds text ⟨frames, some (scan text n (p.stack.pos 0))⟩ t := by
    rw [agrees, succeeds_scan carries.topState_eq place]
  have deals := h.deals bears (ne_errorState_of_bottom bottom)
  generalize advance : p.advance 0 = result at deals
  generalize scan text n (p.stack.pos 0) = x at *
  have below_eq (frames : List Frame) : frames ++ [] = frames := List.append_nil frames
  cases deals with
  | @takes s' frames' states alters bears' taken moves succeeds =>
    obtain ⟨n', below', rfl⟩ := bears'.carries.exists_eq_cons
    have bottom' : s'.cell 0 = .bottom := bears.bottom_eq alters.extends' bottom
    refine h.turn_goes active advance (alters.count_eq.trans h.one)
      (bears'.isSafe (cost_of_bottom bottom') (ne_errorState_of_bottom bottom')) ?_
      (.lone bottom' bears' fun t => ?_) limit
    · rw [pos_eq_of_stands bears'.toStands bottom', moves, place]
      exact Nat.lt_add_of_pos_right (extent_pos (covers taken))
    · have same := succeeds [] t base.symm
      rwa [below_eq, below_eq, ← agrees'] at same
  | @waits s' y alters _ fails =>
    refine h.turn_fails active advance
      ((Stack.alters_pause ..).count_eq.trans (alters.count_eq.trans h.one))
      (Stack.waitingFor?_pause (alters.count_eq ▸ bears.lt_count) y) (fun t => ?_) limit
    have fails := fails [] t base.symm
    rwa [below_eq, ← agrees'] at fails
  | @accepts p' frames' below' y fuel' comes bears' ends accepts =>
    have bottom' : p'.stack.cell 0 = .bottom := bears.bottom_eq comes.alters.extends' bottom
    refine turn_ends _ furthest active advance bears' bottom' (comes.alters.count_eq.trans h.one)
      ?_ ends (fun t => ?_) limit
    · rw [comes.withStack_eq]
      exact h.finished
    · have same := accepts [] t base.symm
      rwa [below_eq, below_eq, ← agrees'] at same
  | @chooses p' frames' below' y fuel' comes bears' leaf le =>
    have bottom' : p'.stack.cell 0 = .bottom := bears.bottom_eq comes.alters.extends' bottom
    have same : y = x := comes.lexeme.resolve_right fun ⟨_, named⟩ => by
      rw [named] at leaf
      cases leaf
    subst same
    obtain ⟨fuel'', rfl⟩ : ∃ fuel'', fuel' = fuel'' + 2 := ⟨fuel' - 2, by omega⟩
    rw [comes.withStack_eq] at advance
    refine h.turn_chooses active advance bears' bottom' (comes.alters.count_eq.trans h.one)
      (comes.endOf_eq.trans place) leaf (covers ⟨.lbracket, by decide, .inl leaf⟩) (fun t => ?_) limit
    have same := comes.succeeds [] t base.symm
    rwa [below_eq, below_eq, ← agrees'] at same
  | reaches comes bears' entry _ deep _ =>
    have carries := bears'.carries
    rw [comes.alters.extends'.cell_eq 0 bears.within] at carries
    obtain ⟨t, -, admits⟩ := State.exists_of_mem_entry (entry ▸ List.mem_cons_self)
    exact absurd (Carries.size_le (base ▸ carries) admits) (Nat.not_le.mpr deep)

end Parse

end SusSyntax
