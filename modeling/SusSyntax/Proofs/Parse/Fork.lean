import SusSyntax.Proofs.Parse.Condense

/-!
Where one version becomes two, and what the two do.

At the choice a version becomes two: one over an expression, which goes on first, and one over a
type (`exists_split`). Behind a bracket they are one version over a fork. When the bracket is closed
there are two again, both over an index (`exists_close`). What they can be accepted with is what the
single stack can be accepted with, the one way or the other.
-/

namespace SusSyntax

open Grammar Lexical Plain

namespace Plain

/-- The last tree is an expression where a declaration might have begun. -/
structure EndsInTerm (frames : List Frame) (m q : State) (below : List State) : Prop where
  carries : Carries startState frames (m :: q :: below)
  free : ∀ f ∈ frames, f.tree.IsFree
  isTerm : m.IsTermRead
  goto : q.row.goto? .arrayOp = some m

/-- The last tree is a type where a declaration begins. -/
structure EndsInType (frames : List Frame) (q : State) (below : List State) : Prop where
  carries : Carries startState frames (State.typeRead :: q :: below)
  free : ∀ f ∈ frames, f.tree.IsFree
  goto : q.row.goto? .arrayType = some State.typeRead

variable {frames : List Frame} {m q : State} {below : List State}

theorem EndsInTerm.ne_typeRead (h : EndsInTerm frames m q below) : m ≠ State.typeRead := by
  rcases h.isTerm with rfl | rfl <;> decide

end Plain

namespace Stack

variable {s : Stack} {v : Nat} {frames : List Frame} {m q : State} {below states : List State}

theorem Stands.bears (h : s.Stands v 0 frames) (bottom : s.cell 0 = .bottom)
    (carries : Carries startState frames states) (free : ∀ f ∈ frames, f.tree.IsFree) :
    s.Bears v 0 frames states :=
  ⟨h, by rw [bottom]; exact carries, free⟩

theorem alters_pause (s : Stack) (v : Nat) (x : Lexeme) : Alters v s (s.pause v x) :=
  ⟨.of_cells rfl, count_modifyHead .., fun u ne => by
    rw [pause, head_modifyHead, if_neg fun both => ne both.1.symm]⟩

theorem pos_pause (s : Stack) (v : Nat) (x : Lexeme) : (s.pause v x).pos v = s.pos v := by
  rw [pos, pos, top, top, pause, head_modifyHead]
  split <;> rfl

theorem waitingFor?_pause (inside : v < s.count) (x : Lexeme) :
    (s.pause v x).waitingFor? v = some x := by
  rw [waitingFor?, pause, head_modifyHead, if_pos ⟨rfl, inside⟩]
  rfl

end Stack

namespace Parse

variable {text : Text} {p : Parse} {v fuel : Nat} {frames first second : List Frame} {x : Lexeme}
  {s m q : State} {below below' : List State}

/-! ### The choice -/

/-- At the choice the single stack has two ways to go on. -/
theorem succeeds_choice {trees : List Tree} {left : List Frame} {n m : State}
    (entry : ((topState frames).entry x.symbol).actions =
      [.reduce .type 1 0, .reduce .expression 1 0])
    (popped : pop 1 frames = some (trees, left))
    (type : (topState left).row.goto? .type = some n)
    (term : (topState left).row.goto? .expression = some m) (t : Tree) :
    Succeeds text ⟨frames, some x⟩ t ↔
      Succeeds text ⟨putNode .expression 0 trees m left, some x⟩ t ∨
        Succeeds text ⟨putNode .type 0 trees n left, some x⟩ t := by
  have types : Config.apply ⟨frames, some x⟩ x (.reduce .type 1 0) =
      some ⟨putNode .type 0 trees n left, some x⟩ :=
    apply_eq_some_iff.mpr (.reduce popped type)
  have terms : Config.apply ⟨frames, some x⟩ x (.reduce .expression 1 0) =
      some ⟨putNode .expression 0 trees m left, some x⟩ :=
    apply_eq_some_iff.mpr (.reduce popped term)
  rw [succeeds_acts (renames_eq_false (by simp [entry])), entry]
  simp [Config.accepted?, Config.entryFor, entry, types, terms, or_comm]

/-- At the choice a version becomes two: it goes on itself with an expression, and there is another
one with a type. -/
theorem exists_split (text : Text) (p : Parse) (fuel : Nat)
    (bears : p.stack.Bears 0 0 frames (State.choice :: below))
    (one : p.stack.count = 1) (bottom : p.stack.cell 0 = .bottom)
    (read : x.leaf = .read .lbracket) :
    ∃ s first second m q above, advanceBy 0 (fuel + 1) x p = advanceBy 0 fuel x (p.withStack s) ∧
      p.stack.Extends s ∧ s.count = 2 ∧ s.Stands 0 0 first ∧ s.Stands 1 0 second ∧
      EndsInTerm first m q above ∧ EndsInType second q above ∧
      endOf first = endOf frames ∧ endOf second = endOf frames ∧
      ∀ t, Succeeds text ⟨frames, some x⟩ t ↔
        Succeeds text ⟨first, some x⟩ t ∨ Succeeds text ⟨second, some x⟩ t := by
  have carries := bears.carries
  have state : (p.stack.cell 0).state = startState := by rw [bottom]; rfl
  rw [state] at carries
  have symbol : x.symbol = .token .lbracket := by rw [Lexeme.symbol, read]; rfl
  have entry : (State.choice.row.entry .lbracket).actions =
      [.reduce .type 1 0, .reduce .expression 1 0] := by decide +kernel
  have entry' : (State.choice.entry x.symbol).actions =
      [.reduce .type 1 0, .reduce .expression 1 0] := by rw [symbol, State.entry, entry]
  have admits (a : Action) (mem : a ∈ [Action.reduce .type 1 0, .reduce .expression 1 0]) :
      a ∈ (State.choice.row.entry .lbracket).actions := by rwa [entry]
  have type := admits _ List.mem_cons_self
  have term := admits _ (List.mem_cons_of_mem _ List.mem_cons_self)
  obtain ⟨trees, left, q, above, n, popped, dropped, carriesLeft, goto, carriesType, -⟩ :=
    carries.reduce type (carries.size_le type)
  obtain ⟨trees', left', q', above', m, popped', dropped', -, goto', carriesTerm, -⟩ :=
    carries.reduce term (carries.size_le term)
  obtain ⟨rfl, rfl⟩ := Prod.mk.inj (Option.some.inj (popped.symm.trans popped'))
  obtain ⟨rfl, rfl⟩ := List.cons.inj (dropped.symm.trans dropped')
  obtain ⟨rfl, isTerm, arrayType, arrayOp⟩ := State.gotos_of_choice goto goto'
  have top : stateOver startState left = q := carriesLeft.stateOver_eq
  have terms : EndsInTerm (putNode .expression 0 trees m left) m q above :=
    ⟨carriesTerm, isFree_putNode popped bears.free, isTerm, arrayOp⟩
  -- the type is made first and stands behind the version it was made from
  have alone : p.stack.Apart 0 p.stack.count State.typeRead (p.stack.pos 0) :=
    fun u lt ne => absurd (by omega : u = 0) ne
  obtain ⟨s₁, reduces, stands₁, ext₁, count₁, heads₁⟩ := bears.toStands.exists_reduce 0
    (by omega) popped (show _ = some State.typeRead by rw [state, top, goto]) alone
  rw [one] at reduces stands₁ count₁ heads₁
  have state₁ : (s₁.cell 0).state = startState := by rw [ext₁.cell_eq 0 bears.within, state]
  have apart : s₁.Apart 0 s₁.count m (s₁.pos 0) := by
    intro u lt ne _
    obtain rfl : u = 1 := by omega
    refine ⟨stands₁.inside, fun same => absurd ?_ terms.ne_typeRead⟩
    rw [← same, stands₁.state_eq, stateOver_putNode]
  obtain ⟨s₂, reduces', stands₂, ext₂, count₂, heads₂⟩ := (bears.toStands.of_head_eq ext₁
    (heads₁ 0 Nat.zero_lt_one)).exists_reduce 0 (by omega) popped
    (show _ = some m by rw [state₁, top, goto']) apart
  obtain ⟨there, alters⟩ := stands₂.replace_last (v := 0) (by omega) count₂ ext₂ heads₂
  have there₁ := stands₁.alters alters Nat.one_ne_zero
  refine ⟨s₂.replace 0 s₁.count, _, _, m, q, above, ?_, ext₁.trans alters.extends',
    alters.count_eq.trans count₁, there, there₁, terms,
    ⟨carriesType, isFree_putNode popped bears.free, arrayType⟩, endOf_putNode popped,
    endOf_putNode popped, succeeds_choice ?_ popped ?_ ?_⟩
  · exact advanceBy_of_both (by rw [bears.state_eq, entry']) reduces reduces'
  · rw [carries.topState_eq, entry']
  · rw [carriesLeft.topState_eq, goto]
  · rw [carriesLeft.topState_eq, goto']

/-! ### Behind the bracket -/

section

variable {fork a b : Nat} {l : Tree} {above above' states : List State} {q' : State}

/-- What the frames over a fork do is done over each of the two lines. -/
theorem succeeds_close (forks : p.stack.Forks fork a b l first second)
    (bears : p.stack.Bears 0 fork frames (State.indexRead :: states)) {layout : Nat}
    (entry : (State.indexRead.entry x.symbol).actions =
      [.reduce .arrayBracketExpression (insideCount frames + 1) layout])
    {rest : List Frame} {n : State}
    (goto : (topState rest).row.goto? .arrayBracketExpression = some n) (t : Tree) :
    Succeeds text ⟨frames ++ ⟨l, State.bracket⟩ :: rest, some x⟩ t ↔
      Succeeds text ⟨putNode .arrayBracketExpression layout (l :: (frames.map Frame.tree).reverse)
        n rest, some x⟩ t := by
  have top : topState (frames ++ ⟨l, State.bracket⟩ :: rest) = State.indexRead :=
    topState_of_bears bears (by rw [forks.state_eq]; rfl)
  exact succeeds_reduce (by rw [top, entry]) (fun _ mem => absurd mem List.not_mem_nil)
    (pop_through ⟨l, State.bracket⟩ forks.inside rest) goto

/-- When the bracket is closed there are two versions again, each over an index. -/
theorem exists_close (text : Text) (p : Parse) (fuel : Nat)
    (forks : p.stack.Forks fork a b l first second)
    (terms : EndsInTerm first m q above) (types : EndsInType second q' above')
    (bears : p.stack.Bears 0 fork frames (State.indexRead :: states))
    (one : p.stack.count = 1)
    (entry : (State.indexRead.entry x.symbol).actions =
      [.reduce .arrayBracketExpression (insideCount frames + 1) 24]) :
    ∃ s first' second', advanceBy 0 (fuel + 1) x p = advanceBy 0 fuel x (p.withStack s) ∧
      p.stack.Extends s ∧ s.count = 2 ∧
      s.Bears 0 0 first' (State.termIndexed :: m :: q :: above) ∧
      s.Bears 1 0 second' (State.typeIndexed :: State.typeRead :: q' :: above') ∧
      endOf first' = endOf (frames ++ ⟨l, State.bracket⟩ :: first) ∧
      endOf second' = endOf (frames ++ ⟨l, State.bracket⟩ :: second) ∧
      (∀ t, Succeeds text ⟨frames ++ ⟨l, State.bracket⟩ :: first, some x⟩ t ↔
        Succeeds text ⟨first', some x⟩ t) ∧
      ∀ t, Succeeds text ⟨frames ++ ⟨l, State.bracket⟩ :: second, some x⟩ t ↔
        Succeeds text ⟨second', some x⟩ t := by
  have free {rest : List Frame} (free : ∀ f ∈ rest, f.tree.IsFree) :
      ∀ f ∈ frames ++ ⟨l, State.bracket⟩ :: rest, f.tree.IsFree :=
    List.forall_mem_append.mpr ⟨bears.free, List.forall_mem_cons.mpr ⟨forks.free, free⟩⟩
  have goto := State.goto_termRead terms.isTerm
  have popped (rest : List Frame) :
      pop (insideCount frames + 1) (frames ++ ⟨l, State.bracket⟩ :: rest) =
        some (l :: (frames.map Frame.tree).reverse, rest) :=
    pop_through ⟨l, State.bracket⟩ forks.inside rest
  obtain ⟨s, reduces, stands, stands', ext, count⟩ := bears.toStands.exists_reduce_fork 24 one forks
    (by rw [terms.carries.stateOver_eq, goto])
    (by rw [types.carries.stateOver_eq, State.goto_typeRead]) (by decide)
  obtain ⟨there, ext', count', heads⟩ := stands.replace Nat.zero_lt_one
  have there' := stands'.of_head_eq ext' (heads 1 Nat.one_ne_zero)
  have bottom : (s.replace 0 1).cell 0 = .bottom :=
    (ext.trans ext').cell_eq 0 (Nat.zero_lt_of_lt forks.within) ▸ forks.bottom
  refine ⟨s.replace 0 1, _, _, advanceBy_of_reduce (by rw [bears.state_eq, entry])
      (fun _ mem => absurd mem List.not_mem_nil) reduces, ext.trans ext', by omega,
    there.bears bottom (terms.carries.putNode goto ..) (isFree_putNode (popped _) (free terms.free)),
    there'.bears bottom (types.carries.putNode State.goto_typeRead ..)
      (isFree_putNode (popped _) (free types.free)), endOf_putNode (popped _),
    endOf_putNode (popped _), succeeds_close forks bears entry ?_,
    succeeds_close forks bears entry ?_⟩
  · rw [terms.carries.topState_eq, goto]
  · rw [types.carries.topState_eq, State.goto_typeRead]

end

/-! ### Taking a lexeme in, or waiting with it -/

/-- The version `v` takes the lexeme `x` in, and so does the single stack. -/
structure Takes (text : Text) (v : Nat) (s : Stack) (frames : List Frame) (x : Lexeme) (s' : Stack)
    (frames' : List Frame) (states : List State) : Prop where
  alters : Stack.Alters v s s'
  bears : s'.Bears v 0 frames' states
  endOf_eq : endOf frames' = endOf frames + x.extent
  succeeds : ∀ t, Succeeds text ⟨frames, some x⟩ t ↔ Succeeds text ⟨frames', none⟩ t

/-- The version `v` waits, and the single stack has no way to go on with the lexeme `x`. -/
structure Waits (text : Text) (v : Nat) (s : Stack) (frames : List Frame) (x : Lexeme)
    (s' : Stack) : Prop where
  alters : Stack.Alters v s s'
  pos_eq : s'.pos v = s.pos v
  waits : ∃ y, s'.waitingFor? v = some y
  fails : ∀ t, ¬Succeeds text ⟨frames, some x⟩ t

section

variable {states above : List State} {n : State} {rule : Rule} {result : Parse} {K : Nat} {u : Token}

/-- What becomes of a version that comes to no end and to no choice. -/
theorem Deals.takes_or_waits (deals : Deals text v 0 p frames x fuel K result)
    (bears : p.stack.Bears v 0 frames states) (bottom : p.stack.cell 0 = .bottom)
    (read : x.leaf = .read u) (notEnd : u ≠ .eof) (notBracket : u ≠ .lbracket) :
    ∃ s', result = p.withStack s' ∧
      ((∃ frames' states', Takes text v p.stack frames x s' frames' states') ∨
        Waits text v p.stack frames x s') := by
  have base : topState [] = (p.stack.cell 0).state := by rw [bottom]; rfl
  have other {y : Lexeme} {w : Token} (lexeme : y = x ∨ x.isKeyword = true ∧ y = x.asIdentifier)
      (leaf : y.leaf = .read w) (ne : u ≠ w) (notName : w ≠ .identifier) : False := by
    rcases lexeme with rfl | ⟨-, rfl⟩
    · exact ne (Leaf.read.inj (read.symm.trans leaf))
    · exact notName (Leaf.read.inj leaf).symm
  cases deals with
  | @takes s' frames' states' alters bears' _ moves succeeds =>
    refine ⟨s', rfl, .inl ⟨frames', states', alters, bears', moves, fun t => ?_⟩⟩
    have same := succeeds [] t base
    rwa [List.append_nil, List.append_nil] at same
  | @waits s' y alters place fails =>
    refine ⟨s'.pause v y, rfl, .inr ⟨alters.trans (Stack.alters_pause ..),
      (Stack.pos_pause ..).trans place, ⟨y, ?_⟩, fun t => ?_⟩⟩
    · exact Stack.waitingFor?_pause (alters.count_eq ▸ bears.lt_count) y
    · have fails := fails [] t base
      rwa [List.append_nil] at fails
  | accepts comes _ leaf _ => exact (other comes.lexeme leaf notEnd (by decide)).elim
  | chooses comes _ leaf _ => exact (other comes.lexeme leaf notBracket (by decide)).elim
  | reaches comes bears' entry _ deep _ =>
    have carries := bears'.carries
    rw [comes.alters.extends'.cell_eq 0 bears.within, bottom] at carries
    obtain ⟨t, -, admits⟩ := State.exists_of_mem_entry (entry ▸ List.mem_cons_self)
    exact absurd (Carries.size_le carries admits) (Nat.not_le.mpr deep)

/-- A bracket is taken in. -/
theorem exists_bracket (text : Text) (p : Parse) (fuel : Nat)
    (bears : p.stack.Bears v 0 frames (s :: below))
    (bottom : p.stack.cell 0 = .bottom) (read : x.leaf = .read .lbracket)
    (entry : (s.row.entry .lbracket).actions = [.shift State.bracket]) :
    ∃ s', advanceBy v (fuel + 1) x p = p.withStack s' ∧
      Takes text v p.stack frames x s' (⟨x.toTree.withExtra false, State.bracket⟩ :: frames)
        (State.bracket :: s :: below) := by
  have entry' : (s.entry x.symbol).actions = [.shift State.bracket] := by
    rw [Lexeme.symbol, read, Leaf.symbol, State.entry, entry]
  obtain ⟨taken, alters⟩ := bears.shift read (entry ▸ List.mem_singleton_self _)
  have carries := bears.carries
  rw [bottom] at carries
  refine ⟨_, advanceBy_of_shift (by rw [bears.state_eq, entry']), alters, taken, rfl, fun t => ?_⟩
  exact succeeds_shift (by rw [Carries.topState_eq carries, entry'])

/-- What stands behind an index is put together first. -/
theorem exists_indexed (text : Text) (fuel : Nat)
    (bears : p.stack.Bears v 0 frames (s :: n :: q :: above)) (bottom : p.stack.cell 0 = .bottom)
    (few : p.stack.count ≤ 10) (alone : p.stack.Alone v)
    (entry : (s.entry x.symbol).actions = [.reduce rule 2 8]) (goto : q.row.goto? rule = some n) :
    ∃ s' frames', advanceBy v (fuel + 1) x p = advanceBy v fuel x (p.withStack s') ∧
      Stack.Alters v p.stack s' ∧ s'.Bears v 0 frames' (n :: q :: above) ∧
      endOf frames' = endOf frames ∧
      ∀ t, Succeeds text ⟨frames, some x⟩ t ↔ Succeeds text ⟨frames', some x⟩ t := by
  obtain ⟨p', frames', n', q', above', comes, bears', -, -, dropped, goto'⟩ :=
    exists_comesTo_reduce text fuel bears few alone entry (fun _ mem => absurd mem List.not_mem_nil)
      (by simp)
  obtain ⟨rfl, rfl⟩ := List.cons.inj dropped
  obtain rfl := Option.some.inj (goto.symm.trans goto')
  have advance_eq := comes.advance_eq
  rw [comes.withStack_eq] at advance_eq
  refine ⟨p'.stack, frames', advance_eq, comes.alters, bears', comes.endOf_eq, fun t => ?_⟩
  have same := comes.succeeds [] t (by rw [bottom]; rfl)
  rwa [List.append_nil, List.append_nil] at same

/-- Behind an index a bracket is taken in after that. -/
theorem exists_bracket_indexed (text : Text) (fuel : Nat)
    (bears : p.stack.Bears v 0 frames (s :: n :: q :: above)) (bottom : p.stack.cell 0 = .bottom)
    (few : p.stack.count ≤ 10) (alone : p.stack.Alone v) (read : x.leaf = .read .lbracket)
    (entry : (s.row.entry .lbracket).actions = [.reduce rule 2 8])
    (goto : q.row.goto? rule = some n)
    (entry' : (n.row.entry .lbracket).actions = [.shift State.bracket]) :
    ∃ s' frames', advanceBy v (fuel + 2) x p = p.withStack s' ∧
      Takes text v p.stack frames x s' (⟨x.toTree.withExtra false, State.bracket⟩ :: frames')
        (State.bracket :: n :: q :: above) ∧
      Carries startState frames' (n :: q :: above) ∧ (∀ f ∈ frames', f.tree.IsFree) ∧
      endOf frames' = endOf frames := by
  obtain ⟨s₁, frames₁, advance_eq, alters, bears₁, moves, succeeds⟩ :=
    exists_indexed text (fuel + 1) bears bottom few alone
      (by rw [Lexeme.symbol, read, Leaf.symbol, State.entry, entry]) goto
  have bottom₁ : s₁.cell 0 = .bottom := bears.bottom_eq alters.extends' bottom
  obtain ⟨s₂, advance_eq', takes⟩ := exists_bracket text (p.withStack s₁) fuel bears₁ bottom₁
    read entry'
  have carries := bears₁.carries
  rw [bottom₁] at carries
  refine ⟨s₂, frames₁, advance_eq.trans advance_eq', ⟨alters.trans takes.alters, takes.bears, ?_,
    fun t => (succeeds t).trans (takes.succeeds t)⟩, carries, bears₁.free, moves⟩
  rw [takes.endOf_eq, moves]

/-- A version over an index has no place for a lexeme if it has none when the index is put to what
stands before it. -/
theorem exists_waits (text : Text) (fuel : Nat)
    (bears : p.stack.Bears v 0 frames (s :: n :: q :: above)) (bottom : p.stack.cell 0 = .bottom)
    (few : p.stack.count ≤ 10) (alone : p.stack.Alone v) (goto : q.row.goto? rule = some n)
    (entry : (s.entry x.symbol).actions = [] ∧ renames s x = false ∨
      (s.entry x.symbol).actions = [.reduce rule 2 8])
    (entry' : (n.entry x.symbol).actions = []) (unnamed : renames n x = false) :
    ∃ s', advanceBy v (fuel + 2) x p = p.withStack s' ∧ Waits text v p.stack frames x s' := by
  have stuck {p : Parse} {frames : List Frame} {n : State} {below : List State} (fuel : Nat)
      (bears : p.stack.Bears v 0 frames (n :: below)) (bottom : p.stack.cell 0 = .bottom)
      (entry : (n.entry x.symbol).actions = []) (unnamed : renames n x = false) :
      ∃ s', advanceBy v (fuel + 1) x p = p.withStack s' ∧ Waits text v p.stack frames x s' := by
    have carries := bears.carries
    rw [bottom] at carries
    refine ⟨p.stack.pause v x, advanceBy_of_stuck (by rw [bears.state_eq, entry])
      (by rw [bears.state_eq, unnamed]) ?_, Stack.alters_pause .., Stack.pos_pause .., ⟨x, ?_⟩,
      fun t => ?_⟩
    · rw [bears.state_eq]
      exact Carries.ne_errorState carries (by decide)
    · exact Stack.waitingFor?_pause bears.lt_count x
    · have top : topState (frames ++ []) = n := by
        rw [List.append_nil]
        exact Carries.topState_eq carries
      rw [← List.append_nil frames]
      refine not_succeeds_of_empty (by rw [top, entry]) ?_
      rw [renames_eq top, unnamed, Bool.and_false]
  rcases entry with ⟨empty, unnamed'⟩ | reduces
  · exact stuck (fuel + 1) bears bottom empty unnamed'
  · obtain ⟨s₁, frames₁, advance_eq, alters, bears₁, moves, succeeds⟩ :=
      exists_indexed text (fuel + 1) bears bottom few alone reduces goto
    have bottom₁ : s₁.cell 0 = .bottom := bears.bottom_eq alters.extends' bottom
    obtain ⟨s₂, advance_eq', waits⟩ := stuck (p := p.withStack s₁) fuel bears₁ bottom₁ entry' unnamed
    refine ⟨s₂, advance_eq.trans advance_eq', alters.trans waits.alters, waits.pos_eq.trans ?_,
      waits.waits, fun t => mt (succeeds t).mp (waits.fails t)⟩
    change s₁.pos v = _
    rw [bears₁.pos_eq, bears.pos_eq, moves, bottom, bottom₁]

/-! ### What stands behind an index -/

/-- What a lexeme `x` is that an index is made before, and what it has become by then. -/
inductive StandsBehind (x y : Lexeme) : Prop where
  | bracket : x.leaf = .read .lbracket → y = x → StandsBehind x y
  | name : x.leaf = .read .identifier ∨ x.leaf = .read .inKw ∧ x.isKeyword = true →
      y = x ∨ y = x.asIdentifier → StandsBehind x y
  | other (t : Token) : x.leaf = .read t → t ≠ .lbracket → followsType t = false →
      x.isKeyword = false → y = x → StandsBehind x y

theorem standsBehind_of_reduce {x y z : Lexeme} {t : Token} {size layout : Nat}
    (rereads : Rereads x z) (lexeme : y = x ∨ x.isKeyword = true ∧ y = x.asIdentifier)
    (read : y.leaf = .read t)
    (reduces : .reduce rule size layout ∈ (State.indexRead.row.entry t).actions) :
    StandsBehind x y := by
  have plain (notKeyword : x.isKeyword = false) : StandsBehind x y := by
    have same : y = x := lexeme.resolve_right fun both => by
      rw [notKeyword] at both
      cases both.1
    rw [same] at read
    by_cases isName : t = .identifier
    · exact .name (.inl (isName ▸ read)) (.inl same)
    by_cases isBracket : t = .lbracket
    · exact .bracket (isBracket ▸ read) same
    refine .other t read isBracket ?_ notKeyword same
    simp [followsType, isName, isBracket, State.isComment_eq_false reduces (by simp)]
  cases rereads with
  | name isName _ _ => exact .name isName (lexeme.imp_right And.right)
  | same _ notKeyword _ => exact plain notKeyword
  | other _ notKeyword _ => exact plain notKeyword

variable {m : State} {t : Token}

/-- Behind an expression with an index there is no place for a name. -/
theorem exists_waits_term (text : Text) (fuel : Nat)
    (bears : p.stack.Bears v 0 frames (State.termIndexed :: m :: q :: above))
    (bottom : p.stack.cell 0 = .bottom) (few : p.stack.count ≤ 10) (alone : p.stack.Alone v)
    (isTerm : m.IsTermRead) (goto : q.row.goto? .arrayOp = some m) (read : x.leaf = .read t)
    (isName : t = .identifier ∨ t = .inKw) (behind : State.IsBehindIndex t) :
    ∃ s', advanceBy v (fuel + 2) x p = p.withStack s' ∧ Waits text v p.stack frames x s' := by
  obtain ⟨-, noName, noKeyword⟩ := State.entry_termRead isTerm
  have symbol : x.symbol = .token t := by rw [Lexeme.symbol, read, Leaf.symbol]
  have indexed := behind.2.1
  refine exists_waits text fuel bears bottom few alone goto ?_ ?_ ?_
  · rw [symbol]
    rcases isName with rfl | rfl
    · refine .inl ⟨indexed, ?_⟩
      rw [renames, read, bne_self_eq_false, Bool.and_false, Bool.false_and]
    · exact .inr indexed
  · rw [symbol]
    rcases isName with rfl | rfl
    · exact noName
    · exact noKeyword
  · have empty : (m.entry (.token .identifier)).isEmpty = true := by
      rw [Entry.isEmpty, State.entry, noName]
      rfl
    rw [renames, empty, Bool.not_true, Bool.and_false]

/-- Behind an indexed type there is no place for what no type goes on with. -/
theorem exists_waits_type (text : Text) (fuel : Nat)
    (bears : p.stack.Bears v 0 frames (State.typeIndexed :: State.typeRead :: q :: above))
    (bottom : p.stack.cell 0 = .bottom) (few : p.stack.count ≤ 10) (alone : p.stack.Alone v)
    (goto : q.row.goto? .arrayType = some State.typeRead) (plain : x.isKeyword = false)
    (other : ∀ t, x.symbol = .token t → followsType t = false) :
    ∃ s', advanceBy v (fuel + 2) x p = p.withStack s' ∧ Waits text v p.stack frames x s' := by
  have unnamed (s : State) : renames s x = false := by
    rw [renames, plain, Bool.false_and, Bool.false_and]
  have entries : ((State.typeIndexed.entry x.symbol).actions = [] ∨
      (State.typeIndexed.entry x.symbol).actions = [.reduce .arrayType 2 8]) ∧
        (State.typeRead.entry x.symbol).actions = [] := by
    generalize x.symbol = symbol at other
    cases symbol with
    | token t =>
      have follows := other t rfl
      simp only [followsType, Bool.or_eq_false_iff, beq_eq_false_iff_ne] at follows
      exact State.actions_of_not_follows follows.1.1 follows.1.2 follows.2
    | _ => exact ⟨.inl rfl, rfl⟩
  refine exists_waits text fuel bears bottom few alone goto ?_ entries.2 (unnamed _)
  exact entries.1.imp_left fun empty => ⟨empty, unnamed _⟩

/-- Behind an indexed type a name is taken in as a name, even where it was taken for a keyword. -/
theorem succeeds_name {z : Lexeme} {frames : List Frame}
    (carries : Carries startState frames (State.typeIndexed :: State.typeRead :: q :: above))
    (goto : q.row.goto? .arrayType = some State.typeRead)
    (isName : x.leaf = .read .identifier ∨ x.leaf = .read .inKw ∧ x.isKeyword = true)
    (read : z.leaf = .read .identifier) (same : z.toTree = x.asIdentifier.toTree) (t : Tree) :
    Succeeds text ⟨frames, some x⟩ t ↔ Succeeds text ⟨frames, some z⟩ t := by
  have indexed : (State.typeIndexed.row.entry .identifier).actions = [.reduce .arrayType 2 8] := by
    rw [State.entry_typeIndexed (.inl rfl), Entry.shared]
  have typed := State.entry_typeRead.1
  have admits : .reduce .arrayType 2 8 ∈ (State.typeIndexed.row.entry .identifier).actions := by
    rw [indexed]
    exact List.mem_singleton_self _
  obtain ⟨trees, left, q', above', n, popped, dropped, carriesLeft, goto', carries', -⟩ :=
    carries.reduce admits (by simp)
  obtain ⟨rfl, rfl⟩ := List.cons.inj dropped
  obtain rfl := Option.some.inj (goto.symm.trans goto')
  have reduces {w : Lexeme}
      (entry : (State.typeIndexed.entry w.symbol).actions = [.reduce .arrayType 2 8]) :
      Succeeds text ⟨frames, some w⟩ t ↔
        Succeeds text ⟨putNode .arrayType 8 trees State.typeRead left, some w⟩ t :=
    succeeds_reduce (by rw [carries.topState_eq, entry]) (fun _ mem => absurd mem List.not_mem_nil)
      popped (by rw [carriesLeft.topState_eq, goto])
  have name {w : Lexeme} (read : w.leaf = .read .identifier) : Succeeds text ⟨frames, some w⟩ t ↔
      Succeeds text ⟨⟨w.toTree.withExtra false, 101⟩ ::
        putNode .arrayType 8 trees State.typeRead left, none⟩ t := by
    have symbol : w.symbol = .token .identifier := by rw [Lexeme.symbol, read, Leaf.symbol]
    refine (reduces (by rw [symbol, State.entry, indexed])).trans (succeeds_shift ?_)
    rw [carries'.topState_eq, symbol, State.entry, typed]
  have renamed : Succeeds text ⟨frames, some x⟩ t ↔
      Succeeds text ⟨frames, some x.asIdentifier⟩ t := by
    rcases isName with isName | ⟨isIn, keyword⟩
    · have : x.asIdentifier = x := by rw [Lexeme.asIdentifier, ← isName]
      rw [this]
    · have symbol : x.symbol = .token .inKw := by rw [Lexeme.symbol, isIn, Leaf.symbol]
      obtain ⟨entry, nothing⟩ := State.actions_of_not_follows (t := .inKw) (by decide) (by decide) rfl
      have rename {frames : List Frame} {s : State} (top : topState frames = s)
          (empty : (s.row.entry .inKw).actions = [])
          (named : (s.row.entry .identifier).actions ≠ []) :
          Succeeds text ⟨frames, some x⟩ t ↔ Succeeds text ⟨frames, some x.asIdentifier⟩ t := by
        refine succeeds_rename ?_
        simp [Config.renames, Config.entryFor, top, symbol, State.entry, Entry.isEmpty, empty,
          keyword, isIn, named]
      rcases entry with empty | reduced
      · exact rename carries.topState_eq empty (by rw [indexed]; exact List.cons_ne_nil _ _)
      · rw [reduces (by rw [symbol, State.entry, reduced]), reduces (w := x.asIdentifier)
          (by rw [show x.asIdentifier.symbol = .token .identifier from rfl, State.entry, indexed])]
        exact rename carries'.topState_eq nothing (by rw [typed]; exact List.cons_ne_nil _ _)
  rw [renamed, name rfl, name read, same]

end

end Parse

end SusSyntax
