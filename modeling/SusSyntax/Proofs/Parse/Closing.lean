import SusSyntax.Proofs.Parse.Turn

/-!
A round over a fork.

As long as the bracket is open, one version does what the single stack does in both of its ways. When
it is closed there are two versions, each over an index (`Indexed`). What is read next decides between
them: a name leaves the type alone (`Begins.turn_name`), another bracket both
(`Begins.turn_bracket`), and anything else the expression (`Begins.turn_other`).
-/

namespace SusSyntax

open Grammar Lexical Plain

namespace Parse

variable {text : Text} {p : Parse} {furthest : Nat} {x y z : Lexeme} {n : State}
  {frames first second : List Frame} {s s₁ s₂ : Stack} {pos : Extent} {states : List State}

/-! ### Behind an index -/

/-- There are two versions, each over an index, where the lexeme `x` is read. -/
structure Indexed (text : Text) (pos : Extent) (s : Stack) (first second : List Frame) (x : Lexeme)
    (m q q' : State) (above above' : List State) : Prop
    extends Parts text pos s first second x where
  bears : s.Bears 0 0 first (State.termIndexed :: m :: q :: above)
  bears' : s.Bears 1 0 second (State.typeIndexed :: State.typeRead :: q' :: above')
  isTerm : m.IsTermRead
  goto : q.row.goto? .arrayOp = some m
  goto' : q'.row.goto? .arrayType = some State.typeRead

variable {m q q' : State} {above above' : List State} {t : Token} {fuel : Nat}

theorem eq_zero_or_one (two : s.count = 2) {u : Nat} (active : s.isActive u = true) :
    u = 0 ∨ u = 1 := by
  have := (Stack.isAt_of_isActive active).lt_count
  omega

/-- The first version cannot be merged into the second one. -/
theorem Indexed.alone (h : Indexed text pos s first second x m q q' above above') :
    s.Alone 0 := by
  intro u ne active
  obtain rfl := (eq_zero_or_one h.two active).resolve_left ne
  refine ⟨h.bears'.inside, fun _ => ⟨h.bears'.state_eq, ?_⟩⟩
  rw [h.bears.state_eq]
  decide

/-- What is known of the second version when the first one was advanced. -/
structure Follows (pos : Extent) (s₁ : Stack) (second : List Frame) (q' : State)
    (above' : List State) : Prop where
  few : s₁.count ≤ 10
  bottom : s₁.cell 0 = .bottom
  bears : s₁.Bears 1 0 second (State.typeIndexed :: State.typeRead :: q' :: above')
  alone : s₁.Alone 1
  place : s₁.pos 1 = pos

theorem Indexed.follows_of (h : Indexed text pos s first second x m q q' above above')
    (alters : Stack.Alters 0 s s₁)
    (apart : s₁.isActive 0 = true → (s₁.head 0).cell < s₁.cells.size ∧
      (s₁.pos 0).bytes ≠ (s₁.pos 1).bytes) :
    Follows pos s₁ second q' above' := by
  have two := alters.count_eq.trans h.two
  have bottom : s₁.cell 0 = .bottom := h.bears.bottom_eq alters.extends' h.bottom
  have bears := h.bears'.alters alters Nat.one_ne_zero
  refine ⟨Nat.le_trans (Nat.le_of_eq two) (by decide), bottom, bears, fun u ne active => ?_,
    (pos_eq_of_stands bears.toStands bottom).trans h.endOf_eq'⟩
  obtain rfl := (eq_zero_or_one two active).resolve_right ne
  exact ⟨(apart active).1, fun same => absurd same (apart active).2⟩

theorem Indexed.follows_of_takes (h : Indexed text pos s first second x m q q' above above')
    (takes : Takes text 0 s first x s₁ frames states) (covers : 0 < x.extent.bytes) :
    Follows pos s₁ second q' above' := by
  refine h.follows_of takes.alters fun _ => ⟨takes.bears.inside, ?_⟩
  have bears := h.bears'.alters takes.alters Nat.one_ne_zero
  rw [takes.pos_eq h.stands h.bottom, pos_eq_of_stands bears.toStands (takes.bottom h.stands h.bottom),
    h.endOf_eq, h.endOf_eq', Extent.bytes_add]
  omega

theorem Indexed.follows_of_waits (h : Indexed text pos s first second x m q q' above above')
    (waits : Waits text 0 s first x s₁) : Follows pos s₁ second q' above' := by
  refine h.follows_of waits.alters fun active => ?_
  obtain ⟨y, waiting⟩ := waits.waits
  rw [isActive_of_waitingFor? waiting] at active
  cases active

theorem exists_patience (s : Stack) : ∃ fuel, s.patience = fuel + 2 :=
  ⟨s.patience - 2, by
    rw [Stack.patience]
    omega⟩

/-- Both versions take a bracket in. -/
theorem Begins.turn_bracket (h : Begins text p furthest) (active : p.stack.isActive 0 = true)
    (indexed : Indexed text (p.stack.pos 0) s first second x m q q' above above')
    (advance : p.advance 0 =
      advanceBy 0 (fuel + 2) x ((p.noting (p.stack.pos 0).bytes x).withStack s))
    (read : x.leaf = .read .lbracket) (covers : 0 < x.size.bytes)
    (behind : State.IsBehindIndex .lbracket) (limit : Nat) :
    Turn text (p.stack.pos 0).bytes (advanceFrom (limit + 3) (limit + 3) 0 (p, furthest)) := by
  obtain ⟨s₁, lower, advance₁, takes, carries, free, moves⟩ := exists_bracket_indexed text fuel
    (p := (p.noting (p.stack.pos 0).bytes x).withStack s) indexed.bears indexed.bottom
    (Nat.le_trans (Nat.le_of_eq indexed.two) (by decide)) indexed.alone read behind.2.1 indexed.goto
    (State.entry_termRead indexed.isTerm).1
  have follows := indexed.follows_of_takes takes (extent_pos covers)
  have entry := State.entry_typeIndexed (t := .lbracket) (.inr rfl)
  obtain ⟨z, advance₂, again | ⟨-, anew⟩⟩ :=
    h.exists_advance_second (x := x) follows.place follows.bears.state_eq
  · subst again
    obtain ⟨fuel', enough⟩ := exists_patience s₁
    obtain ⟨s₂, upper, advance₃, takes', carries', free', moves'⟩ := exists_bracket_indexed text fuel'
      (p := (p.noting (p.stack.pos 0).bytes z).withStack s₁) follows.bears follows.bottom follows.few
      follows.alone read (by rw [entry, Entry.shared]) indexed.goto'
      (by rw [State.entry_typeRead.2, Entry.shared])
    refine h.turn_both active indexed.toParts (advance.trans advance₁)
      (advance₂.trans (enough ▸ advance₃)) takes takes' ⟨carries, free, indexed.isTerm, indexed.goto⟩
      ⟨carries', free', indexed.goto'⟩ ?_ (extent_pos covers) limit
    rw [moves, moves', indexed.endOf_eq, indexed.endOf_eq']
  · rw [canReuse_of_reusable (by
      rw [Lexeme.symbol, read, Leaf.symbol, State.entry, entry, Entry.shared]) covers] at anew
    cases anew

/-- What was read behind the index as a name is that name for the type too, also where it was read as
a keyword. -/
theorem Begins.reads_name (h : Begins text p furthest)
    (isRead : x = scan text State.indexRead (p.stack.pos 0))
    (isName : x.leaf = .read .identifier ∨ x.leaf = .read .inKw ∧ x.isKeyword = true)
    (which : z = x ∨
      z = scan text State.typeIndexed (p.stack.pos 0) ∧ canReuse State.typeIndexed x = false) :
    ∃ u n, z = scan text n (p.stack.pos 0) ∧ z.leaf = .read u ∧ (u = .identifier ∨ u = .inKw) ∧
      (z = x ∨ z.leaf = .read .identifier ∧ z.toTree = x.asIdentifier.toTree) := by
  rcases which with rfl | ⟨rfl, anew⟩
  · rcases isName with leaf | ⟨leaf, -⟩
    · exact ⟨_, _, isRead, leaf, .inl rfl, .inl rfl⟩
    · exact ⟨_, _, isRead, leaf, .inr rfl, .inl rfl⟩
  · -- only a keyword is read once more
    have keyword : x.isKeyword = true := by
      refine (isName.resolve_left fun leaf => ?_).2
      have covers : 0 < x.size.bytes := by
        subst isRead
        exact size_pos_of_scan h.place leaf (by decide)
      rw [canReuse_of_reusable (by
        rw [Lexeme.symbol, leaf, Leaf.symbol, State.entry, State.entry_typeIndexed (.inl rfl),
          Entry.shared]) covers] at anew
      cases anew
    have rereads := scan_typeIndexed text (p.stack.pos 0)
    rw [← isRead] at rereads
    cases rereads with
    | name _ leaf same => exact ⟨_, _, rfl, leaf, .inl rfl, .inr ⟨leaf, same⟩⟩
    | same _ plain _ | other _ plain _ => rw [keyword] at plain; cases plain

/-- A name is taken in behind the type alone, whether or not it was read as a keyword. -/
theorem Begins.turn_name (h : Begins text p furthest) (active : p.stack.isActive 0 = true)
    (indexed : Indexed text (p.stack.pos 0) s first second y m q q' above above')
    (isRead : x = scan text State.indexRead (p.stack.pos 0))
    (advance : p.advance 0 =
      advanceBy 0 (fuel + 2) y ((p.noting (p.stack.pos 0).bytes x).withStack s))
    (isName : x.leaf = .read .identifier ∨ x.leaf = .read .inKw ∧ x.isKeyword = true)
    (lexeme : y = x ∨ y = x.asIdentifier) (read : y.leaf = .read t)
    (behind : State.IsBehindIndex t) (limit : Nat) :
    Turn text (p.stack.pos 0).bytes (advanceFrom (limit + 3) (limit + 3) 0 (p, furthest)) := by
  have token : t = .identifier ∨ t = .inKw := by
    rcases lexeme with rfl | rfl
    · rcases isName with leaf | ⟨leaf, -⟩
      · exact .inl (Leaf.read.inj (read.symm.trans leaf))
      · exact .inr (Leaf.read.inj (read.symm.trans leaf))
    · exact .inl (Leaf.read.inj read).symm
  obtain ⟨s₁, advance₁, waits⟩ := exists_waits_term text fuel
    (p := (p.noting (p.stack.pos 0).bytes x).withStack s) indexed.bears indexed.bottom
    (Nat.le_trans (Nat.le_of_eq indexed.two) (by decide)) indexed.alone indexed.isTerm indexed.goto
    read token behind
  have follows := indexed.follows_of_waits waits
  have carries := follows.bears.carries
  rw [follows.bottom] at carries
  have named {z : Lexeme} (leaf : z.leaf = .read .identifier)
      (same : z.toTree = x.asIdentifier.toTree) (t : Tree) :
      Succeeds text ⟨second, some x⟩ t ↔ Succeeds text ⟨second, some z⟩ t :=
    succeeds_name carries indexed.goto' isName leaf same t
  have kept (t : Tree) : Succeeds text ⟨second, some y⟩ t ↔ Succeeds text ⟨second, some x⟩ t := by
    rcases lexeme with rfl | rfl
    · rfl
    · exact (named rfl rfl t).symm
  obtain ⟨z, advance₂, which⟩ :=
    h.exists_advance_second (x := x) follows.place follows.bears.state_eq
  obtain ⟨u, n, isRead', leaf, isU, spelled⟩ := h.reads_name isRead isName which
  have same (t : Tree) : Succeeds text ⟨second, some x⟩ t ↔ Succeeds text ⟨second, some z⟩ t := by
    rcases spelled with rfl | ⟨leaf, same⟩
    · rfl
    · exact named leaf same t
  have notEnd : u ≠ .eof := by rcases isU with rfl | rfl <;> decide
  have notBracket : u ≠ .lbracket := by rcases isU with rfl | rfl <;> decide
  have covers : 0 < z.size.bytes := by
    subst isRead'
    exact size_pos_of_scan h.place leaf notEnd
  have deals : Deals text 1 0 ((p.noting (p.stack.pos 0).bytes z).withStack s₁) second z s₁.patience
      (0 + 1) (((p.noting (p.stack.pos 0).bytes x).withStack s₁).advance 1) := by
    rw [advance₂]
    refine deals_advanceBy follows.bears (ne_errorState_of_bottom follows.bottom) follows.few
      follows.alone (isRead' ▸ Lexeme.isReadAt_scan text n (p.stack.pos 0)) ?_
    have := follows.bears.load_le
    rw [Stack.patience]
    split <;> omega
  obtain ⟨s₂, advance₃, ⟨frames', states', takes⟩ | waits'⟩ :=
    deals.takes_or_waits follows.bears follows.bottom leaf notEnd notBracket
  · obtain ⟨n', below', rfl⟩ := takes.bears.carries.exists_eq_cons
    exact h.turn_second active indexed.toParts (advance.trans advance₁) advance₃ waits takes
      (extent_pos covers) (fun t => (kept t).trans (same t)) limit
  · exact h.turn_neither active indexed.toParts (advance.trans advance₁) advance₃ waits waits'
      (fun t => mt ((kept t).trans (same t)).mp (waits'.fails t)) limit

/-- What no type goes on with stays so when it is read for the type. -/
theorem reads_other (isRead : x = scan text State.indexRead pos) (read : x.leaf = .read t)
    (other : followsType t = false) (plain : x.isKeyword = false)
    (which : z = x ∨ z = scan text State.typeIndexed pos ∧ canReuse State.typeIndexed x = false) :
    z.isKeyword = false ∧ ∀ u, z.symbol = .token u → followsType u = false := by
  rcases which with rfl | ⟨isAnew, -⟩
  · refine ⟨plain, fun u same => ?_⟩
    rw [Lexeme.symbol, read] at same
    rwa [← Symbol.token.inj same]
  · have leaf {u : Token} (same : z.symbol = .token u) : z.leaf = .read u :=
      leaf_eq_of_symbol (b := ⟨errorState, pos, 0⟩)
        (isAnew ▸ Lexeme.isReadAt_scan text State.typeIndexed pos) same
    have rereads := scan_typeIndexed text pos
    rw [← isRead, ← isAnew] at rereads
    cases rereads with
    | name isName _ _ =>
      rcases isName with isName | ⟨-, keyword⟩
      · rw [Leaf.read.inj (read.symm.trans isName)] at other
        cases other
      · rw [keyword] at plain
        cases plain
    | same kept _ plain' =>
      refine ⟨plain', fun u same => ?_⟩
      rwa [← Leaf.read.inj (read.symm.trans (kept.symm.trans (leaf same)))]
    | other nothing _ plain' => exact ⟨plain', fun u same => nothing u (leaf same)⟩

/-- Anything else is taken in behind the expression alone. -/
theorem Begins.turn_other (h : Begins text p furthest) (active : p.stack.isActive 0 = true)
    (indexed : Indexed text (p.stack.pos 0) s first second x m q q' above above')
    (isRead : x = scan text State.indexRead (p.stack.pos 0))
    (advance : p.advance 0 =
      advanceBy 0 fuel x ((p.noting (p.stack.pos 0).bytes x).withStack s))
    (enough : load (State.termIndexed :: m :: q :: above) + 2 ≤ fuel)
    (read : x.leaf = .read t) (notBracket : t ≠ .lbracket) (other : followsType t = false)
    (plain : x.isKeyword = false) (behind : State.IsBehindIndex t) (limit : Nat) :
    Turn text (p.stack.pos 0).bytes (advanceFrom (limit + 3) (limit + 3) 0 (p, furthest)) := by
  have covers : 0 < x.size.bytes := by
    subst isRead
    exact size_pos_of_scan h.place read behind.1
  have deals : Deals text 0 0 ((p.noting (p.stack.pos 0).bytes x).withStack s) first x fuel
      (0 + 1) (p.advance 0) := by
    rw [advance]
    refine deals_advanceBy indexed.bears (ne_errorState_of_bottom indexed.bottom)
      (Nat.le_trans (Nat.le_of_eq indexed.two) (by decide)) indexed.alone
      (isRead ▸ Lexeme.isReadAt_scan text State.indexRead (p.stack.pos 0)) ?_
    split <;> omega
  obtain ⟨s₁, advance₁, which⟩ :=
    deals.takes_or_waits indexed.bears indexed.bottom read behind.1 notBracket
  have follows : Follows (p.stack.pos 0) s₁ second q' above' := by
    rcases which with ⟨frames, states, takes⟩ | waits
    · exact indexed.follows_of_takes takes (extent_pos covers)
    · exact indexed.follows_of_waits waits
  have stuck (fuel : Nat) {z : Lexeme} (plain : z.isKeyword = false)
      (other : ∀ t, z.symbol = .token t → followsType t = false) := exists_waits_type text fuel
    (p := (p.noting (p.stack.pos 0).bytes z).withStack s₁) follows.bears follows.bottom follows.few
    follows.alone indexed.goto' plain other
  obtain ⟨_, -, fails⟩ := stuck 0 plain (reads_other isRead read other plain (.inl rfl)).2
  obtain ⟨z, advance₂, which'⟩ :=
    h.exists_advance_second (x := x) follows.place follows.bears.state_eq
  obtain ⟨fuel', patience⟩ := exists_patience s₁
  obtain ⟨plain', other'⟩ := reads_other isRead read other plain which'
  obtain ⟨s₂, advance₃, waits'⟩ := stuck fuel' plain' other'
  have advance' := advance₂.trans (patience ▸ advance₃)
  rcases which with ⟨frames, states, takes⟩ | waits
  · obtain ⟨n', below', rfl⟩ := takes.bears.carries.exists_eq_cons
    exact h.turn_first active indexed.toParts advance₁ advance' takes (extent_pos covers) waits'
      fails.fails limit
  · exact h.turn_neither active indexed.toParts advance₁ advance' waits waits' fails.fails limit

/-! ### A version over a fork -/

/-- Over an opening bracket there are states in brackets only. -/
theorem isBracketed_of_carries {below : List State}
    (h : Carries State.bracket frames (n :: below)) : n.isBracketed = true := by
  obtain ⟨xs, -, free, way⟩ := h.exists_through_base
  have ne : State.bracket.through xs ≠ errorState := way ▸ h.ne_errorState (by decide)
  exact way ▸ State.isBracketed_through State.isBracketed_bracket free ne

/-- A reduction over an opening bracket that reaches below it closes the bracket. -/
theorem exists_closing {sym : Symbol} {rule : Rule} {size layout : Nat} {others : List Action}
    {below : List State} (carries : Carries State.bracket frames (n :: below))
    (entry : (n.entry sym).actions = .reduce rule size layout :: others)
    (deep : below.length < size) : ∃ t, sym = .token t ∧ n = State.indexRead ∧
      (State.indexRead.row.entry t).actions =
        [.reduce .arrayBracketExpression (insideCount frames + 1) 24] := by
  obtain ⟨t, rfl, admits⟩ := State.exists_of_mem_entry (entry ▸ List.mem_cons_self)
  obtain ⟨rfl, rfl, depth⟩ := carries.eq_of_lt_size admits deep
  obtain rfl := State.eq_indexRead admits
  have count : insideCount frames + 1 = 3 := by
    rw [carries.insideCount_eq, List.length_cons, depth]
  refine ⟨t, rfl, rfl, ?_⟩
  rcases State.actions_indexRead t with none | extra | closes
  · rw [none] at admits
    cases admits
  · rw [extra] at admits
    cases List.mem_singleton.mp admits
  · rw [closes, count]

theorem endOf_over (frames : List Frame) (l : Tree) (state : State) (rest : List Frame) :
    endOf (frames ++ ⟨l, state⟩ :: rest) = endOf rest + l.extent + endOf frames := by
  have alone := endOf_append frames []
  rw [List.append_nil, endOf, Extent.zero_add] at alone
  rw [endOf_append, endOf, alone]

variable {fork a b : Nat} {l : Tree} {below : List State}

/-- When the bracket is closed the version becomes two again. -/
theorem Begins.turn_closes (h : Begins text p furthest) (active : p.stack.isActive 0 = true)
    (forks : s.Forks fork a b l first second) (terms : EndsInTerm first m q above)
    (types : EndsInType second q' above') (places : endOf first = endOf second)
    (isRead : x = scan text State.indexRead (p.stack.pos 0))
    (advance : p.advance 0 =
      advanceBy 0 (fuel + 1) y ((p.noting (p.stack.pos 0).bytes x).withStack s))
    (enough : 8 * first.length + 30 ≤ fuel)
    (bears : s.Bears 0 fork frames (State.indexRead :: below)) (one : s.count = 1)
    (place : endOf (frames ++ ⟨l, State.bracket⟩ :: first) = p.stack.pos 0)
    (lexeme : y = x ∨ x.isKeyword = true ∧ y = x.asIdentifier) (read : y.leaf = .read t)
    (entry : (State.indexRead.row.entry t).actions =
      [.reduce .arrayBracketExpression (insideCount frames + 1) 24])
    (agrees : ∀ u, Accepts text u ↔
      Succeeds text ⟨frames ++ ⟨l, State.bracket⟩ :: first, some y⟩ u ∨
        Succeeds text ⟨frames ++ ⟨l, State.bracket⟩ :: second, some y⟩ u) (limit : Nat) :
    Turn text (p.stack.pos 0).bytes (advanceFrom (limit + 3) (limit + 3) 0 (p, furthest)) := by
  have reduces : .reduce .arrayBracketExpression (insideCount frames + 1) 24 ∈
      (State.indexRead.row.entry t).actions := by
    rw [entry]
    exact List.mem_singleton_self _
  have behind := State.isBehindIndex_of_reduce reduces
  obtain ⟨s₀, first', second', closes, ext, two, bears₀, bears₁, moves, moves', succeeds, succeeds'⟩ :=
    exists_close text ((p.noting (p.stack.pos 0).bytes x).withStack s) fuel forks terms types
      bears one (by rw [Lexeme.symbol, read, Leaf.symbol, State.entry, entry])
  have bottom : s₀.cell 0 = .bottom :=
    (ext.cell_eq 0 (Nat.zero_lt_of_lt forks.within)).trans forks.bottom
  have indexed : Indexed text (p.stack.pos 0) s₀ first' second' y m q q' above above' := by
    refine ⟨⟨two, bottom, bears₀.toStands, bears₁.toStands, moves.trans place, ?_, fun u => ?_⟩,
      bears₀, bears₁, terms.isTerm, terms.goto, types.goto⟩
    · rw [moves', ← place, endOf_over, endOf_over, places]
    · rw [agrees, succeeds, succeeds']
  have loaded : load (State.termIndexed :: m :: q :: above) ≤ 8 * first.length + 25 := by
    have inside : insideCount first ≤ first.length := List.countP_le_length
    have count := terms.carries.insideCount_eq
    rw [load, List.length_cons, List.headD_cons]
    have weight : State.termIndexed.weight = 0 := rfl
    omega
  have rereads := scan_typeIndexed text (p.stack.pos 0)
  rw [← isRead] at rereads
  cases standsBehind_of_reduce rereads lexeme read reduces with
  | bracket leaf same =>
    subst same
    obtain rfl := Leaf.read.inj (leaf.symm.trans read)
    have covers : 0 < y.size.bytes := by
      rw [isRead]
      exact size_pos_of_scan h.place (isRead ▸ leaf) (by decide)
    obtain ⟨fuel', rfl⟩ : ∃ fuel', fuel = fuel' + 2 := ⟨fuel - 2, by omega⟩
    exact h.turn_bracket active indexed (advance.trans closes) leaf covers behind limit
  | name isName which =>
    obtain ⟨fuel', rfl⟩ : ∃ fuel', fuel = fuel' + 2 := ⟨fuel - 2, by omega⟩
    exact h.turn_name active indexed isRead (advance.trans closes) isName which read behind limit
  | other u leaf notBracket other plain same =>
    subst same
    obtain rfl := Leaf.read.inj (leaf.symm.trans read)
    exact h.turn_other active indexed isRead (advance.trans closes) (by omega) leaf notBracket other
      plain behind limit

theorem Begins.turn_forked (h : Begins text p furthest)
    (forks : p.stack.Forks fork a b l first second) (terms : EndsInTerm first m q above)
    (types : EndsInType second q' above') (places : endOf first = endOf second)
    (bears : p.stack.Bears 0 fork frames (n :: below))
    (agrees : ∀ t, Accepts text t ↔
      Succeeds text ⟨frames ++ ⟨l, State.bracket⟩ :: first, none⟩ t ∨
        Succeeds text ⟨frames ++ ⟨l, State.bracket⟩ :: second, none⟩ t) (limit : Nat) :
    Turn text (p.stack.pos 0).bytes (advanceFrom (limit + 3) (limit + 3) 0 (p, furthest)) := by
  have active := isActive_of_stands bears.toStands
  have covers := h.size_pos (n := n)
  have notError : (p.stack.cell fork).state ≠ errorState := by
    rw [forks.state_eq]
    decide
  have base (rest : List Frame) :
      topState (⟨l, State.bracket⟩ :: rest) = (p.stack.cell fork).state := forks.state_eq.symm
  have place : endOf (frames ++ ⟨l, State.bracket⟩ :: first) = p.stack.pos 0 := by
    rw [endOf_over, bears.pos_eq, forks.pos_eq]
  have place' : endOf (frames ++ ⟨l, State.bracket⟩ :: second) = p.stack.pos 0 := by
    rw [← place, endOf_over, endOf_over, places]
  have agrees' (t : Tree) : Accepts text t ↔
      Succeeds text ⟨frames ++ ⟨l, State.bracket⟩ :: first,
          some (scan text n (p.stack.pos 0))⟩ t ∨
        Succeeds text ⟨frames ++ ⟨l, State.bracket⟩ :: second,
          some (scan text n (p.stack.pos 0))⟩ t := by
    rw [agrees, succeeds_scan (topState_of_bears bears (base _)) place,
      succeeds_scan (topState_of_bears bears (base _)) place']
  have deals := h.deals bears notError
  generalize advance : p.advance 0 = result at deals
  generalize isRead : scan text n (p.stack.pos 0) = x at *
  have bracketed {q : Parse} {frames' : List Frame} {n' : State} {below' : List State}
      (alters : Stack.Alters 0 p.stack q.stack) (bears' : q.stack.Bears 0 fork frames' (n' :: below')) :
      Carries State.bracket frames' (n' :: below') := by
    have carries := bears'.carries
    rwa [alters.extends'.cell_eq fork bears.within, forks.state_eq] at carries
  cases deals with
  | @takes s' frames' states alters bears' taken moves succeeds =>
    obtain ⟨n', below', rfl⟩ := bears'.carries.exists_eq_cons
    have forks' := forks.extend alters.extends'
    refine h.turn_goes active advance (alters.count_eq.trans h.one)
      (bears'.isSafe forks'.cost_eq (by rw [forks'.state_eq]; decide)) ?_
      (.forked forks' terms types places bears' fun t => ?_) limit
    · rw [bears'.pos_eq, forks'.pos_eq, bears.pos_eq, forks.pos_eq, moves, ← Extent.add_assoc]
      exact Nat.lt_add_of_pos_right (extent_pos (covers taken))
    · rw [agrees', succeeds _ t (base _), succeeds _ t (base _)]
  | @waits s' y alters _ fails =>
    refine h.turn_fails active advance
      ((Stack.alters_pause ..).count_eq.trans (alters.count_eq.trans h.one))
      (Stack.waitingFor?_pause (alters.count_eq ▸ bears.lt_count) y) (fun t accepts => ?_) limit
    exact ((agrees' t).mp accepts).elim (fails _ t (base _)) (fails _ t (base _))
  | accepts comes bears' _ _ =>
    have inside := isBracketed_of_carries (bracketed comes.alters bears')
    rw [State.acceptState_eq] at inside
    cases inside
  | chooses comes bears' _ _ =>
    exact absurd rfl (State.ne_choice_of_isBracketed (isBracketed_of_carries
      (bracketed comes.alters bears')))
  | @reaches p' frames' n' below' y fuel' rule size layout others comes bears' entry _ deep le =>
    have carries := bracketed comes.alters bears'
    obtain ⟨t, symbol, rfl, closes⟩ := exists_closing carries entry deep
    -- no reduction leads to the state behind the bracket, so the lexeme was read there
    have here : n = State.indexRead := by
      have reached : stateOver (p.stack.cell fork).state frames' = State.indexRead := by
        rw [forks.state_eq, carries.stateOver_eq]
      exact bears.carries.stateOver_eq.symm.trans (comes.top reached)
    have readAt : y.IsReadAt text (p.stack.pos 0) :=
      comes.isReadAt (isRead ▸ Lexeme.isReadAt_scan ..)
    have room := forks.first.length_le
    obtain ⟨fuel'', rfl⟩ : ∃ fuel'', fuel' = fuel'' + 1 := ⟨fuel' - 1, by omega⟩
    rw [comes.withStack_eq] at advance
    refine h.turn_closes active (forks.extend comes.alters.extends') terms types places
      (here ▸ isRead).symm advance (by omega) bears' (comes.alters.count_eq.trans h.one) ?_
      comes.lexeme (leaf_eq_of_symbol (b := ⟨errorState, p.stack.pos 0, 0⟩) readAt symbol) closes
      (fun u => ?_) limit
    · rw [endOf_over, comes.endOf_eq, ← endOf_over, place]
    · rw [agrees', comes.succeeds _ u (base _), comes.succeeds _ u (base _)]

end Parse

end SusSyntax
