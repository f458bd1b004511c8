import SusSyntax.Proofs.Lexical.Modes
import SusSyntax.Proofs.Parse.Line
import SusSyntax.Proofs.Parse.Run

/-!
One lexeme over a line.

A version over a line deals with a lexeme as the single stack does. What each kind of entry makes of
it is said once (the `advanceBy_of_…` lemmas). From these, a version makes its reductions until it
comes to an entry that is not a reduction on the line, in the number of steps that it has
(`exists_stop`); what the single stack can be accepted with stays the same all the while.
-/

namespace SusSyntax

open Grammar Lexical Plain

namespace Parse

variable {p : Parse} {v fuel : Nat} {x : Lexeme}

/-! ### One step -/

theorem advanceBy_of_shift {n : State}
    (entry : ((p.stack.state v).entry x.symbol).actions = [.shift n]) :
    advanceBy v (fuel + 1) x p =
      p.withStack (p.stack.push v (some (x.toTree.withExtra false)) n) := by
  rw [advanceBy, entry, act]

theorem advanceBy_of_shiftExtra
    (entry : ((p.stack.state v).entry x.symbol).actions = [.shiftExtra]) :
    advanceBy v (fuel + 1) x p =
      p.withStack (p.stack.push v (some (x.toTree.withExtra true)) (p.stack.state v)) := by
  rw [advanceBy, entry, act]

theorem advanceBy_of_accept
    (entry : ((p.stack.state v).entry x.symbol).actions = [.accept]) :
    advanceBy v (fuel + 1) x p = p.accept v x := by
  rw [advanceBy, entry, act]

theorem act_of_superfluous {others : List Action} (superfluous : ∀ a ∈ others, ∃ n, a = .shiftRepeat n)
    (p : Parse) (new? : Option Nat) : act v x others p new? = .reduced p new? := by
  induction others with
  | nil => rfl
  | cons a others ih =>
    obtain ⟨n, rfl⟩ := superfluous a List.mem_cons_self
    exact ih fun b mem => superfluous b (List.mem_cons_of_mem _ mem)

theorem advanceBy_of_reduce {rule : Rule} {size layout new : Nat} {others : List Action} {s : Stack}
    (entry : ((p.stack.state v).entry x.symbol).actions = .reduce rule size layout :: others)
    (superfluous : ∀ a ∈ others, ∃ n, a = .shiftRepeat n)
    (reduces : p.stack.reduce v rule size layout = (s, some new)) :
    advanceBy v (fuel + 1) x p = advanceBy v fuel x (p.withStack (s.replace v new)) := by
  rw [advanceBy, entry, act, reduces]
  dsimp only
  rw [act_of_superfluous superfluous]
  rfl

/-- Of two reductions, the version that the second one gave goes on in the place of the old one. -/
theorem advanceBy_of_both {rule rule' : Rule} {size size' layout layout' new new' : Nat} {s s' : Stack}
    (entry : ((p.stack.state v).entry x.symbol).actions =
      [.reduce rule size layout, .reduce rule' size' layout'])
    (reduces : p.stack.reduce v rule size layout = (s, some new))
    (reduces' : s.reduce v rule' size' layout' = (s', some new')) :
    advanceBy v (fuel + 1) x p = advanceBy v fuel x (p.withStack (s'.replace v new')) := by
  rw [advanceBy, entry, act, reduces]
  dsimp only
  rw [act, show (p.withStack s).stack = s from rfl, reduces']
  rfl

/-- Whether a lexeme without a place in a state is a keyword that has one as a name. -/
def renames (s : State) (x : Lexeme) : Bool :=
  x.isKeyword && x.leaf != .read .identifier && !(s.entry (.token .identifier)).isEmpty

theorem advanceBy_of_renames (entry : ((p.stack.state v).entry x.symbol).actions = [])
    (named : renames (p.stack.state v) x = true) :
    advanceBy v (fuel + 1) x p = advanceBy v fuel x.asIdentifier p := by
  rw [advanceBy, entry, act]
  exact if_pos named

theorem advanceBy_of_stuck (entry : ((p.stack.state v).entry x.symbol).actions = [])
    (unnamed : renames (p.stack.state v) x = false) (ne : p.stack.state v ≠ errorState) :
    advanceBy v (fuel + 1) x p = p.withStack (p.stack.pause v x) := by
  rw [advanceBy, entry, act]
  exact (if_neg (Bool.eq_false_iff.mp unnamed)).trans (if_neg ne)

end Parse

/-! ### What a version bears -/

/-- The version `v` is pursued over a line of trees that stand between these states and cost
nothing. -/
structure Stack.Bears (s : Stack) (v base : Nat) (frames : List Frame) (states : List State) : Prop
    extends Stands s v base frames where
  carries : Carries (s.cell base).state frames states
  free : ∀ f ∈ frames, f.tree.IsFree

/-- What other versions are pursued stand elsewhere, or wait behind an indexed type while the
version `v` is not about to make an index. -/
def Stack.Alone (s : Stack) (v : Nat) : Prop :=
  ∀ u, u ≠ v → s.isActive u = true → (s.head u).cell < s.cells.size ∧
    ((s.pos u).bytes = (s.pos v).bytes →
      s.state u = State.typeIndexed ∧ s.state v ≠ State.indexRead)

namespace Stack

variable {s s' : Stack} {v base : Nat} {frames : List Frame} {states : List State} {q : State}

theorem Bears.state_eq (h : s.Bears v base frames (q :: states)) : s.state v = q := by
  rw [h.toStands.state_eq, h.carries.stateOver_eq]

/-- Where nothing else is pursued a version is alone. -/
theorem alone_of_count (one : s.count = 1) (v : Nat) (here : v = 0) : s.Alone v := by
  intro u ne active
  have : u < s.count := lt_count_of_not_halted (by
    rw [isActive] at active
    cases status : (s.head u).status <;> simp_all [Status.isActive, Status.isHalted])
  omega

/-- A reduction leads to a state in which the version cannot be merged with another one. -/
theorem Alone.apart (h : s.Alone v) {rule : Rule} {size layout : Nat} {target below : State}
    {t : Token} (admits : .reduce rule size layout ∈ ((s.state v).row.entry t).actions)
    (goto : below.row.goto? rule = some target) : s.Apart v s.count target (s.pos v) := by
  intro u _ ne active
  obtain ⟨within, waits⟩ := h u ne active
  refine ⟨within, fun same place => ?_⟩
  obtain ⟨indexed, notRead⟩ := waits place
  obtain rfl : rule = .arrayBracketExpression := (State.goto_spec goto).2 (same ▸ indexed)
  exact notRead (State.eq_indexRead admits)

/-- It stays alone when it makes reductions. -/
theorem Alone.alters (h : s.Alone v) (alters : Alters v s s') (pos : s'.pos v = s.pos v)
    (state : s'.state v ≠ State.indexRead) : s'.Alone v := by
  intro u ne active
  rw [isActive, alters.head_eq u ne] at active
  obtain ⟨within, waits⟩ := h u ne active
  have top : s'.top u = s.top u := by
    rw [Stack.top, Stack.top, alters.head_eq u ne, alters.extends'.cell_eq _ within]
  rw [alters.head_eq u ne, Stack.pos, Stack.state, top, pos]
  exact ⟨Nat.lt_of_lt_of_le within alters.extends'.size_le, fun same => ⟨(waits same).1, state⟩⟩

variable {below : List State} {x : Lexeme} {t : Token} {target : State}

/-- The bottom stays, whatever is pushed over it. -/
theorem Bears.bottom_eq (h : s.Bears v 0 frames states) (ext : s.Extends s')
    (bottom : s.cell 0 = .bottom) : s'.cell 0 = .bottom :=
  (ext.cell_eq 0 h.within).trans bottom

/-- A version bears the same trees wherever it is put. -/
theorem Bears.of_head_eq {u : Nat} (h : s.Bears v base frames states) (ext : s.Extends s')
    (same : s'.head u = s.head v) : s'.Bears u base frames states :=
  ⟨h.toStands.of_head_eq ext same, by rw [ext.cell_eq base h.within]; exact h.carries, h.free⟩

/-- What one version bears is nothing to what happens to another one. -/
theorem Bears.alters {u : Nat} (h : s.Bears v base frames states) (alters : Alters u s s')
    (ne : v ≠ u) : s'.Bears v base frames states :=
  h.of_head_eq alters.extends' (alters.head_eq v ne)

/-- A token is taken in. -/
theorem Bears.shift (h : s.Bears v base frames (q :: below)) (read : x.leaf = .read t)
    (admits : .shift target ∈ (q.row.entry t).actions) :
    (s.push v (some (x.toTree.withExtra false)) target).Bears v base
        (⟨x.toTree.withExtra false, target⟩ :: frames) (target :: q :: below) ∧
      Alters v s (s.push v (some (x.toTree.withExtra false)) target) := by
  obtain ⟨stands, alters⟩ := h.toStands.push (x.toTree.withExtra false) target
  have symbol : (x.toTree.withExtra false).symbol = .token t := by
    rw [Lexeme.toTree, read]
    rfl
  obtain ⟨next, ne⟩ := State.next_of_shift admits
  rw [← symbol] at next
  subst next
  refine ⟨⟨stands, ?_, ?_⟩, alters⟩
  · rw [alters.extends'.cell_eq base h.within]
    refine .inside h.carries (Tree.isExtra_withExtra ..) (fun u isToken => ?_) ne
    obtain rfl := Symbol.token.inj (symbol.symm.trans isToken)
    exact State.isComment_eq_false admits (by simp)
  · exact List.forall_mem_cons.mpr ⟨Tree.isFree_toTree (by rw [read]; rfl) false, h.free⟩

/-- A comment is taken in where it stands. -/
theorem Bears.shiftExtra (h : s.Bears v base frames (q :: below)) (read : x.leaf = .read t) :
    (s.push v (some (x.toTree.withExtra true)) q).Bears v base
        (⟨x.toTree.withExtra true, q⟩ :: frames) (q :: below) ∧
      Alters v s (s.push v (some (x.toTree.withExtra true)) q) := by
  obtain ⟨stands, alters⟩ := h.toStands.push (x.toTree.withExtra true) q
  refine ⟨⟨stands, ?_, ?_⟩, alters⟩
  · rw [alters.extends'.cell_eq base h.within]
    exact .extra h.carries (Tree.isExtra_withExtra ..)
  · exact List.forall_mem_cons.mpr ⟨Tree.isFree_toTree (by rw [read]; rfl) true, h.free⟩

end Stack

/-! ### All reductions for a lexeme -/

/-- What ends the reductions for the lexeme `x` in the state `s` over `depth` trees: an entry that
is no reduction, or one that reaches further down. -/
inductive Stop (s : State) (depth : Nat) (x : Lexeme) : Prop where
  | shift (n : State) : (s.entry x.symbol).actions = [.shift n] → Stop s depth x
  | shiftExtra : (s.entry x.symbol).actions = [.shiftExtra] → Stop s depth x
  | accept : (s.entry x.symbol).actions = [.accept] → Stop s depth x
  | choice : (s.entry x.symbol).actions = [.reduce .type 1 0, .reduce .expression 1 0] →
      Stop s depth x
  | stuck : (s.entry x.symbol).actions = [] → Parse.renames s x = false → Stop s depth x
  | deep (rule : Rule) (size layout : Nat) (others : List Action) :
      (s.entry x.symbol).actions = .reduce rule size layout :: others →
      (∀ a ∈ others, ∃ n, a = .shiftRepeat n) → depth < size → Stop s depth x

namespace Parse

variable {text : Text} {p p' p'' : Parse} {v base fuel fuel' fuel'' : Nat}
  {frames frames' frames'' : List Frame} {x x' x'' : Lexeme}

/-- The version `v` comes from one point of its way to another one, and with it the single stack,
whatever lies below. -/
structure ComesTo (text : Text) (v : Nat) (q : State) (p : Parse) (frames : List Frame)
    (x : Lexeme) (fuel : Nat) (p' : Parse) (frames' : List Frame) (x' : Lexeme) (fuel' : Nat) :
    Prop where
  advance_eq : advanceBy v fuel x p = advanceBy v fuel' x' p'
  withStack_eq : p' = p.withStack p'.stack
  alters : Stack.Alters v p.stack p'.stack
  endOf_eq : endOf frames' = endOf frames
  lexeme : x' = x ∨ x.isKeyword = true ∧ x' = x.asIdentifier
  top : stateOver q frames' = State.indexRead → stateOver q frames = State.indexRead
  succeeds : ∀ rest t, topState rest = q →
    (Succeeds text ⟨frames ++ rest, some x⟩ t ↔ Succeeds text ⟨frames' ++ rest, some x'⟩ t)

variable {q : State}

theorem ComesTo.refl (text : Text) (v : Nat) (q : State) (p : Parse) (frames : List Frame)
    (x : Lexeme) (fuel : Nat) : ComesTo text v q p frames x fuel p frames x fuel :=
  ⟨rfl, rfl, .refl v _, rfl, .inl rfl, id, fun _ _ _ => .rfl⟩

theorem ComesTo.trans (h : ComesTo text v q p frames x fuel p' frames' x' fuel')
    (h' : ComesTo text v q p' frames' x' fuel' p'' frames'' x'' fuel'') :
    ComesTo text v q p frames x fuel p'' frames'' x'' fuel'' where
  advance_eq := h.advance_eq.trans h'.advance_eq
  withStack_eq := by
    rw [h'.withStack_eq, h.withStack_eq]
    rfl
  alters := h.alters.trans h'.alters
  endOf_eq := h'.endOf_eq.trans h.endOf_eq
  lexeme := by
    rcases h.lexeme with rfl | ⟨keyword, rfl⟩
    · exact h'.lexeme
    · rcases h'.lexeme with rfl | ⟨_, rfl⟩
      · exact .inr ⟨keyword, rfl⟩
      · exact .inr ⟨keyword, rfl⟩
  top read := h.top (h'.top read)
  succeeds rest t same := (h.succeeds rest t same).trans (h'.succeeds rest t same)

theorem ComesTo.isReadAt (h : ComesTo text v q p frames x fuel p' frames' x' fuel') {pos : Extent}
    (isRead : x.IsReadAt text pos) : x'.IsReadAt text pos := by
  rcases h.lexeme with rfl | ⟨keyword, rfl⟩
  · exact isRead
  · exact isRead.asIdentifier keyword

theorem ComesTo.extent_eq (h : ComesTo text v q p frames x fuel p' frames' x' fuel') :
    x'.extent = x.extent := by
  rcases h.lexeme with rfl | ⟨_, rfl⟩ <;> rfl

theorem ComesTo.read_or_keyword (h : ComesTo text v q p frames x fuel p' frames' x' fuel')
    {t : Token} (read : x'.leaf = .read t) : x.leaf = .read t ∨ x.isKeyword = true := by
  rcases h.lexeme with rfl | ⟨keyword, _⟩
  · exact .inl read
  · exact .inr keyword

/-! ### The steps on the way -/

theorem renames_eq {frames rest : List Frame} {s : State}
    (top : topState (frames ++ rest) = s) (x : Lexeme) :
    Config.renames ⟨frames ++ rest, some x⟩ x = ((s.entry x.symbol).isEmpty && renames s x) := by
  rw [Config.renames, Config.entryFor, top, renames, Bool.and_assoc, Bool.and_assoc,
    Bool.and_assoc]

section

variable {s : State} {below : List State}

/-- What a version bears is on top of the single stack, whatever lies below. -/
theorem topState_of_bears (bears : p.stack.Bears v base frames (s :: below)) {rest : List Frame}
    (same : topState rest = (p.stack.cell base).state) : topState (frames ++ rest) = s := by
  rw [topState_append_eq, same, bears.carries.stateOver_eq]

/-- A keyword that has no place becomes a name. -/
theorem comesTo_rename (text : Text) (fuel : Nat) (bears : p.stack.Bears v base frames (s :: below))
    (empty : (s.entry x.symbol).actions = []) (named : renames s x = true) :
    ComesTo text v (p.stack.cell base).state p frames x (fuel + 1) p frames x.asIdentifier fuel where
  advance_eq := advanceBy_of_renames (by rw [bears.state_eq, empty]) (by rw [bears.state_eq, named])
  withStack_eq := rfl
  alters := .refl v _
  endOf_eq := rfl
  lexeme := by
    rw [renames, Bool.and_eq_true, Bool.and_eq_true] at named
    exact .inr ⟨named.1.1, rfl⟩
  top := id
  succeeds rest t same := by
    refine succeeds_rename ?_
    rw [renames_eq (topState_of_bears bears same), named, Entry.isEmpty, empty]
    rfl

/-- A reduction on the line. -/
theorem exists_comesTo_reduce (text : Text) (fuel : Nat) (bears : p.stack.Bears v base frames (s :: below))
    (few : p.stack.count ≤ 10) (alone : p.stack.Alone v) {rule : Rule} {size layout : Nat}
    {others : List Action} (entry : (s.entry x.symbol).actions = .reduce rule size layout :: others)
    (superfluous : ∀ a ∈ others, ∃ n, a = .shiftRepeat n) (fits : size ≤ below.length) :
    ∃ p' frames' n m above, ComesTo text v (p.stack.cell base).state p frames x (fuel + 1)
        p' frames' x fuel ∧
      p'.stack.Bears v base frames' (n :: m :: above) ∧ p'.stack.Alone v ∧
      load (n :: m :: above) < load (s :: below) ∧
      (s :: below).drop size = m :: above ∧ m.row.goto? rule = some n := by
  obtain ⟨t, symbol, admits⟩ := State.exists_of_mem_entry (entry ▸ List.mem_cons_self)
  obtain ⟨trees, left, m, above, n, popped, dropped, carries, goto, carries', lighter⟩ :=
    bears.carries.reduce admits fits
  have goto' : (stateOver (p.stack.cell base).state left).row.goto? rule = some n := by
    rw [carries.stateOver_eq, goto]
  obtain ⟨s', reduces, stands, ext, count, heads⟩ := bears.toStands.exists_reduce layout few
    popped goto' (alone.apart (bears.state_eq.symm ▸ admits) goto)
  obtain ⟨stands', alters⟩ := stands.replace_last bears.lt_count count ext heads
  have state : ((s'.replace v p.stack.count).cell base).state = (p.stack.cell base).state := by
    rw [alters.extends'.cell_eq base bears.within]
  refine ⟨p.withStack (s'.replace v p.stack.count), _, n, m, above, ⟨?_, rfl, alters,
    endOf_putNode popped, .inl rfl, fun read => ?_, fun rest t same => ?_⟩, ⟨stands', ?_, ?_⟩, ?_,
    lighter, dropped, goto⟩
  · exact advanceBy_of_reduce (by rw [bears.state_eq, entry]) superfluous reduces
  · rw [stateOver_putNode] at read
    exact absurd read (State.goto_spec goto).1
  · rw [← putNode_append]
    refine succeeds_reduce ?_ superfluous (pop_append popped rest) ?_
    · rw [topState_of_bears bears same, entry]
    · rw [topState_append_eq, same, goto']
  · rw [show ((p.withStack (s'.replace v p.stack.count)).stack.cell base).state = _ from state]
    exact carries'
  · exact isFree_putNode popped bears.free
  · refine alone.alters alters ?_ ?_
    · change (s'.replace v p.stack.count).pos v = _
      rw [stands'.pos_eq, bears.pos_eq, alters.extends'.cell_eq base bears.within, endOf_putNode popped]
    · change (s'.replace v p.stack.count).state v ≠ _
      rw [stands'.state_eq, stateOver_putNode]
      exact (State.goto_spec goto).1

/-- A version makes its reductions, in the number of steps that it has, until it comes to an entry
that is no reduction on its line. -/
theorem exists_stop (text : Text) {K : Nat} (bears : p.stack.Bears v base frames (s :: below))
    (notError : (p.stack.cell base).state ≠ errorState) (few : p.stack.count ≤ 10)
    (alone : p.stack.Alone v)
    (enough : load (s :: below) + (if x.leaf = .read .identifier then 0 else 1) + K ≤ fuel) :
    ∃ p' frames' s' below' x' fuel',
      ComesTo text v (p.stack.cell base).state p frames x fuel p' frames' x' fuel' ∧
      p'.stack.Bears v base frames' (s' :: below') ∧ Stop s' below'.length x' ∧ K ≤ fuel' := by
  induction fuel generalizing p frames s below x with
  | zero =>
    have positive : 0 < load (s :: below) := by
      rw [load, List.length_cons]
      omega
    omega
  | succ fuel ih =>
    have stay (stop : Stop s below.length x) : ∃ p' frames' s' below' x' fuel',
        ComesTo text v (p.stack.cell base).state p frames x (fuel + 1) p' frames' x' fuel' ∧
        p'.stack.Bears v base frames' (s' :: below') ∧ Stop s' below'.length x' ∧ K ≤ fuel' :=
      ⟨p, frames, s, below, x, fuel + 1, .refl .., bears, stop, by omega⟩
    have reduce {rule : Rule} {size layout : Nat} {others : List Action}
        (entry : (s.entry x.symbol).actions = .reduce rule size layout :: others)
        (superfluous : ∀ a ∈ others, ∃ n, a = .shiftRepeat n) : ∃ p' frames' s' below' x' fuel',
        ComesTo text v (p.stack.cell base).state p frames x (fuel + 1) p' frames' x' fuel' ∧
        p'.stack.Bears v base frames' (s' :: below') ∧ Stop s' below'.length x' ∧ K ≤ fuel' := by
      rcases Nat.lt_or_ge below.length size with deep | fits
      · exact stay (.deep rule size layout others entry superfluous deep)
      · obtain ⟨p₁, frames₁, n, m, above, comes, bears₁, alone₁, lighter, -⟩ :=
          exists_comesTo_reduce text fuel bears few alone entry superfluous fits
        have state : (p₁.stack.cell base).state = (p.stack.cell base).state := by
          rw [comes.alters.extends'.cell_eq base bears.within]
        obtain ⟨p', frames', s', below', x', fuel', comes', rest⟩ :=
          ih (x := x) bears₁ (by rwa [state]) (by rwa [comes.alters.count_eq]) alone₁ (by omega)
        rw [state] at comes'
        exact ⟨p', frames', s', below', x', fuel', comes.trans comes', rest⟩
    have ne : s ≠ errorState := bears.carries.ne_errorState notError
    have form := State.form_entry ne x.symbol
    generalize entry : (s.entry x.symbol).actions = actions at form
    cases form with
    | none =>
      cases named : renames s x with
      | false => exact stay (.stuck entry named)
      | true =>
        have notName : x.leaf ≠ .read .identifier := by
          rw [renames, Bool.and_eq_true, Bool.and_eq_true, bne_iff_ne] at named
          exact named.1.2
        rw [if_neg notName] at enough
        have comes := comesTo_rename text fuel bears entry named
        obtain ⟨p', frames', s', below', x', fuel', comes', rest⟩ :=
          ih (x := x.asIdentifier) bears notError few alone (by
            have named' : x.asIdentifier.leaf = .read .identifier := rfl
            rw [if_pos named']
            omega)
        exact ⟨p', frames', s', below', x', fuel', comes.trans comes', rest⟩
    | shift n => exact stay (.shift n entry)
    | shiftExtra => exact stay (.shiftExtra entry)
    | accept => exact stay (.accept entry)
    | reduce rule size layout => exact reduce entry (List.forall_mem_nil _)
    | repeats rule size layout n =>
      exact reduce entry fun a mem => ⟨n, List.mem_singleton.mp mem⟩
    | choice => exact stay (.choice entry)

/-! ### What comes of a lexeme -/

/-- What becomes of a version over a line when it is advanced by the lexeme `x`: it takes it in, waits
with it, is accepted, or comes to the choice or to a reduction that reaches below its line, with
`K` steps left. -/
inductive Deals (text : Text) (v base : Nat) (p : Parse) (frames : List Frame) (x : Lexeme)
    (fuel K : Nat) : Parse → Prop where
  | takes {s' : Stack} {frames' : List Frame} {states : List State} :
      Stack.Alters v p.stack s' → s'.Bears v base frames' states →
      (∃ t, t ≠ .eof ∧ (x.leaf = .read t ∨ x.isKeyword = true)) →
      endOf frames' = endOf frames + x.extent →
      (∀ rest t, topState rest = (p.stack.cell base).state →
        (Succeeds text ⟨frames ++ rest, some x⟩ t ↔ Succeeds text ⟨frames' ++ rest, none⟩ t)) →
      Deals text v base p frames x fuel K (p.withStack s')
  | waits {s' : Stack} {y : Lexeme} :
      Stack.Alters v p.stack s' → s'.pos v = p.stack.pos v →
      (∀ rest t, topState rest = (p.stack.cell base).state →
        ¬Succeeds text ⟨frames ++ rest, some x⟩ t) →
      Deals text v base p frames x fuel K (p.withStack (s'.pause v y))
  | accepts {p' : Parse} {frames' : List Frame} {below : List State} {y : Lexeme} {fuel' : Nat} :
      ComesTo text v (p.stack.cell base).state p frames x fuel p' frames' y fuel' →
      p'.stack.Bears v base frames' (State.acceptState :: below) → y.leaf = .read .eof →
      (∀ rest t, topState rest = (p.stack.cell base).state →
        (Succeeds text ⟨frames ++ rest, some x⟩ t ↔
          rootOf? (((frames' ++ rest).map Frame.tree).reverse ++ [y.toTree]) = some t)) →
      Deals text v base p frames x fuel K (p'.accept v y)
  | chooses {p' : Parse} {frames' : List Frame} {below : List State} {y : Lexeme} {fuel' : Nat} :
      ComesTo text v (p.stack.cell base).state p frames x fuel p' frames' y fuel' →
      p'.stack.Bears v base frames' (State.choice :: below) → y.leaf = .read .lbracket →
      K ≤ fuel' → Deals text v base p frames x fuel K (advanceBy v fuel' y p')
  | reaches {p' : Parse} {frames' : List Frame} {s : State} {below : List State} {y : Lexeme}
      {fuel' : Nat} {rule : Rule} {size layout : Nat} {others : List Action} :
      ComesTo text v (p.stack.cell base).state p frames x fuel p' frames' y fuel' →
      p'.stack.Bears v base frames' (s :: below) →
      (s.entry y.symbol).actions = .reduce rule size layout :: others →
      (∀ a ∈ others, ∃ n, a = .shiftRepeat n) → below.length < size → K ≤ fuel' →
      Deals text v base p frames x fuel K (advanceBy v fuel' y p')

theorem deals_advanceBy {K : Nat} (bears : p.stack.Bears v base frames (s :: below))
    (notError : (p.stack.cell base).state ≠ errorState) (few : p.stack.count ≤ 10)
    (alone : p.stack.Alone v) {pos : Extent} (isRead : x.IsReadAt text pos)
    (enough : load (s :: below) + (if x.leaf = .read .identifier then 0 else 1) + (K + 1) ≤ fuel) :
    Deals text v base p frames x fuel (K + 1) (advanceBy v fuel x p) := by
  obtain ⟨p', frames', s', below', y, fuel', comes, bears', stop, le⟩ :=
    exists_stop text bears notError few alone enough
  obtain ⟨fuel'', rfl⟩ : ∃ fuel'', fuel' = fuel'' + 1 := ⟨fuel' - 1, by omega⟩
  have base_eq : (p'.stack.cell base).state = (p.stack.cell base).state := by
    rw [comes.alters.extends'.cell_eq base bears.within]
  have top {rest : List Frame} (same : topState rest = (p.stack.cell base).state) :
      topState (frames' ++ rest) = s' := topState_of_bears bears' (same.trans base_eq.symm)
  have leaf {a : Action} (known : a ∈ (s'.entry y.symbol).actions) :
      ∃ t, y.leaf = .read t ∧ a ∈ (s'.row.entry t).actions := by
    obtain ⟨t, symbol, admits⟩ := State.exists_of_mem_entry known
    exact ⟨t, leaf_eq_of_symbol (b := ⟨errorState, pos, 0⟩) (comes.isReadAt isRead) symbol, admits⟩
  rw [comes.advance_eq]
  cases stop with
  | shift n entry =>
    obtain ⟨t, read, admits⟩ := leaf (entry ▸ List.mem_singleton_self _)
    obtain ⟨taken, alters⟩ := bears'.shift read admits
    rw [advanceBy_of_shift (by rw [bears'.state_eq, entry]), comes.withStack_eq]
    refine .takes (comes.alters.trans alters) taken
      ⟨t, State.ne_eof_of_shift admits, comes.read_or_keyword read⟩ ?_ fun rest t same => ?_
    · rw [endOf, comes.endOf_eq, ← comes.extent_eq]
      rfl
    · rw [comes.succeeds rest t same]
      exact succeeds_shift (by rw [top same, entry])
  | shiftExtra entry =>
    obtain ⟨t, read, admits⟩ := leaf (entry ▸ List.mem_singleton_self _)
    have notEnd : t ≠ .eof := by
      rintro rfl
      cases State.isComment_of_shiftExtra admits
    obtain ⟨taken, alters⟩ := bears'.shiftExtra read
    rw [advanceBy_of_shiftExtra (by rw [bears'.state_eq, entry]), bears'.state_eq,
      comes.withStack_eq]
    refine .takes (comes.alters.trans alters) taken ⟨t, notEnd, comes.read_or_keyword read⟩ ?_
      fun rest t same => ?_
    · rw [endOf, comes.endOf_eq, ← comes.extent_eq]
      rfl
    · rw [comes.succeeds rest t same, succeeds_shiftExtra (by rw [top same, entry]), top same]
      rfl
  | accept entry =>
    obtain ⟨t, read, admits⟩ := leaf (entry ▸ List.mem_singleton_self _)
    obtain ⟨isEnd, accepted⟩ := State.accept_spec admits
    rw [advanceBy_of_accept (by rw [bears'.state_eq, entry])]
    refine .accepts comes (accepted ▸ bears') (isEnd ▸ read) fun rest t same => ?_
    rw [comes.succeeds rest t same]
    exact succeeds_accept (by rw [top same, entry])
  | choice entry =>
    obtain ⟨t, read, first⟩ := leaf (entry ▸ List.mem_cons_self)
    obtain ⟨t', read', second⟩ := leaf (entry ▸ List.mem_cons_of_mem _ List.mem_cons_self)
    obtain rfl : t = t' := Leaf.read.inj (read.symm.trans read')
    obtain ⟨rfl, bracket, -⟩ := State.choice_of_ne first second rfl rfl (by decide)
    exact .chooses comes bears' (bracket ▸ read) le
  | stuck entry unnamed =>
    rw [advanceBy_of_stuck (by rw [bears'.state_eq, entry]) (by rw [bears'.state_eq, unnamed])
      (by
        rw [bears'.state_eq]
        exact bears'.carries.ne_errorState (by rwa [base_eq])), comes.withStack_eq]
    refine .waits comes.alters ?_ fun rest t same => ?_
    · change p'.stack.pos v = _
      rw [bears'.pos_eq, bears.pos_eq, comes.endOf_eq,
        comes.alters.extends'.cell_eq base bears.within]
    rw [comes.succeeds rest t same]
    refine not_succeeds_of_empty (by rw [top same, entry]) ?_
    rw [renames_eq (top same), unnamed, Bool.and_false]
  | deep rule size layout others entry superfluous deep =>
    exact .reaches comes bears' entry superfluous deep le

end

end Parse

end SusSyntax
