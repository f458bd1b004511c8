import SusSyntax.Proofs.Grammar.Reducible
import SusSyntax.Proofs.Parse.Frames

/-!
What a single stack can still be accepted with.

A configuration succeeds with a tree if some run from it accepts with that tree (`Plain.Succeeds`).
Each step that the machine takes without a choice keeps what a configuration succeeds with, so the
steps can be followed one by one. A reduction needs only the frames that it takes off, so it can be
followed in the upper part of a stack, whatever lies below (`Plain.Carries.reduce`).
-/

namespace SusSyntax

open Grammar Lexical

namespace Plain

variable {text : Text} {c : Config} {t : Tree} {frames rest : List Frame} {x : Lexeme}

/-- The machine can accept with the tree `t` from a configuration on. -/
def Succeeds (text : Text) (c : Config) (t : Tree) : Prop :=
  ∃ d, Run text c d ∧ d.accepted? = some t

theorem succeeds_iff : Succeeds text c t ↔
    c.accepted? = some t ∨ ∃ m d, Step text c m d ∧ Succeeds text d t := by
  constructor
  · rintro ⟨d, run, accepted⟩
    cases run with
    | done => exact .inl accepted
    | step step run => exact .inr ⟨_, _, step, d, run, accepted⟩
  · rintro (accepted | ⟨m, d, step, e, run, accepted⟩)
    · exact ⟨c, .done, accepted⟩
    · exact ⟨e, .step step run, accepted⟩

/-! ### Steps without a choice -/

theorem succeeds_read : Succeeds text ⟨frames, none⟩ t ↔
    Succeeds text ⟨frames, some (scan text (topState frames) (endOf frames))⟩ t := by
  rw [succeeds_iff]
  constructor
  · rintro (accepted | ⟨m, d, step, succeeds⟩)
    · cases accepted
    · cases step with
      | read => exact succeeds
      | rename isRead | act isRead => cases isRead
  · intro succeeds
    exact .inr ⟨_, _, .read, succeeds⟩

theorem succeeds_rename (renames : Config.renames ⟨frames, some x⟩ x = true) :
    Succeeds text ⟨frames, some x⟩ t ↔ Succeeds text ⟨frames, some x.asIdentifier⟩ t := by
  have empty : (Config.entryFor ⟨frames, some x⟩ x).actions = [] := by
    simp only [Config.renames, Bool.and_eq_true] at renames
    exact List.isEmpty_iff.mp renames.1.1.1
  rw [succeeds_iff]
  constructor
  · rintro (accepted | ⟨m, d, step, succeeds⟩)
    · simp [Config.accepted?, empty] at accepted
    · cases step with
      | rename isRead _ =>
        obtain rfl := Option.some.inj isRead
        exact succeeds
      | act isRead _ admitted _ =>
        obtain rfl := Option.some.inj isRead
        rw [empty] at admitted
        cases admitted
  · intro succeeds
    exact .inr ⟨_, _, .rename rfl renames, succeeds⟩

/-- A lexeme that is not renamed is dealt with by one of the actions of its entry. -/
theorem succeeds_acts (stays : Config.renames ⟨frames, some x⟩ x = false) :
    Succeeds text ⟨frames, some x⟩ t ↔ Config.accepted? ⟨frames, some x⟩ = some t ∨
      ∃ a ∈ ((topState frames).entry x.symbol).actions, ∃ d,
        Config.apply ⟨frames, some x⟩ x a = some d ∧ Succeeds text d t := by
  rw [succeeds_iff]
  refine or_congr_right ?_
  constructor
  · rintro ⟨m, d, step, succeeds⟩
    cases step with
    | rename isRead renames =>
      obtain rfl := Option.some.inj isRead
      rw [stays] at renames
      cases renames
    | act isRead _ admitted applies =>
      obtain rfl := Option.some.inj isRead
      exact ⟨_, admitted, d, applies, succeeds⟩
  · rintro ⟨a, admitted, d, applies, succeeds⟩
    exact ⟨.act a, d, .act rfl stays admitted applies, succeeds⟩

theorem renames_eq_false (some : ((topState frames).entry x.symbol).actions ≠ []) :
    Config.renames ⟨frames, Option.some x⟩ x = false := by
  have : (Config.entryFor ⟨frames, Option.some x⟩ x).isEmpty = false :=
    Bool.eq_false_iff.mpr fun empty => some (List.isEmpty_iff.mp empty)
  rw [Config.renames, this]
  rfl

theorem not_succeeds_of_empty (empty : ((topState frames).entry x.symbol).actions = [])
    (stays : Config.renames ⟨frames, some x⟩ x = false) : ¬Succeeds text ⟨frames, some x⟩ t := by
  rw [succeeds_acts stays, empty]
  simp [Config.accepted?, Config.entryFor, empty]

theorem succeeds_shift {n : State}
    (entry : ((topState frames).entry x.symbol).actions = [.shift n]) :
    Succeeds text ⟨frames, some x⟩ t ↔
      Succeeds text ⟨⟨x.toTree.withExtra false, n⟩ :: frames, none⟩ t := by
  rw [succeeds_acts (renames_eq_false (by simp [entry])), entry]
  simp [Config.accepted?, Config.entryFor, entry, Config.apply]

theorem succeeds_shiftExtra
    (entry : ((topState frames).entry x.symbol).actions = [.shiftExtra]) :
    Succeeds text ⟨frames, some x⟩ t ↔
      Succeeds text ⟨⟨x.toTree.withExtra true, topState frames⟩ :: frames, none⟩ t := by
  rw [succeeds_acts (renames_eq_false (by simp [entry])), entry]
  simp [Config.accepted?, Config.entryFor, entry, Config.apply]

theorem succeeds_accept (entry : ((topState frames).entry x.symbol).actions = [.accept]) :
    Succeeds text ⟨frames, some x⟩ t ↔
      Parse.rootOf? ((frames.map Frame.tree).reverse ++ [x.toTree]) = some t := by
  rw [succeeds_acts (renames_eq_false (by simp [entry])), entry]
  simp [Config.accepted?, Config.entryFor, entry, Config.apply]

/-- A superfluous shift beside a reduction is never taken. -/
theorem succeeds_reduce {rule : Rule} {size layout : Nat} {others : List Action}
    (entry : ((topState frames).entry x.symbol).actions = .reduce rule size layout :: others)
    (superfluous : ∀ a ∈ others, ∃ n, a = .shiftRepeat n) {trees : List Tree} {left : List Frame}
    {target : State} (popped : pop size frames = some (trees, left))
    (goto : (topState left).row.goto? rule = some target) :
    Succeeds text ⟨frames, some x⟩ t ↔
      Succeeds text ⟨putNode rule layout trees target left, some x⟩ t := by
  have applies : Config.apply ⟨frames, some x⟩ x (.reduce rule size layout) =
      some ⟨putNode rule layout trees target left, some x⟩ :=
    apply_eq_some_iff.mpr (.reduce popped goto)
  have notAccepted : Config.accepted? ⟨frames, some x⟩ = none := by
    have : Action.accept ∉ others := by
      intro mem
      obtain ⟨n, same⟩ := superfluous _ mem
      cases same
    simp [Config.accepted?, Config.entryFor, entry, this]
  rw [succeeds_acts (renames_eq_false (by simp [entry])), entry, notAccepted]
  constructor
  · rintro (isNone | ⟨a, mem, d, applies', succeeds⟩)
    · cases isNone
    · rcases List.mem_cons.mp mem with rfl | mem
      · obtain rfl := Option.some.inj (applies.symm.trans applies')
        exact succeeds
      · obtain ⟨n, rfl⟩ := superfluous a mem
        cases applies'
  · intro succeeds
    exact .inr ⟨_, List.mem_cons_self, _, applies, succeeds⟩

/-! ### Parts of a stack -/

/-- How many of the trees on a stack are no extras. -/
def insideCount (frames : List Frame) : Nat :=
  frames.countP fun f => !f.tree.isExtra

/-- Taking trees off a stack takes its upper part off, down to a tree that is no extra. -/
theorem pop_spec {k : Nat} {trees : List Tree} {left : List Frame}
    (h : pop k frames = some (trees, left)) :
    ∃ taken, frames = taken ++ left ∧ trees = (taken.map Frame.tree).reverse ∧
      insideCount taken = k ∧
      ∀ upper f lower, taken = upper ++ f :: lower → insideCount upper < k := by
  induction frames generalizing k trees with
  | nil =>
    cases k with
    | zero =>
      obtain ⟨rfl, rfl⟩ := Prod.mk.inj (Option.some.inj h)
      exact ⟨[], rfl, rfl, rfl, by simp⟩
    | succ k => cases h
  | cons f below ih =>
    cases k with
    | zero =>
      obtain ⟨rfl, rfl⟩ := Prod.mk.inj (Option.some.inj h)
      exact ⟨[], rfl, rfl, rfl, by simp⟩
    | succ k =>
      rw [pop] at h
      obtain ⟨⟨trees', left'⟩, popped, same⟩ := Option.map_eq_some_iff.mp h
      obtain ⟨rfl, rfl⟩ := Prod.mk.inj same
      obtain ⟨taken, rfl, rfl, count, upper⟩ := ih popped
      refine ⟨f :: taken, rfl, by simp, ?_, fun upper' g lower split => ?_⟩
      · simp only [insideCount, List.countP_cons] at count ⊢
        cases extra : f.tree.isExtra <;> simp [extra] at count ⊢ <;> omega
      · cases upper' with
        | nil => exact Nat.zero_lt_succ k
        | cons f' upper' =>
          have less := upper upper' g lower (List.cons.inj split).2
          obtain rfl := (List.cons.inj split).1
          simp only [insideCount, List.countP_cons] at less ⊢
          cases extra : f.tree.isExtra <;> simp [extra] at less ⊢ <;> omega

/-- What lies below is not touched. -/
theorem pop_append {k : Nat} {trees : List Tree} {left : List Frame}
    (h : pop k frames = some (trees, left)) (rest : List Frame) :
    pop k (frames ++ rest) = some (trees, left ++ rest) := by
  induction frames generalizing k trees with
  | nil =>
    cases k with
    | zero =>
      obtain ⟨rfl, rfl⟩ := Prod.mk.inj (Option.some.inj h)
      rw [List.nil_append, pop]
    | succ k => cases h
  | cons f below ih =>
    cases k with
    | zero =>
      obtain ⟨rfl, rfl⟩ := Prod.mk.inj (Option.some.inj h)
      rfl
    | succ k =>
      rw [pop] at h
      obtain ⟨⟨trees', left'⟩, popped, same⟩ := Option.map_eq_some_iff.mp h
      obtain ⟨rfl, rfl⟩ := Prod.mk.inj same
      rw [List.cons_append, pop, ih popped]
      rfl

/-- If one tree more is taken off than there are, the next one below goes with all of them. -/
theorem pop_through (f : Frame) (inside : f.tree.isExtra = false) (rest : List Frame) :
    pop (insideCount frames + 1) (frames ++ f :: rest) =
      some (f.tree :: (frames.map Frame.tree).reverse, rest) := by
  induction frames with
  | nil => simp [insideCount, pop, inside]
  | cons g frames ih =>
    cases extra : g.tree.isExtra <;>
      simp_all [insideCount, pop]

/-- Pushes trees on a stack, all with the same state. -/
def pushTrees (target : State) (frames : List Frame) (ts : List Tree) : List Frame :=
  ts.foldl (fun frames t => ⟨t, target⟩ :: frames) frames

@[simp] theorem pushTrees_nil (target : State) (frames : List Frame) :
    pushTrees target frames [] = frames := rfl

@[simp] theorem pushTrees_cons (target : State) (frames : List Frame) (t : Tree) (ts : List Tree) :
    pushTrees target frames (t :: ts) = pushTrees target (⟨t, target⟩ :: frames) ts := rfl

theorem putNode_eq (rule : Rule) (layout : Nat) (trees : List Tree) (target : State)
    (frames : List Frame) : putNode rule layout trees target frames =
      pushTrees target frames (.ofChildren (.rule rule layout) (Tree.splitTrailingExtras trees).1 ::
        (Tree.splitTrailingExtras trees).2) := rfl

theorem pushTrees_append (target : State) (frames rest : List Frame) (ts : List Tree) :
    pushTrees target (frames ++ rest) ts = pushTrees target frames ts ++ rest := by
  induction ts generalizing frames with
  | nil => rfl
  | cons t ts ih => exact ih (⟨t, target⟩ :: frames)

theorem putNode_append (rule : Rule) (layout : Nat) (trees : List Tree) (target : State)
    (left rest : List Frame) :
    putNode rule layout trees target (left ++ rest) =
      putNode rule layout trees target left ++ rest :=
  pushTrees_append ..

/-! ### Positions -/

theorem endOf_append (frames rest : List Frame) :
    endOf (frames ++ rest) = endOf rest + Tree.extentOf (frames.map Frame.tree).reverse := by
  induction frames with
  | nil => simp
  | cons f frames ih => simp [endOf, ih, Extent.add_assoc]

theorem endOf_pushTrees (target : State) (frames : List Frame) (ts : List Tree) :
    endOf (pushTrees target frames ts) = endOf frames + Tree.extentOf ts := by
  induction ts generalizing frames with
  | nil => simp
  | cons t ts ih => rw [pushTrees_cons, ih, endOf, Tree.extentOf_cons, Extent.add_assoc]

/-- A reduction leaves the position as it is. -/
theorem endOf_putNode {rule : Rule} {size layout : Nat} {trees : List Tree} {left : List Frame}
    {target : State} (popped : pop size frames = some (trees, left)) :
    endOf (putNode rule layout trees target left) = endOf frames := by
  obtain ⟨taken, rfl, rfl, _, _⟩ := pop_spec popped
  have whole := congrArg Tree.extentOf
    (Tree.append_splitTrailingExtras (taken.map Frame.tree).reverse)
  rw [Tree.extentOf_append] at whole
  rw [putNode_eq, endOf_pushTrees, endOf_append, ← whole, Tree.extentOf_cons,
    Tree.extent_ofChildren]

end Plain

/-! ### Costs -/

/-- A tree that costs nothing, and has no children that do. -/
def Tree.IsFree (t : Tree) : Prop :=
  t.cost = 0 ∧ ∀ u ∈ t.children, u.cost = 0

theorem Tree.isFree_toTree {x : Lexeme} (free : x.leaf.cost = 0) (extra : Bool) :
    (x.toTree.withExtra extra).IsFree :=
  ⟨free, fun _ mem => absurd mem List.not_mem_nil⟩

theorem Tree.isFree_ofChildren {rule : Rule} {layout : Nat} {children : List Tree}
    (free : ∀ t ∈ children, t.cost = 0) : (Tree.ofChildren (.rule rule layout) children).IsFree := by
  refine ⟨?_, free⟩
  have nothing : sumOver (fun t => if t.symbol = .skipped then 0 else t.cost) children = 0 := by
    induction children with
    | nil => rfl
    | cons t ts ih =>
      obtain ⟨first, rest⟩ := List.forall_mem_cons.mp free
      simp [sumOver, first, ih rest]
  exact nothing

namespace Plain

variable {frames : List Frame}

theorem mem_pushTrees {target : State} {ts : List Tree} {f : Frame} :
    f ∈ pushTrees target frames ts ↔ f ∈ frames ∨ ∃ t ∈ ts, f = ⟨t, target⟩ := by
  induction ts generalizing frames with
  | nil => simp
  | cons t ts ih => simp [ih, or_assoc, or_comm]

/-- A reduction costs nothing. -/
theorem isFree_putNode {rule : Rule} {size layout : Nat} {trees : List Tree} {left : List Frame}
    {target : State} (popped : pop size frames = some (trees, left))
    (free : ∀ f ∈ frames, f.tree.IsFree) :
    ∀ f ∈ putNode rule layout trees target left, f.tree.IsFree := by
  obtain ⟨taken, rfl, rfl, _, _⟩ := pop_spec popped
  have taken' : ∀ t ∈ (taken.map Frame.tree).reverse, t.IsFree := by
    intro t mem
    obtain ⟨f, isTaken, rfl⟩ := List.mem_map.mp (List.mem_reverse.mp mem)
    exact free f (List.mem_append_left _ isTaken)
  rw [← Tree.append_splitTrailingExtras (taken.map Frame.tree).reverse,
    List.forall_mem_append] at taken'
  intro f mem
  rcases mem_pushTrees.mp mem with mem | ⟨t, isNew, rfl⟩
  · exact free f (List.mem_append_right _ mem)
  · rcases List.mem_cons.mp isNew with rfl | isExtra
    · exact Tree.isFree_ofChildren fun t mem => (taken'.1 t mem).1
    · exact taken'.2 t isExtra

/-! ### Reductions on a part of a stack -/

/-- What decreases with every reduction. -/
def load (states : List State) : Nat :=
  8 * states.length + (states.headD errorState).weight

namespace Carries

variable {base s q n : State} {states below : List State}

/-- The trees on a stack lead from the state below them to the one on top. -/
theorem exists_through {size : Nat} {above : List State} (h : Carries base frames states)
    (dropped : states.drop size = q :: above) : ∃ xs, xs.length = size ∧
      (∀ t, .token t ∈ xs → t.isComment = false) ∧ states.head? = some (q.through xs) := by
  induction h generalizing size with
  | start =>
    cases size with
    | zero =>
      obtain ⟨rfl, _⟩ := List.cons.inj dropped
      exact ⟨[], rfl, nofun, rfl⟩
    | succ size => simp at dropped
  | @inside frames s below t carries _ free _ ih =>
    cases size with
    | zero =>
      obtain ⟨rfl, _⟩ := List.cons.inj dropped
      exact ⟨[], rfl, nofun, rfl⟩
    | succ size =>
      obtain ⟨xs, length, free', way⟩ := ih dropped
      refine ⟨xs ++ [t.symbol], by simp [length], fun u mem => ?_, ?_⟩
      · rcases List.mem_append.mp mem with mem | mem
        · exact free' u mem
        · exact free u (List.mem_singleton.mp mem).symm
      · have isTop : s = q.through xs := Option.some.inj way
        rw [State.through_append, isTop]
        rfl
  | extra _ _ ih => exact ih dropped

theorem getLast?_eq (h : Carries base frames states) : states.getLast? = some base := by
  induction h with
  | start => rfl
  | inside _ _ _ _ ih => rw [List.getLast?_cons_cons, ih]
  | extra _ _ ih => exact ih

/-- From the base of a stack its trees lead to the state on top. -/
theorem exists_through_base (h : Carries base frames (s :: below)) :
    ∃ xs, xs.length = below.length ∧ (∀ t, .token t ∈ xs → t.isComment = false) ∧
      base.through xs = s := by
  have dropped : (s :: below).drop below.length = [base] := by
    have last := h.getLast?_eq
    rw [List.getLast?_eq_getElem?, List.length_cons, Nat.add_sub_cancel] at last
    obtain ⟨inside, last⟩ := List.getElem?_eq_some_iff.mp last
    rw [List.drop_eq_getElem_cons inside, last, List.drop_succ_cons, List.drop_length]
  obtain ⟨xs, length, free, way⟩ := h.exists_through dropped
  exact ⟨xs, length, free, (Option.some.inj way).symm⟩

theorem insideCount_eq (h : Carries base frames states) :
    insideCount frames + 1 = states.length := by
  induction h with
  | start => rfl
  | inside _ inside _ _ ih => simp_all [insideCount]
  | extra _ extra ih => simp_all [insideCount]

/-- No state on a stack is the error state, if its base is not. -/
theorem ne_errorState (h : Carries base frames (s :: below)) (ne : base ≠ errorState) :
    s ≠ errorState := by
  generalize same : s :: below = states at h
  induction h generalizing s below with
  | start =>
    obtain ⟨rfl, _⟩ := List.cons.inj same
    exact ne
  | inside _ _ _ leads =>
    obtain ⟨rfl, _⟩ := List.cons.inj same
    exact leads
  | extra _ _ ih => exact ih same

/-- Where the table has a reduction and the stack is deep enough, it can be carried out, and leads to
a lighter stack. -/
theorem reduce {rule : Rule} {size layout : Nat} {t : Token}
    (h : Carries base frames (s :: below))
    (admits : .reduce rule size layout ∈ (s.row.entry t).actions) (fits : size ≤ below.length) :
    ∃ trees left q above n, Plain.pop size frames = some (trees, left) ∧
      (s :: below).drop size = q :: above ∧ Carries base left (q :: above) ∧
      q.row.goto? rule = some n ∧
      Carries base (Plain.putNode rule layout trees n left) (n :: q :: above) ∧
      load (n :: q :: above) < load (s :: below) := by
  obtain ⟨q, above, dropped⟩ : ∃ q above, (s :: below).drop size = q :: above := by
    refine List.exists_cons_of_length_pos ?_
    rw [List.length_drop, List.length_cons]
    omega
  obtain ⟨trees, left, popped, carries⟩ := h.pop dropped
  obtain ⟨xs, rfl, free, way⟩ := h.exists_through dropped
  obtain ⟨n, goto, lighter⟩ := State.exists_goto_of_reduce free (Option.some.inj way).symm admits
  refine ⟨trees, left, q, above, n, popped, dropped, carries, goto,
    carries.putNode goto layout trees, ?_⟩
  have length := congrArg List.length dropped
  rw [List.length_drop, List.length_cons, List.length_cons] at length
  simp only [load, List.length_cons, List.headD_cons]
  omega

/-- On a whole stack every reduction of the table can be carried out. -/
theorem size_le {rule : Rule} {size layout : Nat} {t : Token}
    (h : Carries startState frames (s :: below))
    (admits : .reduce rule size layout ∈ (s.row.entry t).actions) : size ≤ below.length := by
  obtain ⟨xs, length, free, way⟩ := h.exists_through_base
  rw [← length]
  exact State.size_le_of_reduce free way admits

/-- Over an opening bracket only an index reaches further down. -/
theorem eq_of_lt_size {rule : Rule} {size layout : Nat} {t : Token}
    (h : Carries State.bracket frames (s :: below))
    (admits : .reduce rule size layout ∈ (s.row.entry t).actions) (deep : below.length < size) :
    rule = .arrayBracketExpression ∧ size = 3 ∧ below.length = 2 := by
  obtain ⟨xs, length, free, way⟩ := h.exists_through_base
  rw [← length] at deep ⊢
  exact State.eq_of_reduce_over_bracket free way admits deep

end Carries

end Plain

end SusSyntax
