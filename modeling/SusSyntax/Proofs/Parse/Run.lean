import SusSyntax.Parse.Run
import SusSyntax.Proofs.Parse.Recover

/-!
The tree of every text is a whole tree over it.

Advancing a version and sorting out the versions keep a parse sound, so whatever is finished in the
end has grown from the beginning of the text to its end (`isWhole_run`); where nothing is finished,
all of the text is one error.
-/

namespace SusSyntax

open Grammar Lexical

namespace Parse

variable {text : Text} {stray : Prop} {p : Parse} {s s' : Stack} {v : Nat} {b : Spot} {x : Lexeme}

theorem paid_start (text : Text) : (start text).Paid text False := by
  refine ⟨⟨rfl, ⟨fun n => n = 0, ⟨?_, ?_, ?_, ?_⟩, ?_⟩, nofun, nofun⟩, ?_⟩
  · rintro n rfl
    exact Nat.zero_lt_one
  · rintro n rfl
    exact Text.isPlace_zero text
  · rintro n rfl _
    exact ⟨rfl, rfl⟩
  · rintro n l rfl mem
    cases mem
  · intro h mem _
    obtain rfl := List.mem_singleton.mp mem
    exact ⟨rfl, nofun⟩
  · rintro (_ | u) c ⟨active, rfl⟩ (none | error)
    · exact none.elim
    · exact absurd (show startState = errorState from error) (by decide)
    · exact none.elim
    · cases active

/-! ### Advancing -/

/-- What holds when the actions of an entry have been carried out: the version still stands where it
stood, unless it is done with the lexeme, and a new version stands beside it. -/
def Outcome.Holds (text : Text) (stray : Prop) (v : Nat) (b : Spot) : Outcome → Prop
  | .done p => p.Paid text stray
  | .reduced p new? => p.Paid text stray ∧ p.stack.IsAt v b ∧
      ∀ new, new? = some new → v < new ∧ ∃ a, p.stack.IsAt new a ∧ b.Beside a

/-- A lexeme with the symbol of a token is that token. -/
theorem leaf_eq_of_symbol (isRead : x.IsReadAt text b.pos) {t : Token}
    (symbol : x.symbol = .token t) : x.leaf = .read t := by
  rw [Lexeme.symbol] at symbol
  rcases isRead.leaf_cases with ⟨u, leaf⟩ | ⟨stuck, leaf⟩
  · rw [leaf] at symbol ⊢
    rw [Symbol.token.inj symbol]
  · rw [leaf] at symbol
    cases symbol

/-- Taking a lexeme in, as an extra if it stands outside the grammar. -/
theorem Paid.takeIn (paid : p.Paid text stray) (here : p.stack.IsAt v b)
    (isRead : x.IsReadAt text b.pos) {extra : Bool} (outside : x.leaf.isOutside = extra)
    {target : State} (leads : Tree.stateBehind b.state (x.toTree.withExtra extra) = target)
    (stays : target = errorState → b.state = errorState) :
    (p.withStack (p.stack.push v (some (x.toTree.withExtra extra)) target)).Paid text stray := by
  have pays : stray ∨ target = errorState → 0 < b.cost + (x.toTree.withExtra extra).cost :=
    fun must => Nat.add_pos_left (paid.costs v b here (must.imp_right stays)) _
  have leads' : Spot.Leads text b ⟨target, b.pos + (x.toTree.withExtra extra).extent,
      b.cost + (x.toTree.withExtra extra).cost⟩ (some (x.toTree.withExtra extra)) :=
    ⟨Tree.grown_toTree isRead outside, fun error => pays (.inr error), by rw [leads]⟩
  obtain ⟨pushed, there⟩ := paid.sound.stack.push here leads'
  refine ⟨paid.sound.withStack pushed, (paid.costs.but v).close there pays fun u c ne still => ?_⟩
  have inside := still.lt_count
  have keeps := paid.sound.stack.keeps_push (some (x.toTree.withExtra extra)) target (Ne.symm ne)
  exact (keeps.isAt_iff (by rwa [Parse.withStack, Stack.count_push] at inside) c).mp still

theorem Paid.shift (paid : p.Paid text stray) (here : p.stack.IsAt v b)
    (isRead : x.IsReadAt text b.pos) {target : State}
    (admits : .shift target ∈ (b.state.entry x.symbol).actions) :
    (p.withStack (p.stack.push v (some (x.toTree.withExtra false)) target)).Paid text stray := by
  obtain ⟨t, symbol, admits⟩ := State.exists_of_mem_entry admits
  have leaf := leaf_eq_of_symbol isRead symbol
  have notComment : t.isComment = false := State.isComment_eq_false admits (by simp)
  refine paid.takeIn here isRead ?_ ?_ fun error => absurd error (State.next_of_shift admits).2
  · rw [leaf, Leaf.isOutside, notComment, Bool.or_false]
    exact beq_false_of_ne (State.ne_eof_of_shift admits)
  · rw [Tree.stateBehind_of_not_extra _ (Tree.isExtra_withExtra ..), Tree.symbol_withExtra]
    rw [Lexeme.symbol] at symbol
    rw [Lexeme.toTree, Tree.symbol, symbol]
    exact (State.next_of_shift admits).1

theorem Paid.shiftExtra (paid : p.Paid text stray) (here : p.stack.IsAt v b)
    (isRead : x.IsReadAt text b.pos) (admits : .shiftExtra ∈ (b.state.entry x.symbol).actions) :
    (p.withStack (p.stack.push v (some (x.toTree.withExtra true)) b.state)).Paid text stray := by
  obtain ⟨t, symbol, admits⟩ := State.exists_of_mem_entry admits
  have leaf := leaf_eq_of_symbol isRead symbol
  refine paid.takeIn here isRead ?_ (Tree.stateBehind_of_extra _ (Tree.isExtra_withExtra ..)) id
  rw [leaf, Leaf.isOutside, State.isComment_of_shiftExtra admits, Bool.or_true]

theorem Paid.recover (paid : p.Paid text stray) (here : p.stack.IsAt v b)
    (isRead : x.IsReadAt text b.pos) : (p.recover v x).Paid text stray :=
  paid.sound.recover here isRead (paid.costs.but v) fun strays =>
    .inl (paid.costs v b here (.inl strays))

/-- New versions beside one that costs what it has to do so too. -/
theorem costs_of_grows (grows : Stack.Grows text b s s') (here : s.IsAt v b)
    (costs : s.Costs stray) : s'.Costs stray := by
  intro u c there
  rcases Nat.lt_or_ge u s.count with old | new
  · exact costs u c (((grows.keeps u old).isAt_iff old c).mp there)
  · obtain ⟨a, there', beside⟩ := grows.new u new there.lt_count
    obtain rfl := there.unique there'
    rintro (strays | error)
    · rw [beside.cost]
      exact costs v b here (.inl strays)
    · exact absurd error beside.state

/-- Carrying out actions that the state of a version admits for a lexeme read there. -/
theorem act_holds (isRead : x.IsReadAt text b.pos) {actions : List Action}
    (admits : ∀ a ∈ actions, a ∈ (b.state.entry x.symbol).actions) {new? : Option Nat}
    (h : (Outcome.reduced p new?).Holds text stray v b) :
    (act v x actions p new?).Holds text stray v b := by
  induction actions generalizing p new? with
  | nil => exact h
  | cons a actions ih =>
    have admitted := admits a List.mem_cons_self
    have later := fun a' mem => admits a' (List.mem_cons_of_mem _ mem)
    obtain ⟨paid, here, made⟩ := h
    cases a with
    | shift target => exact paid.shift here isRead admitted
    | shiftExtra =>
      rw [act, here.state_eq]
      exact paid.shiftExtra here isRead admitted
    | shiftRepeat target => exact ih later ⟨paid, here, made⟩
    | reduce rule size layout =>
      obtain ⟨t, _, admitted⟩ := State.exists_of_mem_entry admitted
      obtain ⟨grows, inside⟩ := paid.sound.stack.reduce here admitted
      have costs := costs_of_grows grows here paid.costs
      rw [act]
      generalize p.stack.reduce v rule size layout = result at *
      obtain ⟨s, made?⟩ := result
      dsimp only at *
      refine ih later ⟨⟨paid.sound.withStack grows.sound, costs⟩,
        (grows.keeps v here.lt_count).isAt here, ?_⟩
      intro new isNew
      cases made? with
      | none =>
        obtain ⟨lt, a, there, beside⟩ := made new isNew
        exact ⟨lt, a, (grows.keeps new there.lt_count).isAt there, beside⟩
      | some new' =>
        obtain rfl : new' = new := Option.some.inj isNew
        obtain ⟨le, lt⟩ := inside new' rfl
        exact ⟨Nat.lt_of_lt_of_le here.lt_count le, grows.new new' le lt⟩
    | accept =>
      obtain ⟨t, symbol, admitted⟩ := State.exists_of_mem_entry admitted
      obtain ⟨rfl, accepted⟩ := State.accept_spec admitted
      have ends : x.isEnd = true := by
        rw [Lexeme.isEnd, leaf_eq_of_symbol isRead symbol]
        rfl
      obtain ⟨sound, old⟩ := paid.sound.accept here accepted isRead ends fun strays =>
        paid.costs v b here (.inl strays)
      exact ⟨sound, fun u c there => paid.costs u c (old u c there).2⟩
    | recover => exact paid.recover here isRead

/-- Advancing a version by a lexeme that can be read where it stands. In the error state it does not
come to the point where the version would wait: at most, a keyword is read as a name before. -/
theorem paid_advanceBy (fuel : Nat) (paid : p.Paid text stray) (here : p.stack.IsAt v b)
    (isRead : x.IsReadAt text b.pos)
    (enough : b.state = errorState → 2 ≤ fuel ∨ 1 ≤ fuel ∧ x.leaf = .read .identifier) :
    (advanceBy v fuel x p).Paid text stray := by
  induction fuel generalizing p x b with
  | zero =>
    have notError : b.state ≠ errorState := by
      intro error
      rcases enough error with two | ⟨one, _⟩ <;> contradiction
    exact ⟨paid.sound.withStack (paid.sound.stack.pause here notError isRead), paid.costs.pause⟩
  | succ fuel ih =>
    have holds := act_holds (v := v) isRead (fun a mem => mem)
      (⟨paid, here, nofun⟩ : (Outcome.reduced p none).Holds text stray v b)
    rw [advanceBy, here.state_eq]
    generalize act v x (b.state.entry x.symbol).actions p none = outcome at *
    split
    · exact holds
    · rename_i p' new
      obtain ⟨paid', here', made⟩ := holds
      obtain ⟨lt, a, there, beside⟩ := made new rfl
      refine ih ⟨paid'.sound.withStack (paid'.sound.stack.replace v new), ?_⟩
        (Stack.replaces_replace lt there).here ?_ fun error => absurd error beside.state
      · exact paid'.costs.replace lt there
      · rwa [beside.pos]
    · rename_i p'
      obtain ⟨paid', here', _⟩ := holds
      split
      · rename_i isKeyword
        rw [Bool.and_eq_true, Bool.and_eq_true, bne_iff_ne] at isKeyword
        refine ih paid' here' (isRead.asIdentifier isKeyword.1.1) fun error => .inr ⟨?_, rfl⟩
        rcases enough error with two | ⟨_, named⟩
        · omega
        · exact absurd named isKeyword.1.2
      · split
        · exact paid'.recover here' isRead
        · rename_i notError
          exact ⟨paid'.sound.withStack (paid'.sound.stack.pause here' notError isRead),
            paid'.costs.pause⟩

theorem Paid.advance (paid : p.Paid text stray) (here : p.stack.IsAt v b) :
    (p.advance v).Paid text stray := by
  obtain ⟨sound', same, isRead⟩ := paid.sound.nextLexeme here
  have costs := paid.costs
  rw [← same] at here costs
  refine paid_advanceBy _ ⟨sound', costs⟩ here isRead fun _ => .inl ?_
  rw [Stack.patience]
  omega

theorem paid_advanceBeyond (fuel : Nat) (paid : p.Paid text stray) (furthest : Nat) :
    (advanceBeyond v fuel (p, furthest)).1.Paid text stray := by
  induction fuel generalizing p furthest with
  | zero => exact paid
  | succ fuel ih =>
    rw [advanceBeyond]
    split
    · rename_i active
      have paid' := paid.advance (Stack.isAt_of_isActive active)
      dsimp only
      split
      · exact paid'
      · exact ih paid' furthest
    · exact paid

theorem paid_advanceFrom (limit fuel : Nat) (paid : p.Paid text stray) (v furthest : Nat) :
    (advanceFrom limit fuel v (p, furthest)).1.Paid text stray := by
  induction fuel generalizing p v furthest with
  | zero => exact paid
  | succ fuel ih =>
    rw [advanceFrom]
    split
    · have paid' := paid_advanceBeyond (v := v) limit paid furthest
      generalize advanceBeyond v limit (p, furthest) = result at *
      obtain ⟨p', furthest'⟩ := result
      exact ih paid' (v + 1) furthest'
    · exact paid

/-! ### Sorting out -/

/-- The stack that is left when a version was compared with those before it. -/
def Place.stack : Place → Stack
  | .stays s _ => s
  | .gone s _ => s

/-- Versions that are removed, merged or put in another order leave no others than there were. -/
theorem sound_settleAgainst (standing : Standing) (fuel : Nat) (sound : s.Sound text)
    (costs : s.Costs stray) (w v : Nat) :
    (settleAgainst standing fuel w v s).stack.Sound text ∧
      (settleAgainst standing fuel w v s).stack.Costs stray := by
  induction fuel generalizing s w v with
  | zero => exact ⟨sound, costs⟩
  | succ fuel ih =>
    have settled := sound.settle w
    have costs' := costs.settle w
    have merged : ∀ {s'}, (s.settle w).merge? w v = some s' → s'.Sound text ∧ s'.Costs stray := by
      intro s' merges
      obtain ⟨sound', drops⟩ := settled.merge? merges
      exact ⟨sound', costs'.drops drops⟩
    rw [settleAgainst]
    split
    · exact ⟨sound, costs⟩
    · dsimp only
      split
      · exact ⟨settled.remove v, costs'.remove v⟩
      · split
        · rename_i merges
          exact merged merges
        · exact ih settled costs' (w + 1) v
      · split
        · rename_i merges
          exact merged merges
        · exact ih settled costs' (w + 1) v
      · split
        · rename_i merges
          exact merged merges
        · exact ih (settled.swap v w) (costs'.swap v w) (w + 1) v
      · exact ih (settled.remove w) (costs'.remove w) w (v - 1)

theorem sound_sortOut (fuel : Nat) (sound : s.Sound text) (costs : s.Costs stray) (v : Nat)
    (least? : Option Nat) :
    (sortOut fuel v least? s).1.Sound text ∧ (sortOut fuel v least? s).1.Costs stray := by
  induction fuel generalizing s v least? with
  | zero => exact ⟨sound, costs⟩
  | succ fuel ih =>
    rw [sortOut]
    split
    · exact ⟨sound, costs⟩
    · split
      · exact ih (sound.remove v) (costs.remove v) v least?
      · dsimp only
        have settled := sound_settleAgainst ((s.settle v).standing v) (v + 1) (sound.settle v)
          (costs.settle v) 0 v
        split
        · rename_i same
          rw [same] at settled
          exact ih settled.1 settled.2 _ _
        · rename_i same
          rw [same] at settled
          exact ih settled.1 settled.2 _ _

theorem paid_resumeFirst (fuel : Nat) (paid : p.Paid text stray) (v count : Nat) (isPursued : Bool)
    (least? : Option Nat) : (resumeFirst fuel v count isPursued least? p).1.Paid text stray := by
  induction fuel generalizing p v count isPursued least? with
  | zero => exact paid
  | succ fuel ih =>
    rw [resumeFirst]
    split
    · exact paid
    · split
      · exact ih paid _ _ _ _
      · rename_i x waits
        split
        · obtain ⟨resumed, here, isRead, notError⟩ := paid.sound.stack.resume waits
          exact ih ((paid.sound.withStack resumed).handleError here notError isRead
            paid.costs.resume) _ _ _ _
        · exact ih ⟨paid.sound.withStack (paid.sound.stack.remove v), paid.costs.remove v⟩ _ _ _ _

theorem Paid.condense (paid : p.Paid text stray) : p.condense.1.Paid text stray := by
  obtain ⟨sorted, costs⟩ := sound_sortOut (2 * p.stack.count + 1) paid.sound.stack paid.costs 0 none
  rw [Parse.condense]
  exact paid_resumeFirst _ ⟨paid.sound.withStack (sorted.take Stack.maxVersions),
    costs.take Stack.maxVersions⟩ _ _ _ _

/-! ### The whole parse -/

theorem Paid.rounds (limit fuel : Nat) (paid : p.Paid text stray) (furthest : Nat) :
    (p.rounds limit fuel furthest).Paid text stray := by
  induction fuel generalizing p furthest with
  | zero => exact paid
  | succ fuel ih =>
    rw [Parse.rounds]
    split
    · exact paid
    · have advanced := paid_advanceFrom limit limit paid 0 furthest
      generalize advanceFrom limit limit 0 (p, furthest) = result at *
      obtain ⟨p', furthest'⟩ := result
      have condensed := Paid.condense advanced
      dsimp only
      split
      · exact condensed
      · exact ih condensed furthest'

/-- All of a text, as one error, is a tree over it, and has a cost. -/
theorem ends_unparsed (text : Text) (stray : Prop) : Ends text stray (unparsed text) := by
  refine ⟨⟨Tree.grown_ofChildren ⟨List.cons_ne_nil _ [], nofun⟩ ?_, ?_, .inr ⟨_, rfl⟩⟩,
    fun _ => Nat.pos_of_ne_zero (Tree.cost_ofChildren_error _)⟩
  · exact Tree.grownOf_singleton.mpr (.whole rfl)
  · rw [unparsed, Tree.extent_ofChildren, Tree.extentOf_cons, Tree.extentOf_nil, Extent.add_zero]
    exact Extent.zero_add _

/-- The tree that a parse ends with. -/
theorem Sound.ends (sound : p.Sound text stray) :
    Ends text stray (p.finished?.getD (unparsed text)) := by
  cases finished : p.finished? with
  | none => exact ends_unparsed text stray
  | some t => exact sound.finished finished

/-- The tree of a text is a tree over the whole text. -/
theorem isWhole_run (text : Text) : (run text).IsWhole text := by
  have paid := (paid_start text).rounds (16 * (text.length + 16)) (16 * (text.length + 16)) 0
  rw [run]
  exact paid.sound.ends.whole

end Parse

/-- The tree of a source is a tree over the whole of it. -/
theorem isWhole_parse (source : List UInt8) :
    (parse source).IsWhole (Text.decode source) :=
  Parse.isWhole_run _

end SusSyntax
