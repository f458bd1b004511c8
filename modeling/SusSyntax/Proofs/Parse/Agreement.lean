import SusSyntax.Proofs.Diagnostics.Outermost
import SusSyntax.Proofs.Parse.Closing

/-!
The parse agrees with the single stack.

From round to round the one version that is left pursues what the single stack does
(`Tracks.turn`), so a parse ends with the tree that the single stack accepts with, and this has no
error. Where the single stack cannot go on, nothing is pursued any more, and whatever the recovery
makes of the text has a cost (`agrees_run`). So the tree of a source has no error just if the single
stack comes to an acceptance, and then it is the tree that is built there (`parse_agrees`).
-/

namespace SusSyntax

open Grammar Lexical Plain

/-! ### The single stack -/

namespace Plain

variable {text : Text} {c d : Config} {m : Move}

/-- The trees on a stack stand between states, and the lexeme was read somewhere in the text. -/
structure Config.Sound (text : Text) (c : Config) : Prop where
  carries : ∃ states, Carries startState c.frames states
  isRead : ∀ x, c.read? = some x → ∃ pos, x.IsReadAt text pos

/-- The machine can accept. -/
def Config.IsAccepting (c : Config) : Prop :=
  ∃ x, c.read? = some x ∧ .accept ∈ (c.entryFor x).actions

theorem Step.sound (step : Step text c m d) (h : c.Sound text) : d.Sound text := by
  obtain ⟨⟨states, carries⟩, isRead⟩ := h
  cases step with
  | read => exact ⟨⟨states, carries⟩, fun x same =>
      Option.some.inj same ▸ ⟨_, Lexeme.isReadAt_scan ..⟩⟩
  | @rename _ x known renames =>
    obtain ⟨pos, readAt⟩ := isRead x known
    simp only [Config.renames, Bool.and_eq_true] at renames
    exact ⟨⟨states, carries⟩, fun y same =>
      Option.some.inj same ▸ ⟨pos, readAt.asIdentifier renames.1.1.2⟩⟩
  | @act _ _ x a known stays admits applies =>
    obtain ⟨pos, readAt⟩ := isRead x known
    obtain ⟨s, below, rfl⟩ := carries.exists_eq_cons
    obtain ⟨t, symbol, admits⟩ := State.exists_of_mem_entry admits
    have leaf := Parse.leaf_eq_of_symbol (b := ⟨errorState, pos, 0⟩) readAt symbol
    rw [carries.topState_eq] at admits
    cases apply_eq_some_iff.mp applies with
    | shift =>
      obtain ⟨next, ne⟩ := State.next_of_shift admits
      have isToken : (x.toTree.withExtra false).symbol = .token t := by
        rw [Lexeme.toTree, leaf]
        rfl
      rw [← isToken] at next
      subst next
      refine ⟨⟨_, .inside carries (Tree.isExtra_withExtra ..) (fun u same => ?_) ne⟩,
        fun _ none => by cases none⟩
      obtain rfl := Symbol.token.inj (isToken.symm.trans same)
      exact State.isComment_eq_false admits (by simp)
    | shiftExtra =>
      refine ⟨⟨s :: below, ?_⟩, fun _ none => by cases none⟩
      rw [carries.topState_eq]
      exact .extra carries (Tree.isExtra_withExtra ..)
    | @reduce rule size layout trees left n popped goto =>
      obtain ⟨_, _, q, above, n', popped', -, carriesLeft, goto', carries', -⟩ :=
        carries.reduce admits (carries.size_le admits)
      obtain ⟨rfl, rfl⟩ := Prod.mk.inj (Option.some.inj (popped'.symm.trans popped))
      rw [carriesLeft.topState_eq] at goto
      obtain rfl := Option.some.inj (goto'.symm.trans goto)
      exact ⟨⟨_, carries'⟩, fun y same => Option.some.inj same ▸ ⟨pos, readAt⟩⟩

theorem sound_initial (text : Text) : Config.initial.Sound text :=
  ⟨⟨_, .start⟩, nofun⟩

theorem Run.sound (run : Run text c d) (h : c.Sound text) : d.Sound text := by
  induction run with
  | done => exact h
  | step step _ ih => exact ih (step.sound h)

/-- Where the machine can accept there is a tree to accept with: a root over the trees on the stack,
or over what is right below them, and the end of the text. -/
theorem Config.Sound.exists_accepted (h : c.Sound text) (accepting : c.IsAccepting) :
    ∃ layout ts, c.accepted? = some (.ofChildren (.rule .sourceFile layout) ts) ∧
      ∀ u ∈ ts, (∃ x : Lexeme, u = x.toTree) ∨ ∃ f ∈ c.frames, u = f.tree ∨ u ∈ f.tree.children := by
  obtain ⟨⟨states, carries⟩, isRead⟩ := h
  obtain ⟨s, below, rfl⟩ := carries.exists_eq_cons
  obtain ⟨x, known, admits⟩ := accepting
  obtain ⟨pos, readAt⟩ := isRead x known
  have accepts := admits
  obtain ⟨t, symbol, admits⟩ := State.exists_of_mem_entry admits
  have leaf := Parse.leaf_eq_of_symbol (b := ⟨errorState, pos, 0⟩) readAt symbol
  rw [carries.topState_eq] at admits
  obtain ⟨rfl, accepted⟩ := State.accept_spec admits
  rw [accepted] at carries
  have extra : x.toTree.isExtra = true := by
    rw [Lexeme.toTree, Lexeme.isEnd, leaf]
    rfl
  obtain ⟨layout, ts, root, below⟩ := Carries.exists_root carries extra
  refine ⟨layout, ts, accepted?_eq_some_iff.mpr ⟨x, known, accepts, root⟩, fun u mem => ?_⟩
  rcases below u mem with last | ⟨f, isFrame, same⟩ | ⟨f, isFrame, child⟩
  · exact .inl ⟨x, last⟩
  · exact .inr ⟨f, isFrame, .inl same⟩
  · exact .inr ⟨f, isFrame, .inr child⟩

theorem Config.isAccepting_of_accepted? {t : Tree} (h : c.accepted? = some t) : c.IsAccepting := by
  obtain ⟨x, known, accepts, -⟩ := accepted?_eq_some_iff.mp h
  exact ⟨x, known, accepts⟩

end Plain

namespace Text

theorem bytes_le_of_isPlace {text : Text} {p : Extent} (h : text.IsPlace p) :
    p.bytes ≤ text.extent.bytes := by
  obtain ⟨before, after, rfl, rfl⟩ := h
  rw [extent_append, Extent.bytes_add]
  exact Nat.le_add_right ..

theorem bytes_le (text : Text) : text.extent.bytes ≤ 4 * text.length := by
  induction text with
  | nil => exact Nat.le_refl _
  | cons g text ih =>
    have width : g.extent.bytes ≤ 4 := by
      have : g.width ≤ 4 := by
        cases g with
        | malformed b => exact (by decide : 1 ≤ 4)
        | char code =>
          rw [Glyph.width]
          repeat' split
          all_goals decide
      rw [Glyph.extent]
      split
      · decide
      · exact this
    rw [extent_cons, Extent.bytes_add, List.length_cons]
    omega

end Text

/-! ### From round to round -/

namespace Parse

variable {text : Text} {p : Parse} {furthest : Nat}

/-- What holds between rounds, as long as the single stack has a way to go on. -/
structure Tracks (text : Text) (p : Parse) (furthest : Nat) : Prop
    extends Begins text p furthest where
  paid : p.Paid text False
  pursues : Pursues text p.stack

theorem Tracks.turn (h : Tracks text p furthest) (limit : Nat) :
    Turn text (p.stack.pos 0).bytes (advanceFrom (limit + 3) (limit + 3) 0 (p, furthest)) := by
  cases h.pursues with
  | lone bottom bears agrees => exact h.turn_lone bottom bears agrees limit
  | forked forks terms types places bears agrees =>
    exact h.turn_forked forks terms types places bears agrees limit

/-- A tree is the one that the single stack accepts with, without an error, or it has an error and
the single stack accepts with none. -/
def Agrees (text : Text) (t : Tree) : Prop :=
  t.cost = 0 ∧ (∀ u, Accepts text u ↔ t = u) ∨ 0 < t.cost ∧ ∀ u, ¬Accepts text u

/-- Where nothing is pursued and nothing was finished, everything to come has a cost. -/
theorem Paid.strays (h : p.Paid text False) (finished : p.finished? = none)
    (stopped : ∀ v, p.stack.isActive v = false) : p.Paid text True := by
  refine ⟨⟨h.sound.text_eq, h.sound.stack, h.sound.lastRead, fun isFinished => ?_⟩,
    fun v c here => ?_⟩
  · rw [finished] at isFinished
    cases isFinished
  · have active := stopped v
    rw [Stack.isActive, here.1] at active
    cases active

theorem agrees_rounds (limit : Nat) (h : Tracks text p furthest) (fuel : Nat)
    (enough : text.extent.bytes < fuel + (p.stack.pos 0).bytes) :
    Agrees text ((p.rounds (limit + 3) fuel furthest).finished?.getD (unparsed text)) := by
  induction fuel generalizing p furthest with
  | zero =>
    have := Text.bytes_le_of_isPlace h.place
    omega
  | succ fuel ih =>
    have paid := paid_advanceFrom (limit + 3) (limit + 3) h.paid 0 furthest
    have turn := h.turn limit
    rw [rounds, if_neg (by rw [h.one]; decide)]
    generalize advanceFrom (limit + 3) (limit + 3) 0 (p, furthest) = result at *
    cases turn with
    | @goes q furthest' s x condensed finished last one further le pursues =>
      have paid' := Paid.condense paid
      have undecided : (q.withStack s).isDecided (some 0) = false := by
        simp [isDecided, withStack, finished]
      dsimp only
      rw [condensed] at paid' ⊢
      dsimp only
      rw [undecided]
      have active : s.isActive 0 = true := by
        cases pursues with
        | lone _ bears _ => exact isActive_of_stands bears.toStands
        | forked _ _ _ _ bears _ => exact isActive_of_stands bears.toStands
      refine ih ⟨⟨paid'.sound.text_eq, paid'.sound.stack.place_of_isAt
        (Stack.isAt_of_isActive active), finished, one, fun place x known => ?_, le⟩, paid',
        pursues⟩ ?_
      · obtain ⟨rfl, -⟩ := Prod.mk.inj (Option.some.inj (last.symm.trans known))
        exact further
      · change _ < fuel + (s.pos 0).bytes
        omega
    | @ends q furthest' s t condensed finished free accepts =>
      have decided : (q.withStack s).isDecided none = true := by
        simp [isDecided, withStack, finished]
      dsimp only
      rw [condensed]
      dsimp only
      rw [decided, if_pos rfl, show (q.withStack s).finished? = some t from finished]
      exact .inl ⟨free, accepts⟩
    | @fails q furthest' stopped finished accepts =>
      have condensed := Paid.condense (paid.strays finished stopped)
      refine .inr ⟨Sound.ends ?_ |>.costs trivial, accepts⟩
      dsimp only
      split
      · exact condensed.sound
      · exact (condensed.rounds (limit + 3) fuel furthest').sound

theorem tracks_start (text : Text) : Tracks text (start text) 0 where
  text_eq := rfl
  place := Text.isPlace_zero text
  finished := rfl
  one := rfl
  fresh := nofun
  furthest_le := Nat.le_refl 0
  paid := paid_start text
  pursues := .lone rfl ⟨⟨rfl, Nat.zero_lt_one, .start⟩, .start, fun _ mem =>
    absurd mem List.not_mem_nil⟩ fun _ => Iff.rfl

/-- The tree of a text and the acceptance of it agree. -/
theorem agrees_run (text : Text) : Agrees text (run text) := by
  have enough : text.extent.bytes < 16 * (text.length + 16) + ((start text).stack.pos 0).bytes := by
    have := text.bytes_le
    omega
  have agrees := agrees_rounds (16 * text.length + 253) (tracks_start text) _ enough
  rw [show 16 * text.length + 253 + 3 = 16 * (text.length + 16) by omega] at agrees
  exact agrees

end Parse

variable {source : List UInt8}

/-- A source without errors is accepted with its tree, and with no other one. -/
theorem accepts_iff_of_isClean (clean : (parse source).isClean = true) (t : Tree) :
    Accepts (Text.decode source) t ↔ parse source = t := by
  rcases Parse.agrees_run (Text.decode source) with ⟨-, accepts⟩ | ⟨cost, -⟩
  · exact accepts t
  · exact absurd (Tree.isClean_iff.mp clean) (Nat.ne_of_gt cost)

theorem isClean_of_accepts {t : Tree} (h : Accepts (Text.decode source) t) :
    (parse source).isClean = true := by
  rcases Parse.agrees_run (Text.decode source) with ⟨free, -⟩ | ⟨-, rejects⟩
  · exact Tree.isClean_iff.mpr free
  · exact absurd h (rejects t)

/-- A source has a tree without errors, and then no errors are listed for it, just if some run of
the single stack comes to an acceptance; and every run that does has built this very tree. -/
theorem parse_agrees (source : List UInt8) :
    ((parse source).isClean = true ↔
        ∃ c, Run (Text.decode source) .initial c ∧ c.IsAccepting) ∧
      ((parse source).isClean = true ↔ (parse source).syntaxErrors = []) ∧
      ∀ c, Run (Text.decode source) .initial c → c.IsAccepting →
        c.accepted? = some (parse source) := by
  have accepted (c : Config) (run : Run (Text.decode source) .initial c)
      (accepting : c.IsAccepting) : ∃ t, c.accepted? = some t :=
    let ⟨_, _, accepted, _⟩ := (run.sound (sound_initial _)).exists_accepted accepting
    ⟨_, accepted⟩
  refine ⟨⟨fun clean => ?_, fun ⟨c, run, accepting⟩ => ?_⟩,
    (isWhole_parse source).isClean_iff_syntaxErrors, fun c run accepting => ?_⟩
  · obtain ⟨c, run, accepted⟩ := (accepts_iff_of_isClean clean _).mpr rfl
    exact ⟨c, run, Config.isAccepting_of_accepted? accepted⟩
  · obtain ⟨t, accepted⟩ := accepted c run accepting
    exact isClean_of_accepts ⟨c, run, accepted⟩
  · obtain ⟨t, accepted⟩ := accepted c run accepting
    have accepts : Accepts (Text.decode source) t := ⟨c, run, accepted⟩
    rw [accepted, (accepts_iff_of_isClean (isClean_of_accepts accepts) t).mp accepts]

/-- An index that is a type and one that is not, and then one that is not closed: the first source
is accepted with its tree, the second one not at all. -/
theorem parse_agrees_on_indexes :
    (∃ c, Run (Text.decode "module m\x7b\nt[1] a\na[1] = 2\n\x7d".toUTF8.data.toList) .initial c ∧
        c.accepted? = some (parse "module m\x7b\nt[1] a\na[1] = 2\n\x7d".toUTF8.data.toList)) ∧
      ∀ c, Run (Text.decode "module m\x7b\nt[1 a\n\x7d".toUTF8.data.toList) .initial c →
        ¬c.IsAccepting := by
  constructor
  · obtain ⟨agrees, -, trees⟩ :=
      parse_agrees "module m\x7b\nt[1] a\na[1] = 2\n\x7d".toUTF8.data.toList
    obtain ⟨c, run, accepting⟩ := agrees.mp (by decide +kernel)
    exact ⟨c, run, trees c run accepting⟩
  · intro c run accepting
    have clean := (parse_agrees "module m\x7b\nt[1 a\n\x7d".toUTF8.data.toList).1.mpr
      ⟨c, run, accepting⟩
    revert clean
    decide +kernel

end SusSyntax
