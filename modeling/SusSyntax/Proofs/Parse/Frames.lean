import SusSyntax.Parse.Plain
import SusSyntax.Proofs.Grammar.Unambiguous
import SusSyntax.Proofs.Parse.Finish

/-!
The trees on a single stack, and the tree that an accepting run builds.

What an action makes of the single stack is said once (`Plain.Acts`). The frames of a stack carry a
tree between any two states (`Plain.Carries`). So whenever the machine of the table takes a step, the
frames go along with it (`Grammar.Machine.Step.carries`), and where it accepts, there is a root over
all of them. Since the machine has at most one accepting run, there is at most one tree for a sequence
of tokens (`Grammar.Machine.accepts_unique`).
-/

namespace SusSyntax

open Grammar Lexical

namespace Plain

/-! ### What the single stack does -/

/-- What an action makes of the stack and the lexeme `x`. -/
inductive Acts (frames : List Frame) (x : Lexeme) : Action → Config → Prop where
  | shift (target : State) :
      Acts frames x (.shift target) ⟨⟨x.toTree.withExtra false, target⟩ :: frames, none⟩
  | shiftExtra :
      Acts frames x .shiftExtra ⟨⟨x.toTree.withExtra true, topState frames⟩ :: frames, none⟩
  | reduce {rule : Rule} {size layout : Nat} {trees : List Tree} {left : List Frame}
      {target : State} : pop size frames = some (trees, left) →
      (topState left).row.goto? rule = some target →
      Acts frames x (.reduce rule size layout) ⟨putNode rule layout trees target left, some x⟩

theorem apply_eq_some_iff {frames : List Frame} {read? : Option Lexeme} {x : Lexeme} {a : Action}
    {d : Config} : Config.apply ⟨frames, read?⟩ x a = some d ↔ Acts frames x a d := by
  constructor
  · intro applies
    cases a with
    | shift target =>
      obtain rfl := Option.some.inj applies
      exact .shift target
    | shiftExtra =>
      obtain rfl := Option.some.inj applies
      exact .shiftExtra
    | reduce rule size layout =>
      simp only [Config.apply, Option.bind_eq_bind, Option.bind_eq_some_iff] at applies
      obtain ⟨⟨trees, left⟩, popped, target, goto, same⟩ := applies
      obtain rfl := Option.some.inj same
      exact .reduce popped goto
    | shiftRepeat | accept | recover => cases applies
  · rintro (target | _ | ⟨popped, goto⟩)
    · rfl
    · rfl
    · simp [Config.apply, popped, goto]

/-- Where the machine accepts, the tree is the root over all trees that there are. -/
theorem accepted?_eq_some_iff {c : Config} {t : Tree} : c.accepted? = some t ↔
    ∃ x, c.read? = some x ∧ .accept ∈ (c.entryFor x).actions ∧
      Parse.rootOf? ((c.frames.map Frame.tree).reverse ++ [x.toTree]) = some t := by
  rw [Config.accepted?]
  cases c.read? with
  | none => simp
  | some x => simp

/-! ### The trees between the states -/

/-- The trees of some frames over the state `base` stand between these states, extras behind a
state. -/
inductive Carries (base : State) : List Frame → List State → Prop where
  | start : Carries base [] [base]
  | inside {frames : List Frame} {s : State} {below : List State} {t : Tree} :
      Carries base frames (s :: below) → t.isExtra = false →
      (∀ u, t.symbol = .token u → u.isComment = false) → s.next t.symbol ≠ errorState →
      Carries base (⟨t, s.next t.symbol⟩ :: frames) (s.next t.symbol :: s :: below)
  | extra {frames : List Frame} {s : State} {below : List State} {t : Tree} :
      Carries base frames (s :: below) → t.isExtra = true →
      Carries base (⟨t, s⟩ :: frames) (s :: below)

namespace Carries

variable {frames : List Frame} {states below : List State} {base s n : State}

theorem exists_eq_cons (h : Carries base frames states) : ∃ s below, states = s :: below := by
  cases h with
  | start | inside | extra => exact ⟨_, _, rfl⟩

theorem topState_append {rest : List Frame} (h : Carries base frames (s :: below))
    (same : topState rest = base) : topState (frames ++ rest) = s := by
  cases h with
  | start => exact same
  | inside | extra => rfl

theorem topState_eq (h : Carries startState frames (s :: below)) : topState frames = s := by
  have top : topState (frames ++ []) = s := h.topState_append rfl
  rwa [List.append_nil] at top

/-- Taking trees off a stack takes as many states off. -/
theorem pop {size : Nat} (h : Carries base frames states) (dropped : states.drop size = s :: below) :
    ∃ trees left, Plain.pop size frames = some (trees, left) ∧ Carries base left (s :: below) := by
  induction h generalizing size with
  | start =>
    cases size with
    | zero => exact ⟨[], [], rfl, dropped ▸ .start⟩
    | succ size => simp at dropped
  | @inside frames q rest t carries inside free ne ih =>
    cases size with
    | zero => exact ⟨[], _, rfl, dropped ▸ .inside carries inside free ne⟩
    | succ size =>
      obtain ⟨trees, left, popped, carries⟩ := ih dropped
      refine ⟨trees ++ [t], left, ?_, carries⟩
      simp [Plain.pop, inside, popped]
  | @extra frames q rest t carries extra ih =>
    cases size with
    | zero => exact ⟨[], _, rfl, dropped ▸ .extra carries extra⟩
    | succ size =>
      obtain ⟨trees, left, popped, carries⟩ := ih dropped
      refine ⟨trees ++ [t], left, ?_, carries⟩
      simp [Plain.pop, extra, popped]

theorem pushExtras {extras : List Tree} (h : Carries base frames (s :: below))
    (all : ∀ t ∈ extras, t.isExtra = true) :
    Carries base (extras.foldl (fun frames t => ⟨t, s⟩ :: frames) frames) (s :: below) := by
  induction extras generalizing frames with
  | nil => exact h
  | cons t extras ih =>
    obtain ⟨first, all⟩ := List.forall_mem_cons.mp all
    exact ih (.extra h first) all

theorem putNode {rule : Rule} (h : Carries base frames (s :: below))
    (goto : s.row.goto? rule = some n) (layout : Nat) (trees : List Tree) :
    Carries base (Plain.putNode rule layout trees n frames) (n :: s :: below) := by
  obtain ⟨rfl, ne⟩ := State.next_of_goto? goto
  have node : Carries base (⟨.ofChildren (.rule rule layout) (Tree.splitTrailingExtras trees).1,
      s.next (.rule rule)⟩ :: frames) (s.next (.rule rule) :: s :: below) :=
    .inside h rfl (fun u isToken => by cases isToken) ne
  exact node.pushExtras fun t => Tree.isExtra_of_mem_trailing

/-- On top of a stack there are extras, and below them a tree that leads to the topmost state. -/
theorem exists_top (h : Carries base frames (s :: below)) (ne : s ≠ base) :
    ∃ (extras rest : List Tree) (t : Tree) (q : State),
      (frames.map Frame.tree).reverse = rest ++ [t] ++ extras ∧
      (∀ u ∈ extras, u.isExtra = true) ∧ t.isExtra = false ∧
      (∀ u, t.symbol = .token u → u.isComment = false) ∧ q.next t.symbol = s := by
  generalize same : s :: below = states at h
  induction h generalizing s below with
  | start => exact absurd (List.cons.inj same).1 ne
  | @inside frames q rest t carries inside free _ =>
    obtain ⟨rfl, _⟩ := List.cons.inj same
    exact ⟨[], (frames.map Frame.tree).reverse, t, q, by simp,
      fun u mem => absurd mem List.not_mem_nil, inside, free, rfl⟩
  | @extra frames q rest t carries extra ih =>
    obtain ⟨rfl, rfl⟩ := List.cons.inj same
    obtain ⟨extras, rest, u, q, trees, all, top⟩ := ih ne rfl
    refine ⟨extras ++ [t], rest, u, q, ?_, fun v mem => ?_, top⟩
    · rw [List.map_cons, List.reverse_cons, trees, List.append_assoc]
    · rcases List.mem_append.mp mem with mem | mem
      · exact all v mem
      · rwa [List.mem_singleton.mp mem]

end Carries

end Plain

namespace Tree

/-- Only nodes stand for rules. -/
theorem exists_node_of_symbol {t : Tree} {r : Rule} (h : t.symbol = .rule r) :
    ∃ layout extra measure children, t = .node (.rule r layout) extra measure children := by
  cases t with
  | leaf content => cases content <;> cases h
  | node label extra measure children =>
    cases label with
    | rule r' layout =>
      obtain rfl := Symbol.rule.inj h
      exact ⟨layout, extra, measure, children, rfl⟩
    | error | skipped => cases h

end Tree

namespace Plain.Carries

variable {frames : List Frame} {below : List State}

/-- Behind the start symbol there is a root over all trees, or over their children. -/
theorem exists_root (h : Carries startState frames (State.acceptState :: below)) {last : Tree}
    (extra : last.isExtra = true) :
    ∃ layout ts, Parse.rootOf? ((frames.map Frame.tree).reverse ++ [last]) =
        some (.ofChildren (.rule .sourceFile layout) ts) ∧
      ∀ u ∈ ts, u = last ∨ (∃ f ∈ frames, u = f.tree) ∨ ∃ f ∈ frames, u ∈ f.tree.children := by
  obtain ⟨extras, rest, t, q, trees, all, inside, free, next⟩ :=
    h.exists_top State.acceptState_ne_startState
  have isRoot : t.symbol = .rule .sourceFile := by
    by_cases same : q = State.acceptState
    · rw [same] at next
      obtain ⟨u, isToken, comment⟩ := State.isComment_of_next_acceptState next
      rw [free u isToken] at comment
      cases comment
    · exact (State.next_eq_acceptState same next).2
  obtain ⟨layout, isExtra, measure, children, rfl⟩ := Tree.exists_node_of_symbol isRoot
  have known : ∀ u ∈ rest ++ [.node (.rule .sourceFile layout) isExtra measure children] ++ extras,
      ∃ f ∈ frames, u = f.tree := by
    intro u mem
    rw [← trees, List.mem_reverse] at mem
    obtain ⟨f, isFrame, rfl⟩ := List.mem_map.mp mem
    exact ⟨f, isFrame, rfl⟩
  have extras' : ∀ u ∈ extras ++ [last], u.isExtra = true := by
    intro u mem
    rcases List.mem_append.mp mem with mem | mem
    · exact all u mem
    · rw [List.mem_singleton.mp mem]
      exact extra
  refine ⟨layout, rest ++ children ++ (extras ++ [last]), ?_, fun u mem => ?_⟩
  · rw [trees, List.append_assoc, Parse.rootOf?, Tree.splitTrailingExtras_append inside extras']
    simp
  · obtain ⟨f, isFrame, isRoot⟩ := known (.node (.rule .sourceFile layout) isExtra measure children)
      (by simp)
    simp only [List.mem_append, List.mem_singleton] at mem
    rcases mem with (mem | mem) | mem | rfl
    · exact .inr (.inl (known u (by simp [mem])))
    · exact .inr (.inr ⟨f, isFrame, isRoot ▸ mem⟩)
    · exact .inr (.inl (known u (by simp [mem])))
    · exact .inl rfl

end Plain.Carries

namespace Grammar.Machine

/-! ### The trees of a run -/

/-- A token as a lexeme that takes up no text. -/
def bare (t : Token) : Lexeme :=
  ⟨.read t, .zero, .zero, false, errorState⟩

/-- The tokens that an action leaves. -/
def leaves : Action → List Token → List Token
  | .reduce .., w => w
  | _, w => w.tail

/-- The frames that actions make of these frames and tokens. -/
def build? (frames : List Plain.Frame) (w : List Token) : List Action → Option (List Plain.Frame)
  | [] => some frames
  | a :: xs => do
    let next ← Plain.Config.apply ⟨frames, none⟩ (bare (w.headD .eof)) a
    build? next.frames (leaves a w) xs

/-- The tree that a run with these actions builds on tokens. -/
def treeOf? (w : List Token) (xs : List Action) : Option Tree :=
  (build? [] w xs).bind fun frames =>
    Parse.rootOf? ((frames.map Plain.Frame.tree).reverse ++ [(bare .eof).toTree])

variable {c d : Config} {frames : List Plain.Frame} {a : Action} {xs : List Action}

/-- The frames go along with a step. -/
theorem Step.carries (step : Step c a d) (h : Plain.Carries startState frames c.states) :
    ∃ next, Plain.Config.apply ⟨frames, none⟩ (bare (c.ahead.headD .eof)) a = some next ∧
      Plain.Carries startState next.frames d.states ∧ d.ahead = leaves a c.ahead := by
  cases step with
  | @shift s target below t rest known =>
    obtain ⟨rfl, ne⟩ := State.next_of_shift known
    refine ⟨_, rfl, .inside (t := (bare t).toTree.withExtra false) h rfl (fun u isToken => ?_) ne, rfl⟩
    obtain rfl := Symbol.token.inj isToken
    exact State.isComment_eq_false known (by simp)
  | @shiftExtra s below t rest known =>
    refine ⟨_, rfl, ?_, rfl⟩
    rw [Plain.Carries.topState_eq h]
    exact .extra h rfl
  | reduce known dropped found =>
    obtain ⟨trees, left, popped, carries⟩ := h.pop dropped
    rw [← carries.topState_eq] at found
    exact ⟨_, Plain.apply_eq_some_iff.mpr (.reduce popped found),
      carries.putNode (carries.topState_eq ▸ found) _ trees, rfl⟩

theorem Run.carries (run : Run c xs d) (h : Plain.Carries startState frames c.states) :
    ∃ built, build? frames c.ahead xs = some built ∧ Plain.Carries startState built d.states := by
  induction run generalizing frames with
  | done => exact ⟨frames, rfl, h⟩
  | step step _ ih =>
    obtain ⟨next, applies, carries, ahead⟩ := step.carries h
    obtain ⟨built, builds, carries⟩ := ih carries
    refine ⟨built, ?_, carries⟩
    rw [ahead] at builds
    rw [build?, applies]
    exact builds

/-- A run that accepts builds a tree. -/
theorem exists_tree {w : List Token} (h : AcceptsBy w xs) : ∃ t, treeOf? w xs = some t := by
  obtain ⟨⟨states, ahead⟩, run, accepts⟩ := h
  obtain ⟨built, builds, carries⟩ := run.carries (c := .initial w) .start
  cases states with
  | nil => cases carries
  | cons s below =>
    rw [top_of_accepts accepts] at carries
    have extra : (bare .eof).toTree.isExtra = true := rfl
    obtain ⟨layout, ts, root, -⟩ := carries.exists_root extra
    refine ⟨.ofChildren (.rule .sourceFile layout) ts, ?_⟩
    rw [treeOf?, show build? [] w xs = some built from builds]
    exact root

/-- Two runs on the same tokens that accept take the same actions and build the same tree. -/
theorem accepts_unique {w : List Token} {xs ys : List Action} (first : AcceptsBy w xs)
    (second : AcceptsBy w ys) :
    xs = ys ∧ ∃ t, treeOf? w xs = some t ∧ treeOf? w ys = some t := by
  obtain ⟨t, builds⟩ := exists_tree first
  obtain ⟨c, run, accepts⟩ := first
  obtain ⟨d, run', accepts'⟩ := second
  obtain rfl := actions_eq_of_accepts run run' accepts accepts'
  exact ⟨rfl, t, builds, builds⟩

/-- In a module with `t[1] a` in it, the name before the brackets is a type. -/
theorem accepts_unique_arrayType :
    ∃ xs t, AcceptsBy [.moduleKw, .identifier, .lbrace, .identifier, .lbracket, .number, .rbracket,
        .identifier, .rbrace] xs ∧
      .reduce .arrayType 2 8 ∈ xs ∧
      treeOf? [.moduleKw, .identifier, .lbrace, .identifier, .lbracket, .number, .rbracket,
        .identifier, .rbrace] xs = some t := by
  have accepts : AcceptsBy [.moduleKw, .identifier, .lbrace, .identifier, .lbracket, .number,
      .rbracket, .identifier, .rbrace]
      [.shift 223, .shift 158, .shift 2, .shift 12, .reduce .namespaceList 1 1,
       .reduce .templateGlobal 1 3, .reduce .type 1 0, .shift 71, .shift 73, .shift 33,
       .reduce .arrayBracketExpression 3 24, .reduce .arrayType 2 8, .shift 101,
       .reduce .declaration 2 19, .reduce .assignTo 1 14, .reduce .assignLeftSide 1 1, .shift 145,
       .reduce .block 3 5, .reduce .globalObject 3 6, .reduce .sourceFile 1 1] := by
    decide +kernel
  obtain ⟨_, t, builds, _⟩ := accepts_unique accepts accepts
  exact ⟨_, t, accepts, by decide, builds⟩

end Grammar.Machine

end SusSyntax
