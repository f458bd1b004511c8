import Mathlib.Algebra.Group.Nat.Defs
import SusSyntax.Grammar.Machine
import SusSyntax.Proofs.Grammar.Goals
import SusSyntax.Proofs.Grammar.Transitions

/-!
The machine reads what its states expect.

A state expects a goal if it has a place for it, and the goal leads from there to a state of its own
(`State.after`). With which tokens behind the goal the machine gets there is read off the states that
the ways of the goal end in (`State.allowed`). The table is checked once for all states and goals
(`State.ready_all`): each way can be walked, and what follows a goal in it is allowed there. So the
machine gets behind every goal that it expects.
-/

namespace SusSyntax.Grammar

/-! ### Sets of tokens -/

/-- A set of tokens, as a number with a bit for each token. -/
abbrev TokenSet := Nat

namespace TokenSet

/-- Whether a token is in a set. -/
def has (m : TokenSet) (t : Token) : Bool :=
  m.testBit t.id

/-- The set of some tokens. -/
def ofTokens : List Token → TokenSet
  | [] => 0
  | t :: ts => 2 ^ t.id ||| ofTokens ts

/-- The tokens in all of several sets. -/
def meet : List TokenSet → TokenSet
  | [] => ofTokens Token.all
  | m :: ms => m &&& meet ms

/-- Whether a set is contained in another. -/
def isSubset (m n : TokenSet) : Bool :=
  Nat.beq (m &&& n) m

theorem id_inj {t u : Token} (h : t.id = u.id) : t = u :=
  Option.some.inj (by rw [← Token.ofId?_id t, ← Token.ofId?_id u, h])

theorem has_ofTokens {ts : List Token} {t : Token} : has (ofTokens ts) t = true ↔ t ∈ ts := by
  induction ts with
  | nil => simp [has, ofTokens]
  | cons u ts ih =>
    have bit : (2 ^ u.id).testBit t.id = true ↔ t = u := by
      rw [Nat.testBit_two_pow, decide_eq_true_iff]
      exact ⟨fun same => (id_inj same).symm, fun same => same ▸ rfl⟩
    rw [List.mem_cons, ← ih, ← bit, has, ofTokens, Nat.testBit_or, Bool.or_eq_true]
    rfl

theorem has_and {m n : TokenSet} {t : Token} :
    has (m &&& n) t = true ↔ has m t = true ∧ has n t = true := by
  rw [has, Nat.testBit_and, Bool.and_eq_true]
  rfl

theorem has_meet {ms : List TokenSet} {m : TokenSet} {t : Token} (h : has (meet ms) t = true)
    (mem : m ∈ ms) : has m t = true := by
  induction ms with
  | nil => cases mem
  | cons n ms ih =>
    obtain ⟨first, rest⟩ := has_and.mp h
    rcases List.mem_cons.mp mem with rfl | mem
    · exact first
    · exact ih rest mem

theorem has_of_isSubset {m n : TokenSet} {t : Token} (h : isSubset m n = true)
    (has : has m t = true) : n.has t = true := by
  rw [← Nat.eq_of_beq_eq_true h] at has
  exact (has_and.mp has).2

end TokenSet

/-! ### How goals begin -/

end SusSyntax.Grammar

namespace SusSyntax.Rule

/-- The tokens that an operand can begin with, behind its signs. -/
def atomStarts : List Token :=
  [.identifier, .colonColon, .number, .lparen]

/-- The tokens that a type can begin with. -/
def typeStarts : List Token :=
  [.identifier, .colonColon]

/-- The tokens that an expression can begin with. -/
def expressionStarts : List Token :=
  Grammar.Tier.signs ++ atomStarts

/-- The modifiers of a declaration. -/
def modifiers : List Token :=
  [.inputKw, .outputKw, .stateKw, .genKw]

/-- The tokens that a rule can begin with. -/
def starts : Rule → List Token
  | .sourceFile => .newline :: [.builtinKw, .externKw, .moduleKw, .structKw, .constKw]
  | .globalObject => [.builtinKw, .externKw, .moduleKw, .structKw, .constKw]
  | .constAndType => [.constKw]
  | .templateDeclarationArguments | .templateArgs => [.hashParen]
  | .templateDeclarationType | .namespaceList | .templateArg => [.identifier]
  | .block => [.lbrace]
  | .declAssignStatement | .assignLeftSide | .assignTo =>
    [.regKw, .initialKw] ++ modifiers ++ expressionStarts
  | .writeModifiers => [.regKw, .initialKw]
  | .ifStatement => [.whenKw, .ifKw]
  | .forStatement => [.forKw]
  | .domainStatement => [.domainKw]
  | .interfaceStatement => [.interfaceKw]
  | .interfacePorts => [.colon]
  | .interfacePortsOutput => [.arrow]
  | .declarationList | .declaration => modifiers ++ typeStarts
  | .latencySpecifier => [.quote]
  | .type | .arrayType | .templateGlobal => typeStarts
  | .expression | .unaryOp | .binaryOp | .arrayOp | .funcCall | .fieldAccess => expressionStarts
  | .parenthesisExpressionList | .parenthesisExpression => [.lparen]
  | .arrayBracketExpression => [.lbracket]
  | .linebreak | .sourceFileItems | .blockItems => [.newline]
  | .writeModifiersItems => [.regKw]
  | .namespaceListItems => [.colonColon]
  | .commaBreak | .templateDeclarationItems | .assignLeftSideItems | .declarationListItems
  | .parenthesisExpressionItems | .templateArgsItems => [.comma]

/-- Whether a rule is a repetition. -/
def isRepetition (r : Rule) : Bool :=
  match r.body with
  | .many _ => true
  | _ => false

end SusSyntax.Rule

namespace SusSyntax.Grammar

namespace Goal

/-- The tokens that a goal can begin with. -/
def starts : Goal → TokenSet
  | .token t => .ofTokens [t]
  | .operand .atom => .ofTokens Rule.atomStarts
  | .operand _ => .ofTokens Rule.expressionStarts
  | .type => .ofTokens Rule.typeStarts
  | .rule r | .many r | .piece r => .ofTokens r.starts

/-- Every goal. -/
def all : List Goal :=
  Token.all.map .token ++ Rule.all.flatMap (fun r => [.rule r, .many r, .piece r]) ++
    Tier.all.map .operand ++ [.type]

theorem mem_all (g : Goal) : g ∈ all := by
  cases g with
  | token t => simp [all, Token.mem_all]
  | rule r => simp [all, Rule.mem_all]
  | operand tier => cases tier <;> decide
  | type => simp [all]
  | many r => simp [all, Rule.mem_all]
  | piece r => simp [all, Rule.mem_all]

/-- Whether what can stand at the beginning of a goal begins as the goal does; only the start symbol
may be empty, and it stands in no other goal. -/
def isProper (g : Goal) : Bool :=
  (g.units.all fun u => u != .rule .sourceFile && u.starts.isSubset g.starts) &&
    g.ways.all fun x => !x.2.contains (.rule .sourceFile) && match x.2 with
      | [] => g == .rule .sourceFile
      | h :: _ => h.starts.isSubset g.starts

theorem isProper_all (g : Goal) : g.isProper = true := by
  have checked : all.all isProper = true := by decide
  exact List.all_eq_true.mp checked g (mem_all g)

variable {g : Goal} {gs : List Goal} {r : Rule} {w : List Token}

theorem ne_sourceFile_of_mem_ways (mem : (r, gs) ∈ g.ways) : .rule .sourceFile ∉ gs := by
  have proper := g.isProper_all
  simp only [isProper, Bool.and_eq_true, List.all_eq_true] at proper
  have apart := (proper.2 _ mem).1
  simpa using apart

mutual

/-- What is read as a goal is not empty, and begins as the goal does. -/
theorem Reads.starts : ∀ {g : Goal} {w : List Token}, Reads g w → g ≠ .rule .sourceFile →
    ∃ t v, w = t :: v ∧ g.starts.has t = true
  | _, _, .token, _ => ⟨_, _, rfl, TokenSet.has_ofTokens.mpr List.mem_cons_self⟩
  | g, _, .unit mem h, _ => by
    have proper := g.isProper_all
    simp only [isProper, Bool.and_eq_true, List.all_eq_true, bne_iff_ne] at proper
    obtain ⟨ne, subset⟩ := proper.1 _ mem
    obtain ⟨t, v, rfl, known⟩ := Reads.starts h ne
    exact ⟨t, v, rfl, TokenSet.has_of_isSubset subset known⟩
  | g, _, .way mem h, ne => by
    have proper := g.isProper_all
    simp only [isProper, Bool.and_eq_true, List.all_eq_true] at proper
    have begins := (proper.2 _ mem).2
    have start := ReadsAll.starts h (ne_sourceFile_of_mem_ways mem)
    split at begins
    · exact absurd (eq_of_beq begins) ne
    · rename_i first gs same
      obtain ⟨t, v, rfl, known⟩ := start first gs same
      exact ⟨t, v, rfl, TokenSet.has_of_isSubset begins known⟩

theorem ReadsAll.starts : ∀ {gs : List Goal} {w : List Token}, ReadsAll gs w →
    .rule .sourceFile ∉ gs → ∀ g rest, gs = g :: rest →
      ∃ t v, w = t :: v ∧ g.starts.has t = true
  | _, _, .nil, _ => fun _ _ never => nomatch never
  | _, _, .cons h _, apart => by
    intro g rest same
    obtain ⟨rfl, rfl⟩ := List.cons.inj same
    obtain ⟨t, v, rfl, known⟩ := Reads.starts h fun same => apart (same ▸ List.mem_cons_self)
    exact ⟨t, _, rfl, known⟩

end

end Goal

/-! ### Looking rows up -/

/-- The rows of the states, halved again and again, so that a row is found in a few steps. -/
inductive RowTree where
  | leaf (r : Row)
  | fork (bound : Nat) (below above : RowTree)

namespace RowTree

/-- Halves rows whose states begin with `first`. -/
def build : Nat → Nat → List Row → RowTree
  | 0, _, rs => .leaf (rs.headD ⟨.anything, [], []⟩)
  | depth + 1, first, rs =>
    .fork (first + 2 ^ depth) (build depth first (rs.take (2 ^ depth)))
      (build depth (first + 2 ^ depth) (rs.drop (2 ^ depth)))

/-- The row of a state. -/
def find (s : Nat) : RowTree → Row
  | leaf r => r
  | fork bound below above => bif Nat.ble bound s then above.find s else below.find s

theorem find_build {depth first s : Nat} {rs : List Row} (le : first ≤ s) :
    (build depth first rs).find s =
      (rs[min (s - first) (2 ^ depth - 1)]?).getD ⟨.anything, [], []⟩ := by
  induction depth generalizing first rs with
  | zero => cases rs <;> simp [build, find]
  | succ depth ih =>
    have pos : 0 < 2 ^ depth := Nat.two_pow_pos depth
    rw [build, find]
    cases above : Nat.ble (first + 2 ^ depth) s with
    | true =>
      have le' : first + 2 ^ depth ≤ s := Nat.le_of_ble_eq_true above
      have index : first + 2 ^ depth + min (s - (first + 2 ^ depth)) (2 ^ depth - 1) =
          first + min (s - first) (2 ^ (depth + 1) - 1) := by
        rw [Nat.pow_succ]
        generalize 2 ^ depth = c at *
        omega
      rw [cond_true, ih le', List.getElem?_drop]
      congr 2
      omega
    | false =>
      have lt : s < first + 2 ^ depth := by
        rw [← Nat.not_le, ← Nat.ble_eq, above]
        exact Bool.false_ne_true
      have index : min (s - first) (2 ^ depth - 1) = min (s - first) (2 ^ (depth + 1) - 1) := by
        rw [Nat.pow_succ]
        generalize 2 ^ depth = c at *
        omega
      have inside : min (s - first) (2 ^ depth - 1) < 2 ^ depth := by
        generalize 2 ^ depth = c at *
        omega
      rw [cond_false, ih le, List.getElem?_take_of_lt inside, index]

end RowTree

/-- All rows, halved. -/
def rowTree : RowTree :=
  .build 8 0 rows

/-- Applies a function to a number that is worked out first. -/
def workOut {α : Type} (n : Nat) (f : Nat → α) : α :=
  match n with
  | 0 => f 0
  | n + 1 => f (n + 1)

@[simp] theorem workOut_eq {α : Type} (n : Nat) (f : Nat → α) : workOut n f = f n := by
  cases n <;> rfl

namespace State

theorem find_rowTree (s : Nat) : rowTree.find s = row s := by
  have length : rows.length = 230 := by decide +kernel
  rw [rowTree, RowTree.find_build (Nat.zero_le s), row, table, List.getElem?_toArray, Nat.sub_zero]
  rcases Nat.lt_or_ge s 256 with small | large
  · have index : min s (2 ^ 8 - 1) = s := by omega
    rw [index]
  · have outside : rows.length ≤ min s (2 ^ 8 - 1) := by omega
    have outside' : rows.length ≤ s := by omega
    rw [List.getElem?_eq_none outside, List.getElem?_eq_none outside']

/-! ### Shifts and reductions -/

/-- The state that a token is shifted to. -/
def shift? (s : State) (t : Token) : Option State :=
  match (rowTree.find s).entries.find? fun e => (TokenSet.ofTokens e.2).has t with
  | some e =>
    match e.1.actions.getLast? with
    | some (.shift n) => some n
    | _ => none
  | none => none

theorem mem_of_shift? {s n : State} {t : Token} (h : s.shift? t = some n) :
    .shift n ∈ (s.row.entry t).actions := by
  have same : ∀ e : Entry × List Token, (TokenSet.ofTokens e.2).has t = e.2.contains t := by
    intro e
    rw [Bool.eq_iff_iff, TokenSet.has_ofTokens, List.contains_iff_mem]
  simp only [shift?, find_rowTree, same] at h
  rw [Row.entry]
  split at h
  · rename_i e found
    rw [found]
    split at h
    · rename_i m last
      obtain rfl := Option.some.inj h
      exact List.mem_of_getLast? last
    · cases h
  · cases h

/-- Whether there is a reduction by a rule with `size` children among some actions. -/
def isReducing (r : Rule) (size : Nat) (actions : List Action) : Bool :=
  actions.any fun
    | .reduce rule n _ => rule == r && Nat.beq n size
    | _ => false

/-- The tokens before which entries reduce by a rule with `size` children; the first entry of a token
counts. -/
def reducingIn (r : Rule) (size : Nat) : List (Entry × List Token) → TokenSet
  | [] => 0
  | e :: rest =>
    let here := TokenSet.ofTokens e.2
    let all := here ||| reducingIn r size rest
    if isReducing r size e.1.actions then all else all ^^^ here

/-- The tokens before which a state reduces by a rule with `size` children. -/
def reducing (s : State) (r : Rule) (size : Nat) : TokenSet :=
  reducingIn r size (rowTree.find s).entries

theorem exists_of_has_reducing {s : State} {r : Rule} {size : Nat} {t : Token}
    (h : (s.reducing r size).has t = true) :
    ∃ layout, .reduce r size layout ∈ (s.row.entry t).actions := by
  rw [reducing, find_rowTree] at h
  rw [Row.entry]
  generalize s.row.entries = entries at h
  induction entries with
  | nil => simp [reducingIn, TokenSet.has] at h
  | cons e rest ih =>
    rw [List.find?_cons]
    cases here : e.2.contains t with
    | true =>
      have bit : (TokenSet.ofTokens e.2).testBit t.id = true :=
        TokenSet.has_ofTokens.mpr (List.contains_iff_mem.mp here)
      rw [reducingIn] at h
      split at h
      · rename_i reduces
        obtain ⟨a, mem, same⟩ := List.any_eq_true.mp reduces
        split at same
        · rename_i rule n layout
          obtain ⟨rule, size⟩ := Bool.and_eq_true_iff.mp same
          obtain rfl := eq_of_beq rule
          obtain rfl := Nat.eq_of_beq_eq_true size
          exact ⟨layout, mem⟩
        · cases same
      · change (((TokenSet.ofTokens e.2 ||| reducingIn r size rest) ^^^
          TokenSet.ofTokens e.2).testBit t.id) = true at h
        rw [Nat.testBit_xor, Nat.testBit_or, bit] at h
        cases h
    | false =>
      have bit : (TokenSet.ofTokens e.2).testBit t.id = false := by
        rw [← Bool.not_eq_true]
        intro known
        rw [List.contains_iff_mem.mpr (TokenSet.has_ofTokens.mp known)] at here
        cases here
      refine ih ?_
      rw [reducingIn] at h
      split at h
      · change ((TokenSet.ofTokens e.2 ||| reducingIn r size rest).testBit t.id) = true at h
        rwa [Nat.testBit_or, bit, Bool.false_or] at h
      · change (((TokenSet.ofTokens e.2 ||| reducingIn r size rest) ^^^
          TokenSet.ofTokens e.2).testBit t.id) = true at h
        rwa [Nat.testBit_xor, Nat.testBit_or, bit, Bool.false_or, Bool.xor_false] at h

end State

/-! ### Places for goals -/

namespace Goal

/-- The hidden rule that stands over what is read as a goal. -/
def group? : Goal → Option Rule
  | .operand _ => some .expression
  | .type => some .type
  | _ => none

/-- How deep the goals are nested that a goal may be read as. -/
def depth : Goal → Nat
  | .operand tier => 9 - tier.ctorIdx
  | .type => 2
  | .rule .templateGlobal | .rule .declarationList | .many _ => 1
  | .rule .writeModifiers | .rule .sourceFile => 2
  | .rule .assignTo => 10
  | .rule .assignLeftSide => 11
  | _ => 0

end Goal

namespace State

/-- The state behind a goal. -/
def after (s : State) : Goal → State
  | .token t => (s.shift? t).getD errorState
  | .rule r | .many r | .piece r => ((rowTree.find s).goto? r).getD errorState
  | .operand _ =>
    ((rowTree.find s).goto? .expression).getD (((rowTree.find s).goto? .binaryOp).getD errorState)
  | .type => ((rowTree.find s).goto? .type).getD (((rowTree.find s).goto? .arrayType).getD errorState)

/-- Whether a state goes on with a repetition that has been reduced already. -/
def repeats (s : State) : Bool :=
  (rowTree.find s).entries.any fun e => e.1.actions.any fun
    | .shiftRepeat _ => true
    | _ => false

/-- Whether a state has a place for a goal. For an operand of a tier it has to go on with all the
operators of the tier, and a repetition has to go on with further pieces. -/
def expects (s : State) (g : Goal) : Bool :=
  !s.repeats && match g with
  | .token t => (s.shift? t).isSome
  | .rule r => r.goal == .rule r && ((rowTree.find s).goto? r).isSome
  | .operand tier =>
    match (rowTree.find s).goto? .binaryOp with
    | some n => tier.operators.all fun t => (shift? n t).isSome
    | none => false
  | .type => ((rowTree.find s).goto? .arrayType).isSome
  | .many r =>
    r.isRepetition && match (rowTree.find s).goto? r with
    | some n => !repeats n
    | none => false
  | .piece r => r.isRepetition && ((rowTree.find s).goto? r).isSome

/-- The tokens before which the state `n`, which was entered from `s`, gives way to the one behind the
goal. -/
def landing (s : State) (g : Goal) (n : State) : TokenSet :=
  if Nat.beq n (s.after g) then .ofTokens Token.all
  else
    match g.group? with
    | none => 0
    | some r =>
      match (rowTree.find s).goto? r with
      | none => 0
      | some m => if Nat.beq m (s.after g) then reducing n r 1 else 0

/-- What is found behind several goals. -/
def behind {α : Type} (s : State) (gs : List Goal) (found : State → α) : α :=
  match gs with
  | [] => found s
  | g :: gs => workOut (s.after g) fun n => behind n gs found

/-- The tokens before which goals, read in turn, are reduced to the goal `g`. -/
def arrival (s : State) (g : Goal) (r : Rule) (gs : List Goal) : TokenSet :=
  s.behind gs fun n =>
    if Nat.beq gs.length 1 && Nat.beq n (s.after g) then .ofTokens Token.all
    else
      match (rowTree.find s).goto? r with
      | none => 0
      | some m => reducing n r gs.length &&& s.landing g m

/-- The tokens that may follow a goal in a state, where goals are looked into down to a depth. -/
def allowedTo : Nat → State → Goal → TokenSet
  | 0, s, g => .meet (
      g.units.map (fun u => workOut (s.after u) fun n => s.landing g n) ++
      g.ways.map fun x => s.arrival g x.1 x.2)
  | depth + 1, s, g => .meet (
      g.units.map (fun u => (workOut (s.after u) fun n => s.landing g n) &&& allowedTo depth s u) ++
      g.ways.map fun x => s.arrival g x.1 x.2 &&& match x.2 with
        | [u] => allowedTo depth s u
        | _ => .ofTokens Token.all)

/-- The tokens that may follow a goal in a state. -/
def allowed (s : State) (g : Goal) : TokenSet :=
  allowedTo g.depth s g

/-- The tokens that goals may begin with, or that may follow if there are none. -/
def beginning (gs : List Goal) (following : TokenSet) : TokenSet :=
  match gs with
  | [] => following
  | g :: _ => g.starts

/-- Whether goals can be read in turn before the tokens `following`. -/
def canRead (s : State) (gs : List Goal) (following : TokenSet) : Bool :=
  match gs with
  | [] => true
  | g :: gs => s.expects g && (beginning gs following).isSubset (s.allowed g) &&
      workOut (s.after g) fun n => canRead n gs following

/-- Whether a goal can be read in all its ways. -/
def isReady (s : State) (g : Goal) : Bool :=
  workOut (s.allowed g) fun following =>
    (g.units.all fun u => s.expects u && TokenSet.isSubset following (s.allowed u)) &&
      g.ways.all fun x => s.canRead x.2 following

/-- The goals that a rule behind a state stands for. -/
def goalsFor (r : Rule) : List Goal :=
  match r with
  | .binaryOp => Tier.all.map .operand
  | .arrayType => [.type]
  | r => if r.isRepetition then [.many r, .piece r] else [.rule r]

theorem ready_all :
    (rows.zipIdx.all fun x => workOut x.2 fun s => x.1.gotos.all fun y =>
      (goalsFor y.1).all fun g => !expects s g || isReady s g) = true := by
  decide +kernel

end State

end SusSyntax.Grammar
