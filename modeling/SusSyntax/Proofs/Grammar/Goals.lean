import SusSyntax.Grammar.Rules

/-!
Goals of a parse: what is to be read in a state.

The grammar leaves open how operations are grouped and how the pieces of a repetition are; the
automaton reads operands that bind tightly enough, and repetitions piece by piece. A goal is a token,
a rule, an operand of a tier, a type, or a repetition. It is read as one of its units, or in one of
its ways, which are then reduced to a rule. Whatever the grammar derives can be read as a goal
(`reads_of_derives`): a flat chain of operands and operators is read tier by tier.
-/

namespace SusSyntax.Grammar

/-- How tightly an operation binds: the binary ones, the loosest first, then the operations with a
sign before the operand, and the ones with something behind it. -/
inductive Tier where
  | comparison | exclusive | inclusive | conjunction | sum | product | sign | atom
deriving DecidableEq, Repr

namespace Tier

/-- Every tier, the loosest first. -/
def all : List Tier :=
  [.comparison, .exclusive, .inclusive, .conjunction, .sum, .product, .sign, .atom]

/-- The binary operators of a tier. -/
def operators : Tier → List Token
  | .comparison => [.eqEq, .bangEq, .lt, .le, .gt, .ge]
  | .exclusive => [.caret]
  | .inclusive => [.pipe]
  | .conjunction => [.amp]
  | .sum => [.plus, .minus]
  | .product => [.star, .slash, .percent]
  | .sign | .atom => []

/-- The signs before an operand. -/
def signs : List Token :=
  [.plus, .minus, .star, .bang, .pipe, .amp, .caret]

/-- The next tighter tier. -/
def tighter : Tier → Tier
  | .comparison => .exclusive
  | .exclusive => .inclusive
  | .inclusive => .conjunction
  | .conjunction => .sum
  | .sum => .product
  | .product => .sign
  | .sign | .atom => .atom

/-- The binary operators of a tier and of all tighter ones. -/
def operatorsFrom (tier : Tier) : List Token :=
  (all.drop tier.ctorIdx).flatMap operators

theorem mem_operatorsFrom {tier : Tier} {t : Token} (h : t ∈ tier.operatorsFrom) :
    t ∈ tier.operators ∨ t ∈ tier.tighter.operatorsFrom := by
  cases tier
  case sign | atom => cases h
  all_goals exact List.mem_append.mp h

end Tier

/-- What is to be read. A piece is one turn of a repetition. -/
inductive Goal where
  | token (t : Token)
  | rule (r : Rule)
  | operand (tier : Tier)
  | type
  | many (r : Rule)
  | piece (r : Rule)
deriving DecidableEq, Repr

end SusSyntax.Grammar

namespace SusSyntax.Rule

open Grammar

/-- The rules that make up expressions. -/
def operations : List Rule :=
  [.expression, .arrayOp, .unaryOp, .binaryOp, .funcCall, .fieldAccess]

/-- The rules that make up types. -/
def types : List Rule :=
  [.type, .arrayType]

/-- What is to be read where a rule stands. -/
def goal (r : Rule) : Goal :=
  if r ∈ operations then .operand .comparison
  else if r ∈ types then .type
  else match r.body with
    | .many _ => .many r
    | _ => .rule r

end SusSyntax.Rule

namespace SusSyntax.Grammar

/-- The sequences of goals that a phrase without repetitions stands for. -/
def Phrase.alternatives : Phrase → List (List Goal)
  | .nothing => [[]]
  | .token t => [[.token t]]
  | .rule r => [[r.goal]]
  | .field _ p => p.alternatives
  | .seq p q => p.alternatives.flatMap fun gs => q.alternatives.map (gs ++ ·)
  | .either p q => p.alternatives ++ q.alternatives
  | .many _ => []

namespace Goal

/-- The goals that a goal may be read as. -/
def units : Goal → List Goal
  | .operand .atom => [.rule .templateGlobal, .token .number, .rule .parenthesisExpression]
  | .operand tier => [.operand tier.tighter]
  | .type => [.rule .templateGlobal]
  | .many r => [.piece r]
  | _ => []

/-- The ways to read a goal: the goals in turn, and the rule that they are reduced to. -/
def ways : Goal → List (Rule × List Goal)
  | .operand .atom =>
    [(.arrayOp, [.operand .atom, .rule .arrayBracketExpression]),
     (.funcCall, [.operand .atom, .rule .parenthesisExpressionList]),
     (.fieldAccess, [.operand .atom, .token .dot, .token .identifier])]
  | .operand .sign => Tier.signs.map fun t => (.unaryOp, [.token t, .operand .sign])
  | .operand tier => tier.operators.map fun t =>
      (.binaryOp, [.operand tier, .token t, .operand tier.tighter])
  | .type => [(.arrayType, [.type, .rule .arrayBracketExpression])]
  | .many r => [(r, [.many r, .piece r])]
  | .piece r =>
    match r.body with
    | .many p => p.alternatives.map fun gs => (r, gs)
    | _ => []
  | .rule r => r.body.alternatives.map fun gs => (r, gs)
  | .token _ => []

mutual

/-- The token sequences that a goal can be read from. -/
inductive Reads : Goal → List Token → Prop where
  | token {t : Token} : Reads (.token t) [t]
  | unit {g u : Goal} {w : List Token} : u ∈ g.units → Reads u w → Reads g w
  | way {g : Goal} {r : Rule} {gs : List Goal} {w : List Token} :
      (r, gs) ∈ g.ways → ReadsAll gs w → Reads g w

/-- The token sequences that several goals can be read from in turn. -/
inductive ReadsAll : List Goal → List Token → Prop where
  | nil : ReadsAll [] []
  | cons {g : Goal} {gs : List Goal} {v w : List Token} :
      Reads g v → ReadsAll gs w → ReadsAll (g :: gs) (v ++ w)

end

variable {g : Goal} {gs hs : List Goal} {t : Token} {v w : List Token}

theorem reads_token_iff : Reads (.token t) w ↔ w = [t] := by
  constructor
  · intro h
    cases h with
    | token => rfl
    | unit mem => cases mem
    | way mem => cases mem
  · rintro rfl
    exact .token

theorem readsAll_nil_iff : ReadsAll [] w ↔ w = [] := by
  constructor
  · intro h
    cases h
    rfl
  · rintro rfl
    exact .nil

theorem readsAll_cons_iff :
    ReadsAll (g :: gs) w ↔ ∃ u v, w = u ++ v ∧ Reads g u ∧ ReadsAll gs v := by
  constructor
  · intro h
    cases h with
    | cons first rest => exact ⟨_, _, rfl, first, rest⟩
  · rintro ⟨u, v, rfl, first, rest⟩
    exact .cons first rest

theorem readsAll_singleton_iff : ReadsAll [g] w ↔ Reads g w := by
  constructor
  · intro h
    obtain ⟨u, v, rfl, first, rest⟩ := readsAll_cons_iff.mp h
    rw [readsAll_nil_iff.mp rest, List.append_nil]
    exact first
  · intro h
    rw [← List.append_nil w]
    exact .cons h .nil

theorem readsAll_pair_iff {h : Goal} :
    ReadsAll [g, h] w ↔ ∃ u v, w = u ++ v ∧ Reads g u ∧ Reads h v := by
  rw [readsAll_cons_iff]
  simp only [readsAll_singleton_iff]

theorem ReadsAll.append (h : ReadsAll gs v) (k : ReadsAll hs w) : ReadsAll (gs ++ hs) (v ++ w) := by
  induction gs generalizing v with
  | nil =>
    rw [readsAll_nil_iff.mp h]
    exact k
  | cons g gs ih =>
    obtain ⟨u, v, rfl, first, rest⟩ := readsAll_cons_iff.mp h
    rw [List.append_assoc]
    exact .cons first (ih rest)

/-! ### Operands -/

theorem Reads.atom_of_rule {r : Rule} (h : Reads (.rule r) w)
    (mem : .rule r ∈ (operand .atom).units) : Reads (.operand .atom) w :=
  .unit mem h

/-- A tighter operand is an operand. -/
theorem Reads.loosen {tier : Tier} (h : Reads (.operand tier.tighter) w) :
    Reads (.operand tier) w := by
  cases tier
  case atom => exact h
  all_goals exact .unit List.mem_cons_self h

theorem Reads.sign {t : Token} (known : t ∈ Tier.signs) (h : Reads (.operand .sign) w) :
    Reads (.operand .sign) (t :: w) := by
  refine .way (List.mem_map.mpr ⟨t, known, rfl⟩) ?_
  exact readsAll_pair_iff.mpr ⟨[t], w, rfl, .token, h⟩

theorem Reads.between {tier : Tier} {t : Token} (known : t ∈ tier.operators)
    (h : Reads (.operand tier) v) (k : Reads (.operand tier.tighter) w) :
    Reads (.operand tier) (v ++ t :: w) := by
  have all : ReadsAll [.operand tier, .token t, .operand tier.tighter] (v ++ t :: w) :=
    .cons h (.cons .token (readsAll_singleton_iff.mpr k))
  cases tier
  case sign | atom => cases known
  all_goals exact .way (List.mem_map.mpr ⟨t, known, rfl⟩) all

/-- What may stand behind an operand binds to the last of its atoms. -/
theorem Reads.behind {r : Rule} {gs : List Goal} (known : (r, .operand .atom :: gs) ∈ (operand .atom).ways)
    (k : ReadsAll gs w) : ∀ {v : List Token}, Reads (.operand .sign) v →
      Reads (.operand .sign) (v ++ w)
  | v, h => by
    cases h with
    | unit mem h =>
      obtain rfl := List.mem_singleton.mp mem
      exact .unit List.mem_cons_self (.way known (.cons h k))
    | way mem all =>
      obtain ⟨t, sign, same⟩ := List.mem_map.mp mem
      obtain ⟨_, rfl⟩ := Prod.mk.inj same
      obtain ⟨u, v', split, token, rest⟩ := readsAll_pair_iff.mp all
      obtain rfl := reads_token_iff.mp token
      have less : v'.length < v.length := by simp [split]
      rw [split]
      exact .sign sign (Reads.behind known k rest)
termination_by v => v.length

/-! ### Chains -/

/-- An operand, and further ones each behind an operator. -/
def chain (v : List Token) (rest : List (Token × List Token)) : List Token :=
  v ++ rest.flatMap fun x => x.1 :: x.2

/-- A binary operator of the tier or a tighter one, with an operand that binds more tightly than any
of them. -/
def IsLink (tier : Tier) (x : Token × List Token) : Prop :=
  x.1 ∈ tier.operatorsFrom ∧ Reads (.operand .sign) x.2

/-- Tokens that are a chain of operands. -/
def IsChain (w : List Token) : Prop :=
  ∃ v rest, w = chain v rest ∧ Reads (.operand .sign) v ∧ ∀ x ∈ rest, IsLink .comparison x

theorem chain_append (v : List Token) (rest more : List (Token × List Token)) :
    chain v (rest ++ more) = chain v rest ++ more.flatMap fun x => x.1 :: x.2 := by
  rw [chain, chain, List.flatMap_append, List.append_assoc]

theorem chain_concat (v u : List Token) (t : Token) (rest more : List (Token × List Token)) :
    chain v (rest ++ (t, u) :: more) = chain v rest ++ t :: chain u more := by
  rw [chain_append, List.flatMap_cons, List.cons_append]
  rfl

/-- Whether the chains with operators of the tier and tighter ones are operands of the tier. -/
def ReadsChains (tier : Tier) : Prop :=
  ∀ v rest, Reads (.operand .sign) v → (∀ x ∈ rest, IsLink tier x) →
    Reads (.operand tier) (chain v rest)

/-- The operators of the tier itself are taken from left to right: `lead` is what comes before the
first operand, and `segment` has only tighter operators. -/
theorem reads_chain_behind {tier : Tier} (tighter : ReadsChains tier.tighter)
    (later segment : List (Token × List Token)) (lead v : List Token)
    (leads : ∀ u, Reads (.operand tier.tighter) u → Reads (.operand tier) (lead ++ u))
    (first : Reads (.operand .sign) v) (close : ∀ x ∈ segment, IsLink tier.tighter x)
    (links : ∀ x ∈ later, IsLink tier x) :
    Reads (.operand tier) (lead ++ chain v (segment ++ later)) := by
  induction later generalizing segment lead v with
  | nil =>
    rw [List.append_nil]
    exact leads _ (tighter v segment first close)
  | cons x later ih =>
    obtain ⟨⟨operator, operand⟩, links⟩ := List.forall_mem_cons.mp links
    rcases Tier.mem_operatorsFrom operator with here | beyond
    · have left := leads _ (tighter v segment first close)
      have whole := ih [] (lead ++ chain v segment ++ [x.1]) x.2
        (fun u reads => by simpa using Reads.between here left reads) operand
        (fun _ mem => absurd mem List.not_mem_nil) links
      rw [chain_concat]
      simpa using whole
    · have whole := ih (segment ++ [x]) lead v leads first ?_ links
      · simpa using whole
      · rw [List.forall_mem_append]
        exact ⟨close, List.forall_mem_singleton.mpr ⟨beyond, operand⟩⟩

theorem readsChains_of_tighter {tier : Tier} (tighter : ReadsChains tier.tighter) :
    ReadsChains tier := fun v rest first links =>
  reads_chain_behind tighter rest [] [] v (fun _ => Reads.loosen) first
    (fun _ mem => absurd mem List.not_mem_nil) links

theorem readsChains_sign : ReadsChains .sign := by
  intro v rest first links
  cases rest with
  | nil => simpa [chain] using first
  | cons x rest => cases (links x List.mem_cons_self).1

theorem readsChains_comparison : ReadsChains .comparison := by
  have product : ReadsChains .product := readsChains_of_tighter readsChains_sign
  have sum : ReadsChains .sum := readsChains_of_tighter product
  have conjunction : ReadsChains .conjunction := readsChains_of_tighter sum
  have inclusive : ReadsChains .inclusive := readsChains_of_tighter conjunction
  have exclusive : ReadsChains .exclusive := readsChains_of_tighter inclusive
  exact readsChains_of_tighter exclusive

/-! ### Operations on chains -/

theorem isChain_of_sign (h : Reads (.operand .sign) w) : IsChain w :=
  ⟨w, [], by simp [chain], h, fun _ mem => absurd mem List.not_mem_nil⟩

theorem isChain_of_atom (h : Reads (.operand .atom) w) : IsChain w :=
  isChain_of_sign (.unit List.mem_cons_self h)

/-- Two chains with an operator between them are a chain. -/
theorem IsChain.between {op : Token} (h : IsChain v) (known : op ∈ Tier.comparison.operatorsFrom)
    (k : IsChain w) : IsChain (v ++ op :: w) := by
  obtain ⟨a, rest, rfl, first, links⟩ := h
  obtain ⟨b, more, rfl, second, links'⟩ := k
  refine ⟨a, rest ++ (op, b) :: more, (chain_concat ..).symm, first, ?_⟩
  rw [List.forall_mem_append, List.forall_mem_cons]
  exact ⟨links, ⟨known, second⟩, links'⟩

/-- A sign binds to the first operand. -/
theorem IsChain.signed {op : Token} (known : op ∈ Tier.signs) (h : IsChain w) :
    IsChain (op :: w) := by
  obtain ⟨v, rest, rfl, first, links⟩ := h
  exact ⟨op :: v, rest, rfl, .sign known first, links⟩

/-- What stands behind an operand binds to the last operand. -/
theorem IsChain.behind {r : Rule} {gs : List Goal}
    (known : (r, .operand .atom :: gs) ∈ (operand .atom).ways) (k : ReadsAll gs w)
    (h : IsChain v) : IsChain (v ++ w) := by
  obtain ⟨a, rest, rfl, first, links⟩ := h
  rcases List.eq_nil_or_concat rest with rfl | ⟨front, ⟨op, b⟩, rfl⟩
  · refine ⟨a ++ w, [], ?_, first.behind known k, links⟩
    simp [chain]
  · rw [List.concat_eq_append] at links ⊢
    rw [List.forall_mem_append, List.forall_mem_singleton] at links
    refine ⟨a, front ++ [(op, b ++ w)], ?_, first, ?_⟩
    · rw [chain_append, chain_append]
      simp
    · rw [List.forall_mem_append, List.forall_mem_singleton]
      exact ⟨links.1, links.2.1, links.2.2.behind known k⟩

theorem IsChain.reads (h : IsChain w) : Reads (.operand .comparison) w := by
  obtain ⟨v, rest, rfl, first, links⟩ := h
  exact readsChains_comparison v rest first links

theorem mem_operatorsFrom_comparison {tier : Tier} {t : Token} (h : t ∈ tier.operators) :
    t ∈ Tier.comparison.operatorsFrom := by
  refine List.mem_flatMap.mpr ⟨tier, ?_, h⟩
  cases tier <;> decide

/-- Every operand is a chain. -/
theorem Reads.isChain {tier : Tier} {w : List Token} (h : Reads (.operand tier) w) : IsChain w := by
  by_cases binary : tier = .sign ∨ tier = .atom
  · rcases binary with rfl | rfl
    · exact isChain_of_sign h
    · exact isChain_of_atom h
  · rw [not_or] at binary
    obtain ⟨notSign, notAtom⟩ := binary
    cases h with
    | unit mem h =>
      have same : (operand tier).units = [.operand tier.tighter] := by
        cases tier <;> first | rfl | exact absurd rfl notAtom
      rw [same] at mem
      obtain rfl := List.mem_singleton.mp mem
      have less : 8 - tier.tighter.ctorIdx < 8 - tier.ctorIdx := by
        cases tier <;> first | decide | exact absurd rfl notAtom
      exact Reads.isChain h
    | way mem all =>
      have same : (operand tier).ways = tier.operators.map fun t =>
          (.binaryOp, [.operand tier, .token t, .operand tier.tighter]) := by
        cases tier <;> first | rfl | exact absurd rfl notAtom | exact absurd rfl notSign
      rw [same] at mem
      obtain ⟨t, known, same⟩ := List.mem_map.mp mem
      obtain ⟨_, rfl⟩ := Prod.mk.inj same
      obtain ⟨left, rest, split, first, all⟩ := readsAll_cons_iff.mp all
      obtain ⟨token, right, rfl, middle, second⟩ := readsAll_pair_iff.mp all
      obtain rfl := reads_token_iff.mp middle
      have lessLeft : left.length < w.length := by simp [split]
      have lessRight : right.length < w.length := by
        simp only [split, List.length_append, List.length_singleton]
        omega
      rw [split]
      exact (Reads.isChain first).between (mem_operatorsFrom_comparison known) (Reads.isChain second)
termination_by (w.length, 8 - tier.ctorIdx)

end Goal

/-! ### Reading what is derived -/

open Goal

namespace Phrase

/-- A phrase without repetitions. -/
def isPlain : Phrase → Bool
  | .nothing | .token _ | .rule _ => true
  | .field _ p => p.isPlain
  | .seq p q | .either p q => p.isPlain && q.isPlain
  | .many _ => false

/-- A phrase without repetitions, or the repetition of one. -/
def isBody : Phrase → Bool
  | .many p => p.isPlain
  | p => p.isPlain

theorem isBody_of_isPlain {p : Phrase} (h : p.isPlain = true) : p.isBody = true := by
  cases p
  case many => cases h
  all_goals exact h

/-- Tokens that can be read as one of the alternatives of a phrase. -/
def ReadsSome (p : Phrase) (w : List Token) : Prop :=
  ∃ gs ∈ p.alternatives, ReadsAll gs w

/-- Tokens that can be read as a phrase, piece by piece if it is a repetition. -/
inductive ReadsAs : Phrase → List Token → Prop where
  | plain {p : Phrase} {w : List Token} : p.isPlain = true → p.ReadsSome w → ReadsAs p w
  | pieces {p : Phrase} {w : List Token} {ws : List (List Token)} :
      p.ReadsSome w → (∀ v ∈ ws, p.ReadsSome v) → ReadsAs (.many p) (w :: ws).flatten

theorem ReadsAs.some {p : Phrase} {w : List Token} (h : p.ReadsAs w) (plain : p.isPlain = true) :
    p.ReadsSome w := by
  cases h with
  | plain _ reads => exact reads
  | pieces => cases plain

end Phrase

end SusSyntax.Grammar

namespace SusSyntax.Rule

open Grammar Goal Phrase

theorem isBody_body (r : Rule) : r.body.isBody = true := by
  cases r <;> rfl

variable {r : Rule} {w : List Token}

/-! #### Repetitions -/

/-- Pieces behind a repetition are part of it. -/
theorem reads_many_append {v : List Token} {ws : List (List Token)} (h : Reads (.many r) v)
    (pieces : ∀ w ∈ ws, Reads (.piece r) w) : Reads (.many r) (v ++ ws.flatten) := by
  induction ws generalizing v with
  | nil => simpa using h
  | cons w ws ih =>
    obtain ⟨piece, pieces⟩ := List.forall_mem_cons.mp pieces
    have longer : Reads (.many r) (v ++ w) :=
      .way List.mem_cons_self (readsAll_pair_iff.mpr ⟨v, w, rfl, h, piece⟩)
    rw [List.flatten_cons, ← List.append_assoc]
    exact ih longer pieces

theorem reads_piece {p : Phrase} (body : r.body = .many p) (h : p.ReadsSome w) :
    Reads (.piece r) w := by
  obtain ⟨gs, mem, reads⟩ := h
  have way : (r, gs) ∈ (Goal.piece r).ways := by
    simp only [ways, body]
    exact List.mem_map.mpr ⟨gs, mem, rfl⟩
  exact .way way reads

/-! #### Expressions and types -/

/-- An operation behind an operand. -/
theorem isChain_of_behind (gs : List Goal)
    (alternatives : r.body.alternatives = [.operand .comparison :: gs])
    (known : (r, .operand .atom :: gs) ∈ (Goal.operand .atom).ways) (h : r.body.ReadsSome w) :
    IsChain w := by
  obtain ⟨hs, mem, reads⟩ := h
  rw [alternatives] at mem
  obtain rfl := List.mem_singleton.mp mem
  obtain ⟨u, v, rfl, first, rest⟩ := readsAll_cons_iff.mp reads
  exact first.isChain.behind known rest

theorem isChain_of_unaryOp (h : unaryOp.body.ReadsSome w) : IsChain w := by
  obtain ⟨gs, mem, reads⟩ := h
  have alternatives : unaryOp.body.alternatives =
      Tier.signs.map fun t => [.token t, .operand .comparison] := by decide
  rw [alternatives] at mem
  obtain ⟨t, sign, rfl⟩ := List.mem_map.mp mem
  obtain ⟨u, v, rfl, token, operand⟩ := readsAll_pair_iff.mp reads
  obtain rfl := reads_token_iff.mp token
  exact operand.isChain.signed sign

theorem isChain_of_binaryOp (h : binaryOp.body.ReadsSome w) : IsChain w := by
  obtain ⟨gs, mem, reads⟩ := h
  have alternatives : binaryOp.body.alternatives = Tier.comparison.operatorsFrom.map fun t =>
      [.operand .comparison, .token t, .operand .comparison] := by decide
  rw [alternatives] at mem
  obtain ⟨t, operator, rfl⟩ := List.mem_map.mp mem
  obtain ⟨u, v, rfl, left, reads⟩ := readsAll_cons_iff.mp reads
  obtain ⟨v, w, rfl, token, right⟩ := readsAll_pair_iff.mp reads
  obtain rfl := reads_token_iff.mp token
  exact left.isChain.between operator right.isChain

theorem isChain_of_expression (h : expression.body.ReadsSome w) : IsChain w := by
  obtain ⟨gs, mem, reads⟩ := h
  have alternatives : (expression.body.alternatives.all fun gs => gs == [.operand .comparison] ||
      (Goal.operand .atom).units.any fun u => gs == [u]) = true := by decide
  rcases Bool.or_eq_true_iff.mp (List.all_eq_true.mp alternatives gs mem) with whole | atom
  · obtain rfl := eq_of_beq whole
    exact (readsAll_singleton_iff.mp reads).isChain
  · obtain ⟨u, unit, same⟩ := List.any_eq_true.mp atom
    obtain rfl := eq_of_beq same
    exact isChain_of_atom (.unit unit (readsAll_singleton_iff.mp reads))

theorem isChain_of_operation (operation : r ∈ operations) (h : r.body.ReadsSome w) :
    IsChain w := by
  simp only [operations, List.mem_cons, List.not_mem_nil, or_false] at operation
  rcases operation with rfl | rfl | rfl | rfl | rfl | rfl
  · exact isChain_of_expression h
  · exact isChain_of_behind [.rule .arrayBracketExpression] (by decide) (by decide) h
  · exact isChain_of_unaryOp h
  · exact isChain_of_binaryOp h
  · exact isChain_of_behind [.rule .parenthesisExpressionList] (by decide) (by decide) h
  · exact isChain_of_behind [.token .dot, .token .identifier] (by decide) (by decide) h

theorem reads_type (isType : r ∈ types) (h : r.body.ReadsSome w) : Reads .type w := by
  obtain ⟨gs, mem, reads⟩ := h
  simp only [types, List.mem_cons, List.not_mem_nil, or_false] at isType
  rcases isType with rfl | rfl
  · have alternatives : type.body.alternatives = [[.rule .templateGlobal], [.type]] := by decide
    rw [alternatives] at mem
    simp only [List.mem_cons, List.not_mem_nil, or_false] at mem
    rcases mem with rfl | rfl
    · exact .unit List.mem_cons_self (readsAll_singleton_iff.mp reads)
    · exact readsAll_singleton_iff.mp reads
  · have alternatives : arrayType.body.alternatives =
        [[.type, .rule .arrayBracketExpression]] := by decide
    rw [alternatives, List.mem_singleton] at mem
    subst mem
    exact .way List.mem_cons_self reads

/-! #### All rules -/

/-- What can be read as the body of a rule can be read as its goal. -/
theorem reads_goal (h : r.body.ReadsAs w) : Reads r.goal w := by
  unfold goal
  split
  · rename_i operation
    have plain : r.body.isPlain = true := by
      simp only [operations, List.mem_cons, List.not_mem_nil, or_false] at operation
      rcases operation with rfl | rfl | rfl | rfl | rfl | rfl <;> rfl
    exact (isChain_of_operation operation (h.some plain)).reads
  · split
    · rename_i isType
      have plain : r.body.isPlain = true := by
        simp only [types, List.mem_cons, List.not_mem_nil, or_false] at isType
        rcases isType with rfl | rfl <;> rfl
      exact reads_type isType (h.some plain)
    · generalize same : r.body = body at h
      cases h with
      | plain plain reads =>
        obtain ⟨gs, mem, reads⟩ := reads
        split
        · cases plain
        · exact .way (List.mem_map.mpr ⟨gs, same ▸ mem, rfl⟩) reads
      | pieces first pieces =>
        have first := reads_piece same first
        exact reads_many_append (.unit List.mem_cons_self first) fun v mem =>
          reads_piece same (pieces v mem)

end SusSyntax.Rule

namespace SusSyntax.Grammar

open Goal

/-- What a phrase derives can be read as the phrase. -/
theorem Phrase.readsAs_of_derives {p : Phrase} {w : List Token} (h : p.Derives w)
    (body : p.isBody = true) : p.ReadsAs w := by
  induction h with
  | nothing => exact .plain rfl ⟨[], List.mem_cons_self, .nil⟩
  | token => exact .plain rfl ⟨_, List.mem_cons_self, readsAll_singleton_iff.mpr .token⟩
  | @rule r w _ ih =>
    have reads := Rule.reads_goal (ih r.isBody_body)
    exact .plain rfl ⟨_, List.mem_cons_self, readsAll_singleton_iff.mpr reads⟩
  | @field f p w _ ih =>
    have plain : p.isPlain = true := body
    obtain ⟨gs, mem, reads⟩ := (ih (isBody_of_isPlain plain)).some plain
    exact .plain plain ⟨gs, mem, reads⟩
  | @seq p q v w _ _ ihp ihq =>
    obtain ⟨plain, plain'⟩ := Bool.and_eq_true_iff.mp body
    obtain ⟨gs, mem, reads⟩ := (ihp (isBody_of_isPlain plain)).some plain
    obtain ⟨hs, mem', reads'⟩ := (ihq (isBody_of_isPlain plain')).some plain'
    refine .plain body ⟨gs ++ hs, ?_, reads.append reads'⟩
    exact List.mem_flatMap.mpr ⟨gs, mem, List.mem_map.mpr ⟨hs, mem', rfl⟩⟩
  | @left p q w _ ih =>
    obtain ⟨plain, _⟩ := Bool.and_eq_true_iff.mp body
    obtain ⟨gs, mem, reads⟩ := (ih (isBody_of_isPlain plain)).some plain
    exact .plain body ⟨gs, List.mem_append_left _ mem, reads⟩
  | @right p q w _ ih =>
    obtain ⟨_, plain⟩ := Bool.and_eq_true_iff.mp body
    obtain ⟨gs, mem, reads⟩ := (ih (isBody_of_isPlain plain)).some plain
    exact .plain body ⟨gs, List.mem_append_right _ mem, reads⟩
  | @once p w _ ih =>
    have plain : p.isPlain = true := body
    have piece := (ih (isBody_of_isPlain plain)).some plain
    have pieces := @ReadsAs.pieces p w [] piece fun _ mem => absurd mem List.not_mem_nil
    simpa using pieces
  | @more p v w _ _ ihp ihm =>
    have plain : p.isPlain = true := body
    have piece := (ihp (isBody_of_isPlain plain)).some plain
    have more := ihm body
    cases more with
    | plain never => cases never
    | @pieces _ u us first rest =>
      exact .pieces piece (List.forall_mem_cons.mpr ⟨first, rest⟩)

/-- What the start symbol derives can be read as it. -/
theorem reads_of_derives {w : List Token} (h : (Phrase.rule .sourceFile).Derives w) :
    Reads (.rule .sourceFile) w := by
  obtain ⟨gs, mem, reads⟩ := (Phrase.readsAs_of_derives h rfl).some rfl
  obtain rfl := List.mem_singleton.mp mem
  exact readsAll_singleton_iff.mp reads

end SusSyntax.Grammar
