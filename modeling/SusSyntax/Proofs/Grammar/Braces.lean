import SusSyntax.Proofs.Grammar.Spans

/-!
Braces in what the grammar derives.

Every rule opens as many braces as it closes, and closes none that it has not opened (`Nested`), by
induction on the derivation. The last token of a source that is no line break is a closing brace
(`Closed`). And an object is a head without braces with a block behind it: so where a source is cut
inside an object, a brace is left open, or the last tokens are those of a head (`cut_of_derives`).
-/

namespace SusSyntax.Grammar

open Phrase

/-! ### Opening and closing -/

/-- The tokens lead from `a` open braces to `b` open ones, and never close more than are open. -/
structure Nested (a b : Nat) (w : List Token) : Prop where
  keeps : ∀ v rest, w = v ++ rest → v.count .rbrace ≤ v.count .lbrace + a
  ends : w.count .lbrace + a = w.count .rbrace + b

namespace Nested

variable {a b c : Nat} {t : Token} {v w : List Token}

theorem nil (a : Nat) : Nested a a [] := by
  refine ⟨fun v rest split => ?_, rfl⟩
  rw [(List.append_eq_nil_iff.mp split.symm).1]
  exact Nat.zero_le _

theorem singleton (h : [t].count .lbrace + a = [t].count .rbrace + b) : Nested a b [t] := by
  refine ⟨fun v rest split => ?_, h⟩
  cases v with
  | nil => exact Nat.zero_le _
  | cons u v =>
    obtain ⟨rfl, none⟩ := List.cons.inj split
    rw [(List.append_eq_nil_iff.mp none.symm).1]
    omega

theorem append (h : Nested a b v) (h' : Nested b c w) : Nested a c (v ++ w) := by
  have ends := h.ends
  have ends' := h'.ends
  refine ⟨fun u rest split => ?_, ?_⟩
  · rcases List.append_eq_append_iff.mp split with ⟨mid, rfl, rfl⟩ | ⟨mid, rfl, rfl⟩
    · have := h'.keeps mid rest rfl
      rw [List.count_append, List.count_append]
      omega
    · exact h.keeps u mid rfl
  · rw [List.count_append, List.count_append]
    omega

theorem lift (h : Nested 0 0 w) (a : Nat) : Nested a a w := by
  have ends := h.ends
  refine ⟨fun v rest split => ?_, by omega⟩
  have := h.keeps v rest split
  omega

end Nested

/-- Whether a phrase leads from `a` open braces to `b` open ones, if rules lead to as many as there
were. -/
def Phrase.leads : Phrase → Nat → Nat → Bool
  | .nothing, a, b => a == b
  | .token t, a, b => [t].count .lbrace + a == [t].count .rbrace + b
  | .rule _, a, b => a == b
  | .field _ p, a, b => p.leads a b
  | .seq p q, a, b => [0, 1].any fun c => p.leads a c && q.leads c b
  | .either p q, a, b => p.leads a b && q.leads a b
  | .many p, a, b => a == b && p.leads a b

theorem leads_body (r : Rule) : r.body.leads 0 0 = true := by
  cases r <;> decide

theorem nested_of_leads {p : Phrase} {w : List Token} (h : p.Derives w) {a b : Nat}
    (leads : p.leads a b = true) : Nested a b w := by
  induction h generalizing a b with
  | nothing =>
    obtain rfl := eq_of_beq leads
    exact .nil a
  | token => exact .singleton (eq_of_beq leads)
  | @rule r w _ ih =>
    obtain rfl := eq_of_beq leads
    exact (ih (leads_body r)).lift a
  | field _ ih => exact ih leads
  | seq _ _ ihp ihq =>
    obtain ⟨c, -, both⟩ := List.any_eq_true.mp leads
    obtain ⟨first, second⟩ := Bool.and_eq_true_iff.mp both
    exact (ihp first).append (ihq second)
  | left _ ih => exact ih (Bool.and_eq_true_iff.mp leads).1
  | right _ ih => exact ih (Bool.and_eq_true_iff.mp leads).2
  | once _ ih => exact ih (Bool.and_eq_true_iff.mp leads).2
  | more _ _ ihp ihq =>
    obtain ⟨same, once⟩ := Bool.and_eq_true_iff.mp leads
    obtain rfl := eq_of_beq same
    exact (ihp once).append (ihq leads)

/-- A rule opens as many braces as it closes. -/
theorem nested_of_derives {r : Rule} {w : List Token} (h : (Phrase.rule r).Derives w) :
    Nested 0 0 w :=
  nested_of_leads h rfl

/-! ### Heads and blocks -/

namespace Rule

/-- A rule that stands in no block and holds none. -/
def isFlat (r : Rule) : Bool :=
  !([.sourceFile, .sourceFileItems, .globalObject, .block, .blockItems, .ifStatement,
    .forStatement].contains r)

end Rule

/-- Whether there are neither braces nor blocks in a phrase. -/
def Phrase.isFlat : Phrase → Bool
  | .nothing => true
  | .token t => t != .lbrace && t != .rbrace
  | .rule r => Rule.isFlat r
  | .field _ p => p.isFlat
  | .seq p q => p.isFlat && q.isFlat
  | .either p q => p.isFlat && q.isFlat
  | .many p => p.isFlat

theorem isFlat_body {r : Rule} (h : Rule.isFlat r = true) : r.body.isFlat = true := by
  revert h
  cases r <;> decide

theorem not_mem_of_isFlat {p : Phrase} {w : List Token} (h : p.Derives w) (flat : p.isFlat = true) :
    .lbrace ∉ w ∧ .rbrace ∉ w := by
  induction h with
  | nothing => simp
  | token =>
    simp only [isFlat, Bool.and_eq_true, bne_iff_ne] at flat
    simp [flat.1.symm, flat.2.symm]
  | rule _ ih => exact ih (isFlat_body flat)
  | field _ ih => exact ih flat
  | seq _ _ ihp ihq =>
    obtain ⟨first, second⟩ := Bool.and_eq_true_iff.mp flat
    simp [ihp first, ihq second]
  | left _ ih => exact ih (Bool.and_eq_true_iff.mp flat).1
  | right _ ih => exact ih (Bool.and_eq_true_iff.mp flat).2
  | once _ ih => exact ih flat
  | more _ _ ihp ihq => simp [ihp flat, ihq flat]

/-- A block is what stands between its braces. -/
theorem exists_of_block {w : List Token} (h : (Phrase.rule .block).Derives w) :
    ∃ inner, w = .lbrace :: (inner ++ [.rbrace]) ∧ Nested 0 0 inner := by
  cases h with
  | rule h =>
    cases h with
    | seq opening rest =>
      cases opening
      cases rest with
      | seq inner closing =>
        cases closing
        exact ⟨_, rfl, nested_of_leads inner rfl⟩

/-- What an object is begins with a keyword. -/
theorem head?_of_objectType {w : List Token}
    (h : (oneOf [.token .moduleKw, .token .structKw, .rule .constAndType]).Derives w) :
    ∃ t rest, w = t :: rest ∧ t ≠ .newline := by
  cases h with
  | left h =>
    cases h
    exact ⟨_, [], rfl, nofun⟩
  | right h =>
    cases h with
    | left h =>
      cases h
      exact ⟨_, [], rfl, nofun⟩
    | right h =>
      cases h with
      | rule h =>
        cases h with
        | seq first _ =>
          cases first
          exact ⟨_, _, rfl, nofun⟩

/-- An object is a head without braces, which does not begin with a line break, and a block. -/
theorem exists_of_globalObject {w : List Token} (h : (Phrase.rule .globalObject).Derives w) :
    ∃ t head inner, w = t :: head ++ .lbrace :: (inner ++ [.rbrace]) ∧ t ≠ .newline ∧
      .lbrace ∉ t :: head ∧ .rbrace ∉ t :: head ∧ Nested 0 0 inner := by
  cases h with
  | rule h =>
  cases h with
  | @seq _ _ marker _ markers rest =>
  cases rest with
  | @seq _ _ kind _ kinds rest =>
  cases rest with
  | @seq _ _ name _ names rest =>
  cases rest with
  | @seq _ _ args _ arguments block =>
  cases block with
  | field block =>
  obtain ⟨inner, rfl, nested⟩ := exists_of_block block
  have flat : (.lbrace : Token) ∉ marker ++ (kind ++ (name ++ args)) ∧
      (.rbrace : Token) ∉ marker ++ (kind ++ (name ++ args)) := by
    simp [not_mem_of_isFlat markers (by decide), not_mem_of_isFlat kinds (by decide),
      not_mem_of_isFlat names (by decide), not_mem_of_isFlat arguments (by decide)]
  obtain ⟨t, head, same, first⟩ : ∃ t head, marker ++ (kind ++ (name ++ args)) = t :: head ∧
      t ≠ .newline := by
    rcases derives_optional_iff.mp markers with marked | rfl
    · cases marked with
      | field marked =>
        cases marked with
        | left marked | right marked =>
          cases marked
          exact ⟨_, _, rfl, nofun⟩
    · cases kinds with
      | field kinds =>
        obtain ⟨t, rest, rfl, first⟩ := head?_of_objectType kinds
        exact ⟨t, _, rfl, first⟩
  rw [same] at flat
  refine ⟨t, head, inner, ?_, first, flat.1, flat.2, nested⟩
  rw [← same]
  simp

/-! ### The ends of sources -/

/-- The last token that is no line break is a closing brace, if there is one. -/
def Closed (w : List Token) : Prop :=
  ∀ front t back, w = front ++ t :: back → t ≠ .newline → (∀ u ∈ back, u = .newline) → t = .rbrace

theorem Closed.append {v w : List Token} (h : Closed v) (h' : Closed w) : Closed (v ++ w) := by
  intro front t back split ne breaks
  rcases List.append_eq_append_iff.mp split with ⟨mid, rfl, later⟩ | ⟨mid, rfl, later⟩
  · exact h' mid t back later ne breaks
  · cases mid with
    | nil => exact h' [] t back later.symm ne breaks
    | cons u mid =>
      obtain ⟨rfl, rfl⟩ := List.cons.inj later
      exact h front t mid rfl ne fun u mem => breaks u (List.mem_append_left _ mem)

theorem closed_nil : Closed [] := by
  intro front t back split
  cases front <;> cases split

theorem closed_concat (w : List Token) : Closed (w ++ [.rbrace]) := by
  intro front t back split ne breaks
  rcases List.eq_nil_or_concat back with rfl | ⟨back, u, rfl⟩
  · obtain ⟨-, same⟩ := List.append_inj' split rfl
    exact (List.cons.inj same).1.symm
  · rw [List.concat_eq_append, ← List.cons_append, ← List.append_assoc] at split
    have last := breaks u (by simp)
    obtain ⟨-, same⟩ := List.append_inj' split rfl
    obtain rfl := (List.cons.inj same).1
    cases last

/-- Whether a phrase only holds line breaks and objects. -/
def Phrase.isTop : Phrase → Bool
  | .nothing => true
  | .token t => t == .newline
  | .rule r => [.globalObject, .sourceFileItems, .linebreak].contains r
  | .field _ p => p.isTop
  | .seq p q => p.isTop && q.isTop
  | .either p q => p.isTop && q.isTop
  | .many p => p.isTop

theorem closed_of_isTop {p : Phrase} {w : List Token} (h : p.Derives w) (top : p.isTop = true) :
    Closed w := by
  induction h with
  | nothing => exact closed_nil
  | token =>
    obtain rfl := eq_of_beq top
    intro front t back split ne
    cases front with
    | nil => exact absurd (List.cons.inj split).1.symm ne
    | cons _ front => cases front <;> cases split
  | @rule r w h ih =>
    simp only [isTop, List.contains_iff_mem, List.mem_cons, List.not_mem_nil, or_false] at top
    rcases top with rfl | rfl | rfl
    · obtain ⟨t, head, inner, rfl, -⟩ := exists_of_globalObject (.rule h)
      have regroup : t :: head ++ .lbrace :: (inner ++ [.rbrace]) =
          t :: head ++ .lbrace :: inner ++ [.rbrace] := by simp
      rw [regroup]
      exact closed_concat _
    · exact ih (by decide)
    · exact ih (by decide)
  | field _ ih => exact ih top
  | seq _ _ ihp ihq =>
    obtain ⟨first, second⟩ := Bool.and_eq_true_iff.mp top
    exact (ihp first).append (ihq second)
  | left _ ih => exact ih (Bool.and_eq_true_iff.mp top).1
  | right _ ih => exact ih (Bool.and_eq_true_iff.mp top).2
  | once _ ih => exact ih top
  | more _ _ ihp ihq => exact (ihp top).append (ihq top)

/-- A source ends with an object and line breaks. -/
theorem closed_of_derives {w : List Token} (h : (Phrase.rule .sourceFile).Derives w) : Closed w :=
  closed_of_isTop (derives_rule_iff.mp h) (by decide)

/-! ### Cuts -/

/-- Where a source is cut inside of an object, a brace is open, or what is left of the object has none
and does not begin with a line break. -/
theorem cut_of_derives {front u rest back : List Token}
    (source : (Phrase.rule .sourceFile).Derives (front ++ (u ++ rest ++ back)))
    (object : (Phrase.rule .globalObject).Derives (u ++ rest)) (some : u ≠ []) (more : rest ≠ []) :
    (front ++ u).count .rbrace < (front ++ u).count .lbrace ∨
      .rbrace ∉ u ∧ ∃ t ∈ u, t ≠ .newline := by
  have before := (nested_of_derives source).keeps front _ rfl
  obtain ⟨t, head, inner, split, first, noOpen, noClose, nested⟩ := exists_of_globalObject object
  rcases List.append_eq_append_iff.mp split with ⟨left, cut, -⟩ | ⟨mid, rfl, cut⟩
  · right
    cases u with
    | nil => exact absurd rfl some
    | cons v u =>
      rw [List.cons_append] at cut
      obtain ⟨rfl, rfl⟩ := List.cons.inj cut
      refine ⟨fun mem => noClose ?_, t, List.mem_cons_self, first⟩
      rw [← List.cons_append]
      exact List.mem_append_left _ mem
  · cases mid with
    | nil =>
      right
      rw [List.append_nil]
      exact ⟨noClose, t, by simp, first⟩
    | cons v mid =>
      left
      obtain ⟨rfl, later⟩ := List.cons.inj cut
      -- The last brace of the object is not in what is left, so what is left of the block is nested.
      obtain ⟨rest, rfl⟩ : ∃ left, inner = mid ++ left := by
        rcases List.append_eq_append_iff.mp later with ⟨left, rfl, last⟩ | ⟨left, rfl, -⟩
        · cases left with
          | nil => exact ⟨[], by simp⟩
          | cons _ left =>
            obtain ⟨-, none⟩ := List.cons.inj last
            exact absurd (List.append_eq_nil_iff.mp none.symm).2 more
        · exact ⟨left, rfl⟩
      have inside := nested.keeps mid _ rfl
      have noOpen : (t :: head).count .lbrace = 0 := List.count_eq_zero.mpr noOpen
      have noClose : (t :: head).count .rbrace = 0 := List.count_eq_zero.mpr noClose
      have opened : (.lbrace :: mid).count (.lbrace : Token) = mid.count .lbrace + 1 :=
        List.count_cons_self
      have kept : (.lbrace :: mid).count (.rbrace : Token) = mid.count .rbrace :=
        List.count_cons_of_ne (by decide)
      rw [List.count_append, List.count_append, List.count_append, List.count_append, noOpen, noClose,
        opened, kept]
      omega

end SusSyntax.Grammar
