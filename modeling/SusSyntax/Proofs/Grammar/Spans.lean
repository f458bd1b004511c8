import SusSyntax.Grammar.Rules

/-!
Phrases over the symbols of a parse.

A parse reduces symbols, some of which stand for whole phrases: a hidden rule may have given way to
the only symbol in it, and the rule of a repetition covers any number of its parts. `Spans` says
which symbols, each with its field, a phrase can be reduced from. What the symbols derive is then
derived by the phrase (`Spans.derives`), and what they show is shown by it (`Spans.shows`). Whether
symbols fit a rule is found by `Rule.fits`.
-/

namespace SusSyntax.Grammar

/-- A symbol in a node, with its field. -/
abbrev Part := Symbol × Option Field

namespace Phrase

/-- The symbols that a phrase with the field `f` can be reduced from. -/
inductive Spans : Option Field → Phrase → List Part → Prop where
  | nothing {f : Option Field} : Spans f .nothing []
  | token {f : Option Field} {t : Token} : Spans f (.token t) [(.token t, f)]
  | rule {f : Option Field} {r : Rule} : Spans f (.rule r) [(.rule r, f)]
  | hidden {f : Option Field} {r : Rule} {xs : List Part} :
      r.isHidden = true → Spans f r.body xs → Spans f (.rule r) xs
  | folded {f : Option Field} {r : Rule} {xs : List Part} :
      r.isHidden = true → Spans f (.rule r) xs → Spans f r.body xs
  | field {f : Option Field} {g : Field} {p : Phrase} {xs : List Part} :
      Spans (some g) p xs → Spans f (.field g p) xs
  | seq {f : Option Field} {p q : Phrase} {xs ys : List Part} :
      Spans f p xs → Spans f q ys → Spans f (.seq p q) (xs ++ ys)
  | left {f : Option Field} {p q : Phrase} {xs : List Part} :
      Spans f p xs → Spans f (.either p q) xs
  | right {f : Option Field} {p q : Phrase} {xs : List Part} :
      Spans f q xs → Spans f (.either p q) xs
  | once {f : Option Field} {p : Phrase} {xs : List Part} : Spans f p xs → Spans f (.many p) xs
  | join {f : Option Field} {p : Phrase} {xs ys : List Part} :
      Spans f (.many p) xs → Spans f (.many p) ys → Spans f (.many p) (xs ++ ys)

/-! ### What parts yield -/

/-- What several parts yield one after another, if `yield` says what each of them does. -/
inductive Yields {α : Type} (yield : Part → List α → Prop) : List Part → List α → Prop where
  | nil : Yields yield [] []
  | cons {x : Part} {xs : List Part} {v w : List α} :
      yield x v → Yields yield xs w → Yields yield (x :: xs) (v ++ w)

section Yields

variable {α : Type} {yield : Part → List α → Prop} {x : Part} {xs ys : List Part} {v w : List α}

theorem yields_nil_iff : Yields yield [] w ↔ w = [] := by
  constructor
  · intro h
    cases h
    rfl
  · rintro rfl
    exact .nil

theorem yields_singleton_iff : Yields yield [x] w ↔ yield x w := by
  constructor
  · intro h
    obtain _ | ⟨first, rest⟩ := h
    rw [yields_nil_iff.mp rest, List.append_nil]
    exact first
  · intro h
    rw [← List.append_nil w]
    exact .cons h .nil

theorem Yields.append (h : Yields yield xs v) (k : Yields yield ys w) :
    Yields yield (xs ++ ys) (v ++ w) := by
  induction h with
  | nil => exact k
  | cons first _ ih =>
    rw [List.cons_append, List.append_assoc]
    exact .cons first ih

theorem Yields.split (h : Yields yield (xs ++ ys) w) :
    ∃ u v, w = u ++ v ∧ Yields yield xs u ∧ Yields yield ys v := by
  induction xs generalizing w with
  | nil => exact ⟨[], w, rfl, .nil, h⟩
  | cons x xs ih =>
    cases h with
    | @cons _ _ first rest yields rests =>
      obtain ⟨u, v, rfl, front, back⟩ := ih rests
      exact ⟨first ++ u, v, (List.append_assoc ..).symm, .cons yields front, back⟩

end Yields

/-! ### Tokens -/

/-- What a symbol derives. -/
def derivesPart (x : Part) (w : List Token) : Prop :=
  match x.1 with
  | .token t => w = [t]
  | .rule r => (Phrase.rule r).Derives w
  | _ => False

theorem derives_rule_iff {r : Rule} {w : List Token} :
    (Phrase.rule r).Derives w ↔ r.body.Derives w := by
  constructor
  · intro h
    cases h
    assumption
  · exact .rule

theorem Derives.join {p : Phrase} {v w : List Token} (h : (many p).Derives v)
    (k : (many p).Derives w) : (many p).Derives (v ++ w) := by
  generalize same : many p = q at h
  induction h with
  | once first =>
    obtain rfl := Phrase.many.inj same
    exact .more first k
  | more first _ _ ih =>
    obtain rfl := Phrase.many.inj same
    rw [List.append_assoc]
    exact .more first (ih rfl)
  | _ => cases same

/-- A phrase derives what the symbols derive that it is reduced from. -/
theorem Spans.derives {f : Option Field} {p : Phrase} {xs : List Part} (h : Spans f p xs) :
    ∀ {w : List Token}, Yields derivesPart xs w → p.Derives w := by
  induction h with
  | nothing =>
    intro w yields
    rw [yields_nil_iff.mp yields]
    exact .nothing
  | token =>
    intro w yields
    obtain rfl := yields_singleton_iff.mp yields
    exact .token
  | rule =>
    intro w yields
    exact yields_singleton_iff.mp yields
  | hidden _ _ ih =>
    intro w yields
    exact .rule (ih yields)
  | folded _ _ ih =>
    intro w yields
    exact derives_rule_iff.mp (ih yields)
  | field _ ih =>
    intro w yields
    exact .field (ih yields)
  | seq _ _ ihp ihq =>
    intro w yields
    obtain ⟨u, v, rfl, front, back⟩ := yields.split
    exact .seq (ihp front) (ihq back)
  | left _ ih =>
    intro w yields
    exact .left (ih yields)
  | right _ ih =>
    intro w yields
    exact .right (ih yields)
  | once _ ih =>
    intro w yields
    exact .once (ih yields)
  | join _ _ ihp ihq =>
    intro w yields
    obtain ⟨u, v, rfl, front, back⟩ := yields.split
    exact (ihp front).join (ihq back)

/-! ### Visible children -/

/-- What a symbol shows: itself, or what stands in a hidden rule. -/
def showsPart (x : Part) (w : List Child) : Prop :=
  match x.1 with
  | .token t => w = [(.token t, x.2)]
  | .rule r => Shows x.2 (.rule r) w
  | _ => False

theorem Shows.join {f : Option Field} {p : Phrase} {v w : List Child} (h : Shows f (many p) v)
    (k : Shows f (many p) w) : Shows f (many p) (v ++ w) := by
  generalize same : many p = q at h
  induction h with
  | once first =>
    obtain rfl := Phrase.many.inj same
    exact .more first k
  | more first _ _ ih =>
    obtain rfl := Phrase.many.inj same
    rw [List.append_assoc]
    exact .more first (ih k rfl)
  | _ => cases same

/-- A hidden rule shows what its body shows. -/
theorem shows_hidden_iff {f : Option Field} {r : Rule} {w : List Child} (hidden : r.isHidden = true) :
    Shows f (.rule r) w ↔ Shows f r.body w := by
  constructor
  · intro h
    cases h with
    | visible visible =>
      rw [Rule.isVisible, hidden] at visible
      cases visible
    | hidden _ body => exact body
  · exact .hidden hidden

/-- A phrase shows what the symbols show that it is reduced from. -/
theorem Spans.shows {f : Option Field} {p : Phrase} {xs : List Part} (h : Spans f p xs) :
    ∀ {w : List Child}, Yields showsPart xs w → Shows f p w := by
  induction h with
  | nothing =>
    intro w yields
    rw [yields_nil_iff.mp yields]
    exact .nothing
  | token =>
    intro w yields
    obtain rfl := yields_singleton_iff.mp yields
    exact .token
  | rule =>
    intro w yields
    exact yields_singleton_iff.mp yields
  | hidden hidden _ ih =>
    intro w yields
    exact .hidden hidden (ih yields)
  | folded hidden _ ih =>
    intro w yields
    exact (shows_hidden_iff hidden).mp (ih yields)
  | field _ ih =>
    intro w yields
    exact .field (ih yields)
  | seq _ _ ihp ihq =>
    intro w yields
    obtain ⟨u, v, rfl, front, back⟩ := yields.split
    exact .seq (ihp front) (ihq back)
  | left _ ih =>
    intro w yields
    exact .left (ih yields)
  | right _ ih =>
    intro w yields
    exact .right (ih yields)
  | once _ ih =>
    intro w yields
    exact .once (ih yields)
  | join _ _ ihp ihq =>
    intro w yields
    obtain ⟨u, v, rfl, front, back⟩ := yields.split
    exact (ihp front).join (ihq back)

/-- A part inside of something with the field `f`. -/
def partWithin (f : Option Field) (x : Part) : Part :=
  (x.1, x.2.or f)

/-- Inside of something with a field, the symbols without a field of their own have that field. -/
theorem Spans.within {f g : Option Field} {p : Phrase} {xs : List Part} (h : Spans g p xs) :
    Spans (g.or f) p (xs.map (partWithin f)) := by
  induction h with
  | nothing => exact .nothing
  | token => exact .token
  | rule => exact .rule
  | hidden hidden _ ih => exact .hidden hidden ih
  | folded hidden _ ih => exact .folded hidden ih
  | field _ ih => exact .field ih
  | seq _ _ ihp ihq =>
    rw [List.map_append]
    exact .seq ihp ihq
  | left _ ih => exact .left ih
  | right _ ih => exact .right ih
  | once _ ih => exact .once ih
  | join _ _ ihp ihq =>
    rw [List.map_append]
    exact .join ihp ihq

/-! ### Matching -/

/-- What is left of some parts behind a phrase with the field `f`, in all ways in which it can stand
at their beginning; `stands` says which symbols may stand for a rule. -/
def rests (stands : Option Field → Rule → Symbol → Bool) (f : Option Field) :
    Phrase → List Part → List (List Part)
  | .nothing, xs => [xs]
  | .token t, x :: xs => if x = (.token t, f) then [xs] else []
  | .rule r, x :: xs => if stands f r x.1 && x.2 == f then [xs] else []
  | .field g p, xs => rests stands (some g) p xs
  | .seq p q, xs => (rests stands f p xs).flatMap (rests stands f q)
  | .either p q, xs => rests stands f p xs ++ rests stands f q xs
  | .many p, xs => rests stands f p xs
  | _, [] => []

theorem spans_of_rests {stands : Option Field → Rule → Symbol → Bool}
    (sound : ∀ f r x, stands f r x = true → Spans f (.rule r) [(x, f)]) {p : Phrase} :
    ∀ {f : Option Field} {xs ys : List Part}, ys ∈ rests stands f p xs →
      ∃ zs, xs = zs ++ ys ∧ Spans f p zs := by
  induction p with
  | nothing =>
    intro f xs ys mem
    obtain rfl := List.mem_singleton.mp mem
    exact ⟨[], rfl, .nothing⟩
  | token t =>
    intro f xs ys mem
    cases xs with
    | nil => cases mem
    | cons x xs =>
      rw [rests] at mem
      split at mem
      · rename_i same
        obtain rfl := List.mem_singleton.mp mem
        exact ⟨[x], rfl, same ▸ .token⟩
      · cases mem
  | rule r =>
    intro f xs ys mem
    cases xs with
    | nil => cases mem
    | cons x xs =>
      rw [rests] at mem
      split at mem
      · rename_i fits
        obtain ⟨fits, field⟩ := Bool.and_eq_true_iff.mp fits
        obtain rfl := List.mem_singleton.mp mem
        obtain rfl := eq_of_beq field
        exact ⟨[x], rfl, sound _ r x.1 fits⟩
      · cases mem
  | field g p ih =>
    intro f xs ys mem
    rw [rests] at mem
    obtain ⟨zs, split, spans⟩ := ih mem
    exact ⟨zs, split, .field spans⟩
  | seq p q ihp ihq =>
    intro f xs ys mem
    rw [rests] at mem
    obtain ⟨us, first, second⟩ := List.mem_flatMap.mp mem
    obtain ⟨vs, rfl, front⟩ := ihp first
    obtain ⟨ws, rfl, back⟩ := ihq second
    exact ⟨vs ++ ws, (List.append_assoc ..).symm, .seq front back⟩
  | either p q ihp ihq =>
    intro f xs ys mem
    rw [rests] at mem
    rcases List.mem_append.mp mem with mem | mem
    · obtain ⟨zs, split, spans⟩ := ihp mem
      exact ⟨zs, split, .left spans⟩
    · obtain ⟨zs, split, spans⟩ := ihq mem
      exact ⟨zs, split, .right spans⟩
  | many p ih =>
    intro f xs ys mem
    rw [rests] at mem
    obtain ⟨zs, split, spans⟩ := ih mem
    exact ⟨zs, split, .once spans⟩

/-- Whether a phrase can stand over all of some parts. -/
def covers (stands : Option Field → Rule → Symbol → Bool) (f : Option Field) (p : Phrase)
    (xs : List Part) : Bool :=
  (rests stands f p xs).any List.isEmpty

theorem spans_of_covers {stands : Option Field → Rule → Symbol → Bool}
    (sound : ∀ f r x, stands f r x = true → Spans f (.rule r) [(x, f)]) {p : Phrase}
    {f : Option Field} {xs : List Part} (h : covers stands f p xs = true) : Spans f p xs := by
  obtain ⟨ys, mem, empty⟩ := List.any_eq_true.mp h
  obtain rfl := List.isEmpty_iff.mp empty
  obtain ⟨zs, rfl, spans⟩ := spans_of_rests sound mem
  rwa [List.append_nil]

end Phrase

end SusSyntax.Grammar

namespace SusSyntax.Rule

open Grammar Phrase

/-- Whether a symbol is the rule itself. -/
def isSymbol (_ : Option Field) (r : Rule) (x : Symbol) : Bool :=
  x == .rule r

/-- Whether a symbol is the rule, or all that there is in it if it is hidden. -/
def standsAlone (f : Option Field) (r : Rule) (x : Symbol) : Bool :=
  isSymbol f r x || r.isHidden && covers isSymbol f r.body [(x, f)]

theorem spans_of_standsAlone (f : Option Field) (r : Rule) (x : Symbol)
    (h : standsAlone f r x = true) : Spans f (.rule r) [(x, f)] := by
  have exact (f : Option Field) (r : Rule) (x : Symbol) (h : isSymbol f r x = true) :
      Spans f (.rule r) [(x, f)] := by
    obtain rfl := eq_of_beq h
    exact .rule
  rcases Bool.or_eq_true_iff.mp h with same | inside
  · exact exact f r x same
  · obtain ⟨hidden, covers⟩ := Bool.and_eq_true_iff.mp inside
    exact .hidden hidden (spans_of_covers exact covers)

/-- Whether parts can be reduced to a rule: they are covered by its body, or they are two pieces of
a repetition. -/
def fits (r : Rule) (xs : List Part) : Bool :=
  covers standsAlone none r.body xs || match r.body, xs with
    | .many _, [x, y] => r.isHidden && covers standsAlone none (.rule r) [x] &&
        covers standsAlone none (.rule r) [y]
    | _, _ => false

theorem spans_of_fits {r : Rule} {xs : List Part} (h : r.fits xs = true) : Spans none r.body xs := by
  rcases Bool.or_eq_true_iff.mp h with covers | pieces
  · exact spans_of_covers spans_of_standsAlone covers
  · split at pieces
    · rename_i p x y body
      simp only [Bool.and_eq_true] at pieces
      obtain ⟨⟨hidden, first⟩, second⟩ := pieces
      have first : Spans none r.body [x] := .folded hidden (spans_of_covers spans_of_standsAlone first)
      have second : Spans none r.body [y] :=
        .folded hidden (spans_of_covers spans_of_standsAlone second)
      rw [body] at first second ⊢
      exact .join first second
    · cases pieces

end SusSyntax.Rule
