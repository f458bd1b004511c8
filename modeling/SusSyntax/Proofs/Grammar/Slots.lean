import SusSyntax.Proofs.Grammar.Handles
import SusSyntax.Proofs.Grammar.Shown

/-!
What layouts say of hidden children.

A layout repeats, as inherited slots, which fields there are in the hidden children of a node. For every
reduction of the table this agrees with what the symbols in these places can show
(`suits_of_reduce`): a child with a field of its own has no other slot, and is visible or takes the
place of one visible child (`eq_singleton_of_reduce_isUnit`); a visible child without a field has no
slot; and a hidden child has a slot for every field that is found in it.
-/

namespace SusSyntax

/-- A hidden rule over one child, in whose place it stands. -/
def Rule.isUnit (r : Rule) : Bool :=
  r == .type || r == .expression

/-- A symbol that shows one node: itself, or the one it stands for. -/
def Symbol.isSingle : Symbol → Bool
  | .rule r => r.isVisible || r.isUnit
  | x => x.isVisible

namespace Grammar

/-- The fields of the nodes that a hidden symbol can show. -/
def fieldsWithin : Symbol → List Field
  | .rule r => (Phrase.childrenWithin 4 none r).filterMap Prod.snd
  | _ => []

namespace Layout

/-- The first slot of a layout for the field `f` of its child `i`. -/
def slot? (layout : Nat) (f : Field) (i : Nat) : Option Slot :=
  (slots layout).find? fun s => s.field == f && s.child == i

/-- The slots of a layout for its child `i`. -/
def slotsAt (layout i : Nat) : List Slot :=
  (slots layout).filter fun s => s.child == i

/-- Whether a layout says of its child `i` what a symbol in that place shows. -/
def suits (layout i : Nat) (x : Symbol) : Bool :=
  match field? layout i with
  | some f => slotsAt layout i == [.own f i] && x.isSingle
  | none => if x.isVisible then (slotsAt layout i).isEmpty else
      (slotsAt layout i).all Slot.inherited &&
        (fieldsWithin x).all fun f => (slotsAt layout i).any (·.field == f)

variable {layout i : Nat} {x : Symbol} {f g : Field}

theorem slot?_eq (layout : Nat) (f : Field) (i : Nat) :
    slot? layout f i = (slotsAt layout i).find? (·.field == f) := by
  rw [slot?, slotsAt, List.find?_filter]
  refine congrArg (List.find? · _) (funext fun s => ?_)
  rw [Bool.eq_iff_iff]
  simp [and_comm]

/-- A child with a field has the slot of this field only, and shows one node. -/
theorem suits_own (h : suits layout i x = true) (own : field? layout i = some g) :
    (∀ f, slot? layout f i = if f = g then some (.own g i) else none) ∧ x.isSingle = true := by
  rw [suits, own, Bool.and_eq_true, beq_iff_eq] at h
  refine ⟨fun f => ?_, h.2⟩
  rw [slot?_eq, h.1]
  by_cases same : g = f
  · simp [Slot.own, same]
  · simp [Slot.own, same, Ne.symm same]

/-- A visible child without a field has no slot. -/
theorem suits_visible (h : suits layout i x = true) (none : field? layout i = none)
    (visible : x.isVisible = true) (f : Field) : slot? layout f i = Option.none := by
  rw [suits, none] at h
  simp only [visible, if_true, List.isEmpty_iff] at h
  rw [slot?_eq, h, List.find?_nil]

/-- A hidden child without a field has an inherited slot for every field that is found in it. -/
theorem suits_hidden (h : suits layout i x = true) (none : field? layout i = none)
    (hidden : x.isVisible = false) (f : Field) :
    (∃ slot, slot? layout f i = some slot ∧ slot.inherited = true) ∨
      slot? layout f i = Option.none ∧ f ∉ fieldsWithin x := by
  rw [suits, none] at h
  simp only [hidden, Bool.false_eq_true, if_false, Bool.and_eq_true, List.all_eq_true,
    List.any_eq_true] at h
  rw [slot?_eq]
  cases found : (slotsAt layout i).find? (·.field == f) with
  | some slot => exact .inl ⟨slot, rfl, h.1 slot (List.mem_of_find?_eq_some found)⟩
  | none =>
    refine .inr ⟨rfl, fun mem => ?_⟩
    obtain ⟨slot, known, same⟩ := h.2 f mem
    exact List.find?_eq_none.mp found slot known same

end Layout

/-! ### Reductions -/

/-- Whether a layout suits all symbols that may stand in the places of a rule, of which there is one if
the rule is a unit. -/
def isLaidOut (layout : Nat) (places : List (List Symbol)) (r : Rule) : Bool :=
  (places.zipIdx.all fun (xs, i) => xs.all (Layout.suits layout i)) &&
    (!r.isUnit || layout == 0 && places.length == 1 && places.all (·.all Symbol.isVisible))

theorem reductions_laid :
    (rows.zipIdx.all fun x => x.1.entries.all fun e => e.1.actions.all fun
      | .reduce r size layout => isLaidOut layout (State.lastSymbols size [x.2]) r
      | _ => true) = true := by
  decide +kernel

theorem length_sequences {α : Type} {xss : List (List α)} {xs : List α} (h : xs ∈ sequences xss) :
    xs.length = xss.length := by
  induction xss generalizing xs with
  | nil =>
    obtain rfl := List.mem_singleton.mp h
    rfl
  | cons ys xss ih =>
    obtain ⟨y, _, rest⟩ := List.mem_flatMap.mp h
    obtain ⟨zs, known, rfl⟩ := List.mem_map.mp rest
    rw [List.length_cons, ih known, List.length_cons]

/-- An element of a sequence is one of the list in its place. -/
theorem getElem?_sequences {α : Type} {xss : List (List α)} {xs : List α} {i : Nat} {x : α}
    (h : xs ∈ sequences xss) (at' : xs[i]? = some x) : ∃ ys, xss[i]? = some ys ∧ x ∈ ys := by
  induction xss generalizing xs i with
  | nil =>
    obtain rfl := List.mem_singleton.mp h
    cases at'
  | cons ys xss ih =>
    obtain ⟨y, first, rest⟩ := List.mem_flatMap.mp h
    obtain ⟨zs, known, rfl⟩ := List.mem_map.mp rest
    cases i with
    | zero =>
      obtain rfl := Option.some.inj at'
      exact ⟨ys, rfl, first⟩
    | succ i => exact ih known at'

section

variable {s n : State} {xs : List Symbol} {t : Token} {r : Rule} {layout : Nat}

/-- The symbols that a rule is reduced from stand in places for which its layout is right. -/
theorem isLaidOut_of_reduce (inside : ∀ t, .token t ∈ xs → t.isComment = false)
    (way : s.through xs = n) (h : .reduce r xs.length layout ∈ (n.row.entry t).actions) :
    ∃ places, xs ∈ sequences places ∧ isLaidOut layout places r = true := by
  have ne : s.through xs ≠ errorState := by
    rw [way]
    exact State.ne_errorState_of_reduce h
  obtain ⟨_, -, laid⟩ := State.reduction_holds (fun s _ r size layout =>
    isLaidOut layout (State.lastSymbols size [s]) r) reductions_laid h
  exact ⟨_, State.mem_lastSymbols inside ne (List.mem_singleton.mpr way), laid⟩

/-- The layout of a reduction suits each of the symbols that are reduced. -/
theorem suits_of_reduce (inside : ∀ t, .token t ∈ xs → t.isComment = false)
    (way : s.through xs = n) (h : .reduce r xs.length layout ∈ (n.row.entry t).actions) {i : Nat}
    {x : Symbol} (at' : xs[i]? = some x) : Layout.suits layout i x = true := by
  obtain ⟨places, mem, laid⟩ := isLaidOut_of_reduce inside way h
  obtain ⟨ys, place, known⟩ := getElem?_sequences mem at'
  exact List.all_eq_true.mp (List.all_eq_true.mp (Bool.and_eq_true_iff.mp laid).1 (ys, i)
    (List.mem_zipIdx_iff_getElem?.mpr place)) x known

/-- A unit is reduced from one visible symbol, without fields. -/
theorem eq_singleton_of_reduce_isUnit (inside : ∀ t, .token t ∈ xs → t.isComment = false)
    (way : s.through xs = n) (h : .reduce r xs.length layout ∈ (n.row.entry t).actions)
    (unit : r.isUnit = true) : layout = 0 ∧ ∃ x, xs = [x] ∧ x.isVisible = true := by
  obtain ⟨places, mem, laid⟩ := isLaidOut_of_reduce inside way h
  have known := (Bool.and_eq_true_iff.mp laid).2
  rw [unit, Bool.not_true, Bool.false_or, Bool.and_eq_true, Bool.and_eq_true, beq_iff_eq,
    beq_iff_eq] at known
  obtain ⟨⟨rfl, one⟩, visible⟩ := known
  obtain ⟨x, rfl⟩ := List.length_eq_one_iff.mp ((length_sequences mem).trans one)
  obtain ⟨ys, place, known⟩ := getElem?_sequences mem (i := 0) rfl
  exact ⟨rfl, x, rfl, List.all_eq_true.mp (List.all_eq_true.mp visible ys
    (List.mem_of_getElem? place)) x known⟩

end

end Grammar

end SusSyntax
