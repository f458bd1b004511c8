import SusSyntax.Language.NamedId

/-!
Which names stand for a number.

A kind is found by its exact name, and so is a field (`Symbol.find?_eq_some_iff`). The look-up of
kinds answers the error kind for every beginning of its name, though, so a name is mistaken for that
kind where it is only a beginning of `ERROR`, or where a keyword is asked for (`Realm.mistakes`).
Apart from these names a name is resolved just if it is the exact name of something in the realm,
and every other name is an error that quotes it (`resolve_iff_names`).
-/

namespace SusSyntax

namespace Symbol

theorem mem_all_iff {x : Symbol} : x ∈ all ↔ x.isErroneous = false := by
  constructor
  · intro mem
    rcases List.mem_append.mp mem with mem | mem
    · obtain ⟨t, _, rfl⟩ := List.mem_map.mp mem
      rfl
    · obtain ⟨r, _, rfl⟩ := List.mem_map.mp mem
      rfl
  · intro regular
    cases x with
    | token t => exact List.mem_append_left _ (List.mem_map.mpr ⟨t, Token.mem_all t, rfl⟩)
    | rule r => exact List.mem_append_right _ (List.mem_map.mpr ⟨r, Rule.mem_all r, rfl⟩)
    | error => cases regular
    | skipped => cases regular

/-- Among the kinds that are shown, the name and whether it is one of its own tell a kind apart. -/
theorem find?_name {x : Symbol} (regular : x.isErroneous = false) (visible : x.isVisible = true) :
    find? x.name x.isNamed = some x := by
  have checked : (all.all fun x => !x.isVisible || find? x.name x.isNamed == some x) = true := by
    decide +kernel
  have holds := List.all_eq_true.mp checked x (mem_all_iff.mpr regular)
  simpa [visible] using holds

theorem find?_eq_some_iff {name : String} {named : Bool} {x : Symbol} :
    find? name named = some x ↔
      x.isErroneous = false ∧ x.isVisible = true ∧ x.isNamed = named ∧ x.name = name := by
  constructor
  · intro found
    have regular := mem_all_iff.mp (List.mem_of_find?_eq_some found)
    have holds := List.find?_some found
    simp only [Bool.and_eq_true, beq_iff_eq] at holds
    exact ⟨regular, holds.1.1, holds.1.2, holds.2⟩
  · rintro ⟨regular, visible, rfl, rfl⟩
    exact find?_name regular visible

/-- Number 0 is that of the end of the text, which is not shown. -/
theorem id_ne_zero_of_isVisible {x : Symbol} (visible : x.isVisible = true) : x.id ≠ 0 := by
  intro zero
  have same : x = .token .eof := id_injective zero
  rw [same] at visible
  cases visible

end Symbol

namespace Realm

/-- A name is the exact name of the visible kind of number `n`, with a name of its own or without. -/
def NamesKind (named : Bool) (name : String) (n : Nat) : Prop :=
  ∃ x : Symbol, x.id = n ∧ x.isVisible = true ∧ x.isNamed = named ∧ x.name = name

/-- A name is the exact name of the number `n` in a realm: that of a visible kind with a name of its
own, that of a visible kind without one, or that of a field. -/
def Names : Realm → String → Nat → Prop
  | .nodeKind => NamesKind true
  | .keyword => NamesKind false
  | .field => fun name n => ∃ f : Field, f.label = name ∧ f.id = n

/-- Whether a name begins the name of the error kind. -/
def beginsError (name : String) : Bool :=
  name.toList.isPrefixOf Symbol.error.name.toList

/-- Whether a name is mistaken for that of the error kind. -/
def mistakes (r : Realm) (name : String) : Bool :=
  match r with
  | .nodeKind => beginsError name && name != Symbol.error.name
  | .keyword => beginsError name
  | .field => false

variable {name : String} {named : Bool} {n : Nat}

/-! ### Kinds -/

theorem kindId?_of_beginsError (h : beginsError name = true) :
    kindId? name named = some Symbol.error.id := by
  unfold beginsError at h
  unfold kindId? Symbol.idForName
  rw [if_pos h]
  rfl

theorem idForName_of_not_beginsError (h : beginsError name = false) :
    Symbol.idForName name named = ((Symbol.find? name named).map Symbol.id).getD 0 := by
  unfold beginsError at h
  unfold Symbol.idForName
  rw [h]
  rfl

/-- No other kind has a name that begins the name of the error kind. -/
theorem eq_error_of_beginsError {x : Symbol} (h : beginsError x.name = true)
    (visible : x.isVisible = true) : x = .error := by
  have checked : (Symbol.all.all fun x => !beginsError x.name) = true := by
    decide +kernel
  cases regular : x.isErroneous with
  | false =>
    have holds := List.all_eq_true.mp checked x (Symbol.mem_all_iff.mpr regular)
    rw [h] at holds
    cases holds
  | true =>
    cases x with
    | error => rfl
    | token t => cases regular
    | rule r => cases regular
    | skipped => cases visible

theorem beginsError_name_error : beginsError Symbol.error.name = true := by
  decide

theorem kindId?_eq_some_iff (h : beginsError name = false) :
    kindId? name named = some n ↔ NamesKind named name n := by
  unfold kindId?
  rw [idForName_of_not_beginsError h]
  constructor
  · intro known
    cases found : Symbol.find? name named with
    | none =>
      rw [found] at known
      cases known
    | some x =>
      obtain ⟨_, visible, isNamed, same⟩ := Symbol.find?_eq_some_iff.mp found
      have ne := Symbol.id_ne_zero_of_isVisible visible
      rw [found, Option.map_some, Option.getD_some, if_neg ne] at known
      exact ⟨x, Option.some.inj known, visible, isNamed, same⟩
  · rintro ⟨x, rfl, visible, isNamed, rfl⟩
    have regular : x.isErroneous = false := by
      cases x with
      | error => exact absurd (h.symm.trans beginsError_name_error) Bool.false_ne_true
      | token t => rfl
      | rule r => rfl
      | skipped => cases visible
    have found := Symbol.find?_eq_some_iff.mpr ⟨regular, visible, isNamed, rfl⟩
    have ne := Symbol.id_ne_zero_of_isVisible visible
    rw [found, Option.map_some, Option.getD_some, if_neg ne]

/-- A beginning of the name of the error kind is the exact name of a kind only if it is all of it. -/
theorem namesKind_of_beginsError (h : beginsError name = true) :
    NamesKind named name n ↔
      named = true ∧ name = Symbol.error.name ∧ n = Symbol.error.id := by
  constructor
  · rintro ⟨x, rfl, visible, isNamed, rfl⟩
    obtain rfl := eq_error_of_beginsError h visible
    exact ⟨isNamed.symm, rfl, rfl⟩
  · rintro ⟨rfl, rfl, rfl⟩
    exact ⟨.error, rfl, rfl, rfl, rfl⟩

/-! ### All realms -/

theorem id?_field_eq_some_iff : id? .field name = some n ↔ Names .field name n := by
  unfold id? Names
  rw [Option.map_eq_some_iff]
  constructor
  · rintro ⟨f, found, rfl⟩
    exact ⟨f, Field.ofName?_eq_some_iff.mp found, rfl⟩
  · rintro ⟨f, same, rfl⟩
    exact ⟨f, Field.ofName?_eq_some_iff.mpr same, rfl⟩

/-- A name that is not mistaken has a number just if it is the exact name of something. -/
theorem id?_eq_some_iff {r : Realm} (h : r.mistakes name = false) :
    r.id? name = some n ↔ r.Names name n := by
  cases r with
  | field => exact id?_field_eq_some_iff
  | keyword => exact kindId?_eq_some_iff h
  | nodeKind =>
    cases begins : beginsError name with
    | false => exact kindId?_eq_some_iff begins
    | true =>
      have whole : name = Symbol.error.name := by
        simpa [mistakes, begins] using h
      change kindId? name true = some n ↔ NamesKind true name n
      rw [kindId?_of_beginsError begins, namesKind_of_beginsError begins, Option.some.injEq]
      exact ⟨fun same => ⟨rfl, whole, same.symm⟩, fun same => same.2.2.symm⟩

/-- A mistaken name has the number of the error kind, and is the exact name of nothing. -/
theorem id?_of_mistakes {r : Realm} (h : r.mistakes name = true) :
    r.id? name = some Symbol.error.id ∧ ∀ n, ¬ r.Names name n := by
  cases r with
  | field => cases h
  | keyword =>
    refine ⟨kindId?_of_beginsError h, fun n names => ?_⟩
    cases ((namesKind_of_beginsError h).mp names).1
  | nodeKind =>
    obtain ⟨begins, ne⟩ := Bool.and_eq_true_iff.mp h
    refine ⟨kindId?_of_beginsError begins, fun n names => ?_⟩
    have whole := ((namesKind_of_beginsError begins).mp names).2.1
    rw [whole] at ne
    cases ne

theorem resolve_eq_ok_iff {r : Realm} : r.resolve name = .ok n ↔ r.id? name = some n := by
  unfold resolve
  cases r.id? name with
  | none => exact ⟨nofun, nofun⟩
  | some m => exact ⟨fun same => by rw [Except.ok.inj same], fun same => by rw [Option.some.inj same]⟩

/-- Apart from the beginnings of the name of the error kind, a name stands for a number just if it is
the exact name of something of that number in the realm, and any other name is an error that quotes
it. Those beginnings stand for the error kind in both realms of kinds, although nothing is called
so. -/
theorem resolve_iff_names (r : Realm) (name : String) :
    (r.mistakes name = false → ∀ n, r.resolve name = .ok n ↔ r.Names name n) ∧
    (r.mistakes name = false → (∀ n, ¬ r.Names name n) →
      ∃ e, r.resolve name = .error e ∧
        e.message = "`" ++ name ++ "` is not a valid " ++ r.title ++ " in the SUS grammar") ∧
    (r.mistakes name = true →
      r.resolve name = .ok Symbol.error.id ∧ ∀ n, ¬ r.Names name n) := by
  refine ⟨fun exact n => ?_, fun exact none => ?_, fun mistaken => ?_⟩
  · exact resolve_eq_ok_iff.trans (id?_eq_some_iff exact)
  · cases found : r.id? name with
    | some n => exact absurd ((id?_eq_some_iff exact).mp found) (none n)
    | none =>
      refine ⟨.unknown r name, ?_, rfl⟩
      unfold resolve
      rw [found]
  · obtain ⟨found, none⟩ := id?_of_mistakes mistaken
    exact ⟨resolve_eq_ok_iff.mpr found, none⟩

/-- The name of a node has its number, a keyword is no name of a node, and the empty text is mistaken
for a keyword. -/
theorem resolve_ifStatement :
    (Realm.mistakes .nodeKind "if_statement" = false ∧
      Realm.resolve .nodeKind "if_statement" = .ok (Symbol.rule .ifStatement).id) ∧
    (Realm.mistakes .nodeKind "if" = false ∧
      ∃ e, Realm.resolve .nodeKind "if" = .error e) ∧
    Realm.mistakes .keyword "" = true ∧ Realm.resolve .keyword "" = .ok Symbol.error.id := by
  have exact : Realm.mistakes .nodeKind "if_statement" = false := by decide
  have exact' : Realm.mistakes .nodeKind "if" = false := by decide
  have none : ∀ n, ¬ Realm.Names .nodeKind "if" n := by
    rintro n ⟨x, -, visible, isNamed, name⟩
    have checked : (Symbol.all.all fun x => !(x.isNamed && x.name == "if")) = true := by
      decide +kernel
    cases regular : x.isErroneous with
    | false =>
      have holds := List.all_eq_true.mp checked x (Symbol.mem_all_iff.mpr regular)
      rw [isNamed, name] at holds
      cases holds
    | true =>
      cases x with
      | error => exact absurd name (by decide)
      | token t => cases regular
      | rule r => cases regular
      | skipped => cases visible
  obtain ⟨e, isError, _⟩ := (resolve_iff_names .nodeKind "if").2.1 exact' none
  exact ⟨⟨exact, ((resolve_iff_names .nodeKind "if_statement").1 exact _).mpr
      ⟨.rule .ifStatement, rfl, rfl, rfl, rfl⟩⟩, ⟨exact', e, isError⟩, by decide,
    ((resolve_iff_names .keyword "").2.2 (by decide)).1⟩

/-- A part of the name of the error kind is taken for a kind, although nothing has this name. -/
theorem resolve_mistakes_beginning :
    Realm.resolve .nodeKind "ER" = .ok Symbol.error.id ∧ ∀ n, ¬ Realm.Names .nodeKind "ER" n := by
  have mistaken : Realm.mistakes .nodeKind "ER" = true := by decide
  obtain ⟨found, none⟩ := id?_of_mistakes mistaken
  exact ⟨resolve_eq_ok_iff.mpr found, none⟩

end Realm

end SusSyntax
