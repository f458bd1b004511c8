import SusSyntax.Proofs.Grammar.Spans

/-!
What the nodes of a rule show.

`Phrase.Shows` takes a phrase apart in the same way everywhere (as `shows_seq_iff` does), so that the
children of a rule can be read off its body (`shows_declaration_iff`). `Phrase.children` collects the
children that a phrase can show at all, looking into hidden rules as deep as these are nested; what
is the same for every child of a list is found there (`isListChild_of_shows`).
-/

namespace SusSyntax.Grammar.Phrase

variable {f : Option Field} {p q : Phrase} {w : List Child}

/-! ### Taking phrases apart -/

@[simp] theorem shows_nothing_iff : Shows f .nothing w ↔ w = [] := by
  constructor
  · rintro ⟨⟩
    rfl
  · rintro rfl
    exact .nothing

@[simp] theorem shows_token_iff {t : Token} : Shows f (.token t) w ↔ w = [(.token t, f)] := by
  constructor
  · rintro ⟨⟩
    rfl
  · rintro rfl
    exact .token

@[simp] theorem shows_field_iff {g : Field} : Shows f (.field g p) w ↔ Shows (some g) p w := by
  constructor
  · rintro ⟨⟩
    assumption
  · exact .field

@[simp] theorem shows_seq_iff :
    Shows f (.seq p q) w ↔ ∃ u v, w = u ++ v ∧ Shows f p u ∧ Shows f q v := by
  constructor
  · rintro ⟨⟩
    exact ⟨_, _, rfl, ‹_›, ‹_›⟩
  · rintro ⟨u, v, rfl, first, second⟩
    exact .seq first second

@[simp] theorem shows_either_iff : Shows f (.either p q) w ↔ Shows f p w ∨ Shows f q w := by
  constructor
  · intro h
    cases h with
    | left first => exact .inl first
    | right second => exact .inr second
  · rintro (first | second)
    · exact .left first
    · exact .right second

/-- A visible rule shows itself. -/
theorem shows_visible_iff {r : Rule} (visible : r.isVisible = true) :
    Shows f (.rule r) w ↔ w = [(.rule r, f)] := by
  constructor
  · intro h
    cases h with
    | visible => rfl
    | hidden hidden =>
      rw [Rule.isVisible, hidden] at visible
      cases visible
  · rintro rfl
    exact .visible visible

/-! ### All children that a phrase can show -/

/-- The children that a phrase with the field `f` can show, where `inside` says which ones a hidden
rule can show. -/
def children (inside : Option Field → Rule → List Child) (f : Option Field) : Phrase → List Child
  | .nothing => []
  | .token t => [(.token t, f)]
  | .rule r => if r.isVisible then [(.rule r, f)] else inside f r
  | .field g p => children inside (some g) p
  | .seq p q | .either p q => children inside f p ++ children inside f q
  | .many p => children inside f p

/-- The children that a rule can show, with hidden rules opened `depth` times. -/
def childrenWithin : Nat → Option Field → Rule → List Child
  | 0, _, _ => []
  | depth + 1, f, r => children (childrenWithin depth) f r.body

/-- No child is missed if opening the hidden rules once more finds no new ones. -/
theorem mem_children_of_shows {inside : Option Field → Rule → List Child}
    (closed : ∀ f r, r.isHidden = true → ∀ c ∈ children inside f r.body, c ∈ inside f r)
    (h : Shows f p w) : ∀ c ∈ w, c ∈ children inside f p := by
  induction h with
  | nothing => exact fun c mem => mem
  | token => exact fun c mem => mem
  | visible visible =>
    intro c mem
    rwa [children, if_pos visible]
  | @hidden f r _ hidden _ ih =>
    intro c mem
    rw [children, if_neg (by simp [Rule.isVisible, hidden])]
    exact closed f r hidden c (ih c mem)
  | field _ ih => exact ih
  | seq _ _ ihp ihq =>
    intro c mem
    exact List.mem_append.mpr ((List.mem_append.mp mem).imp (ihp c) (ihq c))
  | left _ ih => exact fun c mem => List.mem_append_left _ (ih c mem)
  | right _ ih => exact fun c mem => List.mem_append_right _ (ih c mem)
  | once _ ih => exact ih
  | more _ _ ihp ihq => exact fun c mem => (List.mem_append.mp mem).elim (ihp c) (ihq c)

/-- Hidden rules are nested three deep. -/
theorem childrenWithin_four (f : Option Field) (r : Rule) (hidden : r.isHidden = true) :
    childrenWithin 4 f r = childrenWithin 3 f r := by
  cases r <;> first | rfl | cases hidden

theorem mem_childrenWithin_of_shows {r : Rule} (h : Shows f r.body w) :
    ∀ c ∈ w, c ∈ childrenWithin 4 f r := by
  refine mem_children_of_shows (fun f r hidden c mem => ?_) h
  rw [← childrenWithin_four f r hidden]
  exact mem

end SusSyntax.Grammar.Phrase

namespace SusSyntax.Rule

open Grammar Grammar.Phrase

variable {w : List Child}

/-! ### Lists -/

/-- The rules over lists of items. -/
def lists : List Rule :=
  [.sourceFile, .templateDeclarationArguments, .block, .assignLeftSide, .writeModifiers,
   .declarationList, .parenthesisExpressionList, .namespaceList, .templateArgs]

/-- What stands around and between the items of lists. -/
def separators : List Token :=
  [.hashParen, .lparen, .rparen, .lbrace, .rbrace, .comma, .newline, .colonColon]

/-- Whether a child of a list is an item with its field, or a separator without one. -/
def isListChild (c : Child) : Bool :=
  c.2 == if separators.any (c.1 == .token ·) then none else some .item

/-- In a list all items have the field `item`, and the separators have no field. -/
theorem isListChild_of_shows {r : Rule} (isList : r ∈ lists) (h : Shows none r.body w) :
    ∀ c ∈ w, isListChild c = true := by
  have all : ∀ r ∈ lists, ∀ c ∈ childrenWithin 4 none r, isListChild c = true := by
    decide
  exact fun c mem => all r isList c (mem_childrenWithin_of_shows h c mem)

/-- The items of a source file are global objects. -/
theorem item_of_shows_sourceFile (h : Shows none sourceFile.body w) :
    ∀ c ∈ w, c.2 = some .item → c.1 = .rule .globalObject := by
  have all : ∀ c ∈ childrenWithin 4 none sourceFile,
      c.2 = some .item → c.1 = .rule .globalObject := by
    decide
  exact fun c mem => all c (mem_childrenWithin_of_shows h c mem)

/-! ### Declarations -/

/-- The children of a declaration: modifiers that may be left out, a type, a name, and a latency
that may be left out. -/
def IsDeclaration (w : List Child) : Prop :=
  ∃ ports ∈ [[], [(Symbol.token .inputKw, some Field.ioPortModifiers)],
      [(.token .outputKw, some .ioPortModifiers)]],
  ∃ modifiers ∈ [[], [(.token .stateKw, some .declarationModifiers)],
      [(.token .genKw, some .declarationModifiers)]],
  ∃ kind ∈ [Rule.templateGlobal, .arrayType],
  ∃ latency ∈ [[], [(.rule .latencySpecifier, some .latencySpecifier)]],
    w = ports ++ modifiers ++ [(.rule kind, some .type), (.token .identifier, some .name)] ++ latency

theorem shows_declaration_iff : Shows none declaration.body w ↔ IsDeclaration w := by
  have typed {w : List Child} : Shows (some .type) (.rule .type) w ↔
      ∃ kind ∈ [Rule.templateGlobal, .arrayType], w = [(.rule kind, some .type)] := by
    simp [shows_hidden_iff (show Rule.isHidden .type = true from rfl), body, oneOf,
      shows_visible_iff (show Rule.isVisible .templateGlobal = true from rfl),
      shows_visible_iff (show Rule.isVisible .arrayType = true from rfl)]
  simp only [IsDeclaration, body, inTurn, Phrase.optional, tokens, oneOf, List.map,
    shows_seq_iff, shows_either_iff, shows_field_iff, shows_token_iff, shows_nothing_iff, typed,
    shows_visible_iff (show Rule.isVisible .latencySpecifier = true from rfl)]
  constructor
  · rintro ⟨ports, _, rfl, ports', modifiers, _, rfl, modifiers', _, _, rfl, ⟨kind, kind', rfl⟩,
      _, latency, rfl, rfl, latency'⟩
    refine ⟨ports, ?_, modifiers, ?_, kind, kind', latency, ?_, by simp⟩
    · simpa [or_comm, or_left_comm] using ports'
    · simpa [or_comm, or_left_comm] using modifiers'
    · simpa [or_comm] using latency'
  · rintro ⟨ports, ports', modifiers, modifiers', kind, kind', latency, latency', rfl⟩
    refine ⟨ports, _, ?_, ?_, modifiers, _, rfl, ?_, _, _, rfl, ⟨kind, kind', rfl⟩,
      _, latency, rfl, rfl, ?_⟩
    · simp
    · simpa [or_comm, or_left_comm] using ports'
    · simpa [or_comm, or_left_comm] using modifiers'
    · simpa [or_comm] using latency'

end SusSyntax.Rule
