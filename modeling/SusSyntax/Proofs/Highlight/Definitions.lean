import SusSyntax.Proofs.Highlight.Captures
import SusSyntax.Proofs.Tree.Fields
import SusSyntax.Proofs.Tree.Objects

/-!
Definitions are the names of the objects of a file.

A global object shows one name (`Rule.names_of_shows_globalObject`), and in a tree without errors it
stands right below the root and nowhere else (`Tree.IsWhole.isLevel_of_mem_all`). So the nodes that
are captured as definitions are the names of the items of the root, one of each
(`definesItems_parse`).
-/

namespace SusSyntax

open Grammar Grammar.Phrase

/-! ### What the grammar says of objects -/

namespace Rule

/-- What can show no name shows none. -/
theorem names_eq_nil {f : Option Field} {p : Phrase} {w : List Child} (h : Shows f p w)
    (free : ∀ c ∈ children (childrenWithin 3) f p, c.2 ≠ some .name) :
    w.filter (·.2 == some .name) = [] := by
  refine List.filter_eq_nil_iff.mpr fun c mem => ?_
  rw [beq_iff_eq]
  refine free c (mem_children_of_shows (fun f r hidden c mem => ?_) h c mem)
  rw [← childrenWithin_four f r hidden]
  exact mem

/-- An object shows one name. -/
theorem names_of_shows_globalObject {w : List Child} (h : Shows none globalObject.body w) :
    w.filter (·.2 == some .name) = [(.token .identifier, some .name)] := by
  obtain ⟨marker, w, rfl, marked, h⟩ := shows_seq_iff.mp h
  obtain ⟨kind, w, rfl, typed, h⟩ := shows_seq_iff.mp h
  obtain ⟨name, rest, rfl, named, others⟩ := shows_seq_iff.mp h
  rw [shows_field_iff, shows_token_iff] at named
  rw [List.filter_append, List.filter_append, List.filter_append, names_eq_nil marked (by decide),
    names_eq_nil typed (by decide), names_eq_nil others (by decide), named]
  rfl

/-- Objects are shown as the items of a file, and files are not shown. -/
theorem level_of_mem_childrenWithin : ∀ r ∈ Rule.all, r.isVisible = true →
    ∀ c ∈ childrenWithin 4 none r, c.1 ≠ .rule .sourceFile ∧
      (c.1 = .rule .globalObject → r = .sourceFile ∧ c.2 = some .item) := by
  decide +kernel

end Rule

/-! ### Where objects stand -/

namespace Node

variable {text : Text} {n : Node}

/-- An object has one name. -/
theorem IsGrown.exists_name (h : n.IsGrown text) (isObject : n.kind = .rule .globalObject) :
    ∃ m, n.inField .name = [m] ∧ m.kind = .token .identifier := by
  have names := Rule.names_of_shows_globalObject (h.shows isObject)
  have inField : n.inField .name =
      (n.children.filter fun m => !m.isExtra).filter fun m => m.field == some .name := by
    rw [Node.inField, List.filter_filter]
    refine List.filter_congr fun m mem => ?_
    cases extra : m.isExtra with
    | false => simp
    | true => simp [h.field_of_extra m mem extra]
  rw [Node.shows, Node.inside, List.filter_map] at names
  obtain ⟨m, one, same⟩ := List.map_eq_singleton_iff.mp names
  exact ⟨m, inField.trans one, congrArg Prod.fst same⟩

/-- Where a node over a file or an object stands below a root, and what stands in an object. -/
structure Placed.IsLevel (root : Node) (x : Placed) : Prop where
  file : x.node.kind = .rule .sourceFile → x.node = root ∧ x.depth = 0
  object : x.node.kind = .rule .globalObject → x.node ∈ root.inField .item ∧ x.depth = 1
  inside : x.parent? = some (.rule .globalObject) → x.depth = 2

theorem le_depth_of_mem_walkAll {depth : Nat} {parent? : Option Symbol} {ns : List Node} :
    ∀ x ∈ walkAll depth parent? ns, depth ≤ x.depth :=
  walkAll_induction ns depth parent? (fun _ _ => Nat.le_refl _) fun _ _ le _ _ => Nat.le_succ_of_le le

/-- If a choice of nodes leaves out all that stand deeper, it chooses from the first ones. -/
theorem filter_walkAll {P : Placed → Bool} {depth : Nat} {parent? : Option Symbol} {ns : List Node}
    (deep : ∀ x ∈ walkAll depth parent? ns, depth < x.depth → P x = false) :
    ((walkAll depth parent? ns).filter P).map Placed.node =
      ns.filter fun n => P ⟨depth, parent?, n⟩ := by
  induction ns with
  | nil => rfl
  | cons n ns ih =>
    rw [walkAll, walk_eq] at deep ⊢
    have below : (walkAll (depth + 1) (some n.kind) n.children).filter P = [] :=
      List.filter_eq_nil_iff.mpr fun x mem => Bool.eq_false_iff.mp <|
        deep x (List.mem_append_left _ (List.mem_cons_of_mem _ mem)) (le_depth_of_mem_walkAll x mem)
    have others := ih fun x mem => deep x (List.mem_append_right _ mem)
    rw [List.filter_append, List.map_append, others, List.filter_cons, below, List.filter_cons]
    split <;> rfl

end Node

namespace Tree

variable {text : Text} {t : Tree}

/-- In a tree without errors there are no objects but the items of the root. -/
theorem IsWhole.isLevel_of_mem_all (h : t.IsWhole text) (clean : t.syntaxErrors = []) :
    ∀ x ∈ t.root.all, x.IsLevel t.root := by
  have shape := h.isWellShaped clean
  refine Node.walk_induction t.root 0 none ?_ fun x placed level m mem => ?_
  · refine ⟨fun _ => ⟨rfl, rfl⟩, fun isObject => ?_, nofun⟩
    rw [shape.kind] at isObject
    cases isObject
  · have grown := h.isGrown_of_mem_all x placed
    have child := grown.of_mem_children m mem
    rcases shape.nodes x placed with ⟨r, kind, -⟩ | ⟨u, -, none⟩
    · have visible := grown.isVisible
      rw [kind] at visible
      have above {r' : Rule} (isRule : m.kind = .rule r') :=
        Rule.level_of_mem_childrenWithin r r.mem_all visible _
          (grown.mem_childrenWithin kind mem (child.isExtra_of_rule isRule))
      refine ⟨fun isFile => absurd isFile (above isFile).1, fun isObject => ?_, fun inside => ?_⟩
      · obtain ⟨rfl, field⟩ := (above isObject).2 isObject
        obtain ⟨same, depth⟩ := level.file kind
        refine ⟨List.mem_filter.mpr ⟨same ▸ mem, beq_iff_eq.mpr field⟩, congrArg (· + 1) depth⟩
      · exact congrArg (· + 1) (level.object (Option.some.inj inside)).2
    · rw [none] at mem
      cases mem

end Tree

/-! ### Definitions -/

/-- The pattern for definitions. -/
def Query.definition : Pattern :=
  ⟨.inField .globalObject .name (.token .identifier), "type.definition"⟩

theorem Query.definition_mem : definition ∈ patterns := by
  decide

theorem Query.eq_definition : ∀ p ∈ patterns, p.name = "type.definition" → p = definition := by
  decide

/-- Whether a node is the name of an object. -/
def Node.Placed.isDefinition (x : Node.Placed) : Bool :=
  Capture.isMatch x Query.definition

theorem Node.Placed.isDefinition_iff {x : Node.Placed} : x.isDefinition = true ↔
    x.node.kind = .token .identifier ∧ x.node.field = some .name ∧
      x.parent? = some (.rule .globalObject) := by
  simp [isDefinition, Capture.isMatch, Query.definition, Pattern.Shape.admits, and_assoc]

/-- The definitions among the children of a node are its names, if it is an object. -/
theorem Node.IsGrown.filter_isDefinition {text : Text} {n : Node} (h : n.IsGrown text) (depth : Nat) :
    (n.children.filter fun c => Placed.isDefinition ⟨depth, some n.kind, c⟩) =
      if n.kind = .rule .globalObject then n.inField .name else [] := by
  split
  · rename_i isObject
    obtain ⟨m, one, name⟩ := h.exists_name isObject
    refine List.filter_congr fun c mem => ?_
    rw [Bool.eq_iff_iff, beq_iff_eq, Placed.isDefinition_iff, isObject]
    refine ⟨fun is => is.2.1, fun field => ⟨?_, field, rfl⟩⟩
    have named : c ∈ n.inField .name := List.mem_filter.mpr ⟨mem, beq_iff_eq.mpr field⟩
    rw [one, List.mem_singleton] at named
    exact named ▸ name
  · rename_i notObject
    refine List.filter_eq_nil_iff.mpr fun c _ => ?_
    rw [Placed.isDefinition_iff]
    exact fun is => notObject (Option.some.inj is.2.2)

/-- The captures of definitions. -/
def Tree.definitions (t : Tree) : List Capture :=
  t.highlights.filter fun c => c.name == "type.definition"

namespace Capture

theorem Covers.isDefinition_iff {x : Node.Placed} {c : Capture} (h : Covers x c) :
    x.isDefinition = true ↔ (c.name == "type.definition") = true := by
  obtain ⟨p, at', matched, name⟩ := h.pattern
  have mem := List.mem_of_getElem? at'
  rw [beq_iff_eq, name]
  constructor
  · intro isDefinition
    rw [eq_of_isMatch mem Query.definition_mem matched isDefinition]
    rfl
  · intro isDefinition
    rw [Query.eq_definition p mem isDefinition] at matched
    exact matched

/-- The captures of definitions are those of the names of objects. -/
theorem covers_definitions (t : Tree) :
    List.Forall₂ Covers (t.root.all.filter Node.Placed.isDefinition) t.definitions := by
  have covers : List.Forall₂ Covers _ t.definitions :=
    List.rel_filter (fun x c covers => Covers.isDefinition_iff covers) (covers_flatMap t.root.all)
  have same : (t.root.all.filter Node.Placed.isMatched).filter Node.Placed.isDefinition =
      t.root.all.filter Node.Placed.isDefinition := by
    rw [List.filter_filter]
    refine List.filter_congr fun x _ => ?_
    cases isDefinition : x.isDefinition with
    | false => rfl
    | true => exact List.any_eq_true.mpr ⟨_, Query.definition_mem, isDefinition⟩
  rwa [same] at covers

end Capture

/-- The captures of definitions are the names of the items of the root: every item is an object with
one name, and there are no other objects. -/
structure Tree.DefinesItems (t : Tree) : Prop where
  ranges : t.definitions.map (fun c => (c.start, c.stop)) =
    ((t.root.inField .item).flatMap fun m => m.inField .name).map fun n =>
      (n.start.bytes, n.stop.bytes)
  named : ∀ m ∈ t.root.inField .item, m.kind = .rule .globalObject ∧
    ∃ n, m.inField .name = [n] ∧ n.kind = .token .identifier
  all : ∀ x ∈ t.root.all, x.node.kind = .rule .globalObject → x.node ∈ t.root.inField .item

namespace Tree

open Node

variable {text : Text} {t : Tree}

/-- Below a child of the root the names of objects are those of the child, if it is an item. -/
theorem IsWhole.definitions_walk (h : t.IsWhole text) (clean : t.syntaxErrors = []) {n : Node}
    (mem : n ∈ t.root.children) :
    ((n.walk 1 (some t.root.kind)).filter Placed.isDefinition).map Placed.node =
      if n.field == some .item then n.inField .name else [] := by
  have notHere : ¬Placed.isDefinition ⟨1, some t.root.kind, n⟩ = true := by
    rw [Placed.isDefinition_iff, (h.isWellShaped clean).kind]
    rintro ⟨-, -, ⟨⟩⟩
  have deep : ∀ x ∈ walkAll 2 (some n.kind) n.children, 2 < x.depth → x.isDefinition = false := by
    intro x below lt
    have placed : x ∈ t.root.all := by
      refine mem_all_of_mem_walk mem ?_
      rw [walk_eq]
      exact List.mem_cons_of_mem _ below
    rw [← Bool.not_eq_true, Placed.isDefinition_iff]
    rintro ⟨-, -, parent⟩
    exact absurd ((h.isLevel_of_mem_all clean x placed).inside parent) (Nat.ne_of_gt lt)
  have isItem := h.isItem_iff (h.isClean_iff_syntaxErrors.mpr clean) mem
  have grown := h.isGrown_root.of_mem_children n mem
  rw [walk_eq, List.filter_cons_of_neg notHere, filter_walkAll deep, grown.filter_isDefinition]
  simp only [beq_iff_eq, isItem]

theorem IsWhole.definitions_eq (h : t.IsWhole text) (clean : t.syntaxErrors = []) :
    (t.root.all.filter Placed.isDefinition).map Placed.node =
      (t.root.inField .item).flatMap fun m => m.inField .name := by
  have notRoot : ¬Placed.isDefinition ⟨0, none, t.root⟩ = true := by
    rw [Placed.isDefinition_iff]
    rintro ⟨-, -, ⟨⟩⟩
  rw [all, walk_eq, List.filter_cons_of_neg notRoot, walkAll_eq_flatMap, List.filter_flatMap,
    List.map_flatMap, List.flatMap_congr fun n mem => h.definitions_walk clean mem,
    Node.inField]
  induction t.root.children with
  | nil => rfl
  | cons n rest ih =>
    rw [List.flatMap_cons, ih, List.filter_cons]
    split <;> rfl

theorem IsWhole.definesItems (h : t.IsWhole text) (clean : t.syntaxErrors = []) :
    t.DefinesItems where
  ranges := by
    rw [Capture.map_range_eq (Capture.covers_definitions t), ← h.definitions_eq clean, List.map_map]
    rfl
  named m item := by
    obtain ⟨mem, field⟩ := List.mem_filter.mp item
    have isItem := h.isItem_iff (h.isClean_iff_syntaxErrors.mpr clean) mem
    have isObject := isItem.mp (beq_iff_eq.mp field)
    exact ⟨isObject, (h.isGrown_root.of_mem_children m mem).exists_name isObject⟩
  all x mem isObject := ((h.isLevel_of_mem_all clean x mem).object isObject).1

end Tree

/-- In a source without syntax errors, the captures of definitions are the names of the top-level
objects, and there are no other objects. -/
theorem definesItems_parse (source : List UInt8) (clean : (parse source).syntaxErrors = []) :
    (parse source).DefinesItems :=
  (isWhole_parse source).definesItems clean

/-- The module `m` and the constant `c`. -/
theorem definesItems_parse_two :
    (parse "module m\x7b\x7d\nconst int c\x7b\x7d".toUTF8.data.toList).syntaxErrors = [] ∧
      (parse "module m\x7b\x7d\nconst int c\x7b\x7d".toUTF8.data.toList).DefinesItems :=
  ⟨by decide +kernel, definesItems_parse _ (by decide +kernel)⟩

end SusSyntax
