import Mathlib.Data.List.Forall2
import SusSyntax.Highlight.Capture
import SusSyntax.Proofs.Tree.Shape
import SusSyntax.Proofs.Tree.Tiling

/-!
What the highlighting query captures.

No node is matched by two patterns, since patterns are for different symbols or for different places
(`Query.patterns_apart`), so the captures of a tree are those of the nodes that are matched, one for
each. Which nodes these are is seen from the symbols that the patterns are for, and from what can
stand in the places that they ask for (`Node.Placed.isHighlighted`). Since nodes begin one after the
other, so do captures (`highlightsTokens_parse`).
-/

namespace SusSyntax

open Grammar

/-! ### What patterns are for -/

namespace Pattern.Shape

/-- The symbols that a pattern is for. -/
def kinds : Shape → List Symbol
  | .anyOf spellings => spellings.map .token
  | .spelling t => [.token t]
  | .kind k | .inField _ _ k => [k]

/-- The place that a pattern asks for, if it does: a field of a node over a rule. -/
def place? : Shape → Option (Rule × Field)
  | .inField parent field _ => some (parent, field)
  | _ => none

theorem admits_iff {parent? : Option Symbol} {field? : Option Field} {k : Symbol} {s : Shape} :
    s.admits parent? field? k = true ↔
      k ∈ s.kinds ∧ ∀ r f, s.place? = some (r, f) → parent? = some (.rule r) ∧ field? = some f := by
  cases s with
  | anyOf spellings =>
    have : (spellings.any fun t => k == .token t) = true ↔ k ∈ spellings.map .token := by
      simp [eq_comm (a := k)]
    simpa [admits, kinds, place?] using this
  | spelling t => simp [admits, kinds, place?]
  | kind k' => simp [admits, kinds, place?]
  | inField parent field k' =>
    simp only [admits, kinds, place?, Bool.and_eq_true, beq_iff_eq, List.mem_singleton,
      Option.some.injEq, Prod.mk.injEq]
    constructor
    · rintro ⟨⟨rfl, rfl⟩, rfl⟩
      exact ⟨rfl, fun r f same => ⟨by rw [same.1], by rw [same.2]⟩⟩
    · rintro ⟨rfl, asked⟩
      obtain ⟨rfl, rfl⟩ := asked _ _ ⟨rfl, rfl⟩
      exact ⟨⟨rfl, rfl⟩, rfl⟩

/-- Whether two patterns are for different symbols, or ask for different places. -/
def isApart (a b : Shape) : Bool :=
  (a.kinds.all fun k => !b.kinds.contains k) || match a.place?, b.place? with
    | some p, some q => p != q
    | _, _ => false

theorem not_admits_of_isApart {parent? : Option Symbol} {field? : Option Field} {k : Symbol}
    {a b : Shape} (apart : a.isApart b = true) (h : a.admits parent? field? k = true) :
    b.admits parent? field? k = false := by
  rw [← Bool.not_eq_true]
  intro h'
  obtain ⟨mem, place⟩ := admits_iff.mp h
  obtain ⟨mem', place'⟩ := admits_iff.mp h'
  rcases Bool.or_eq_true_iff.mp apart with other | other
  · have := List.all_eq_true.mp other k mem
    rw [List.contains_iff_mem.mpr mem'] at this
    cases this
  · split at other
    · rename_i p q asked asked'
      obtain ⟨rule, field⟩ := place p.1 p.2 asked
      obtain ⟨rule', field'⟩ := place' q.1 q.2 asked'
      have same : p = q := by
        refine Prod.ext ?_ ?_
        · exact Symbol.rule.inj (Option.some.inj (rule.symm.trans rule'))
        · exact Option.some.inj (field.symm.trans field')
      rw [same, bne_self_eq_false] at other
      cases other
    · cases other

end Pattern.Shape

namespace Query

/-- No two patterns match the same node. -/
theorem patterns_apart : patterns.Pairwise fun p q => p.shape.isApart q.shape = true := by
  decide

/-- The places that the query asks for. -/
def places : List (Rule × Field) :=
  patterns.filterMap fun p => p.shape.place?

/-- Whether the query has a pattern for a symbol. -/
def knows (k : Symbol) : Bool :=
  patterns.any fun p => p.shape.kinds.contains k

/-- The symbols that the query asks for in certain places only. -/
def placedKinds : List Symbol :=
  [.token .identifier, .rule .templateGlobal]

/-- A pattern asks for a place if and only if it is for a symbol that is asked for in places only. -/
theorem isSome_place? : ∀ p ∈ patterns, ∀ k ∈ p.shape.kinds,
    p.shape.place?.isSome = placedKinds.contains k := by
  decide

/-- The query knows the tokens but names and line breaks, and one rule. -/
theorem knows_token : ∀ t ∈ Token.all, knows (.token t) =
    (t == .identifier || t == .number || t.isComment || !t.isNamed && t != .newline) := by
  decide

theorem knows_rule : ∀ r ∈ Rule.all, knows (.rule r) = (r == .templateGlobal) := by
  decide

/-- In the places that the query asks for it has a pattern for every symbol that can stand there, if
it asks for this symbol in places at all. -/
theorem exists_pattern_of_place : ∀ p ∈ places, ∀ c ∈ Phrase.childrenWithin 4 none p.1,
    c.2 = some p.2 → c.1 ∈ placedKinds →
      patterns.any (fun q => q.shape.admits (some (.rule p.1)) (some p.2) c.1) = true := by
  decide

end Query

/-! ### The captures of a node -/

/-- Whether a pattern of the query matches a node. -/
def Node.Placed.isMatched (x : Node.Placed) : Bool :=
  Query.patterns.any (Capture.isMatch x)

namespace Capture

/-- A capture is that of a node, by the pattern of the query that it names. -/
structure Covers (x : Node.Placed) (c : Capture) : Prop where
  start : c.start = x.node.start.bytes
  stop : c.stop = x.node.stop.bytes
  pattern : ∃ p, Query.patterns[c.pattern]? = some p ∧ isMatch x p = true ∧ c.name = p.name

variable {x : Node.Placed} {p : Pattern}

theorem filterMap_of_not_isMatch {i : Nat} {ps : List Pattern}
    (h : ∀ p ∈ ps, isMatch x p = false) :
    ((ps.zipIdx i).filterMap fun (p, i) =>
      if isMatch x p then some (Capture.mk p.name x.node.start.bytes x.node.stop.bytes i)
      else none) = [] := by
  refine List.filterMap_eq_nil_iff.mpr fun ⟨p, i⟩ mem => ?_
  exact if_neg (Bool.eq_false_iff.mp (h p (List.fst_mem_of_mem_zipIdx mem)))

/-- A pattern that matches a node is the only one. -/
theorem split_of_isMatch (mem : p ∈ Query.patterns) (h : isMatch x p = true) :
    ∃ front back, Query.patterns = front ++ p :: back ∧ (∀ q ∈ front, isMatch x q = false) ∧
      ∀ q ∈ back, isMatch x q = false := by
  obtain ⟨front, back, split⟩ := List.append_of_mem mem
  obtain ⟨-, behind, before⟩ := List.pairwise_append.mp (split ▸ Query.patterns_apart)
  refine ⟨front, back, split, fun q mem => ?_, fun q mem => ?_⟩
  · rw [← Bool.not_eq_true]
    intro h'
    have no := Pattern.Shape.not_admits_of_isApart (before q mem p List.mem_cons_self) h'
    exact Bool.eq_false_iff.mp no h
  · exact Pattern.Shape.not_admits_of_isApart (List.rel_of_pairwise_cons behind mem) h

theorem eq_of_isMatch {q : Pattern} (mem : p ∈ Query.patterns) (mem' : q ∈ Query.patterns)
    (h : isMatch x p = true) (h' : isMatch x q = true) : p = q := by
  obtain ⟨front, back, split, before, behind⟩ := split_of_isMatch mem h
  rw [split] at mem'
  rcases List.mem_append.mp mem' with early | later
  · exact absurd h' (Bool.eq_false_iff.mp (before q early))
  · rcases List.mem_cons.mp later with same | late
    · exact same.symm
    · exact absurd h' (Bool.eq_false_iff.mp (behind q late))

/-- A node that is matched has one capture. -/
theorem ofPlaced_of_isMatch (mem : p ∈ Query.patterns) (h : isMatch x p = true) :
    ∃ c, ofPlaced x = [c] ∧ Covers x c := by
  obtain ⟨front, back, split, before, behind⟩ := split_of_isMatch mem h
  refine ⟨⟨p.name, x.node.start.bytes, x.node.stop.bytes, front.length⟩, ?_, rfl, rfl, p, ?_, h, rfl⟩
  · rw [ofPlaced, split, List.zipIdx_append, List.filterMap_append,
      filterMap_of_not_isMatch before, List.zipIdx_cons, List.filterMap_cons,
      filterMap_of_not_isMatch behind, Nat.zero_add]
    simp [h]
  · rw [split]
    simp

/-- Of nodes one after the other, those that are matched are captured once each. -/
theorem covers_flatMap (xs : List Node.Placed) :
    List.Forall₂ Covers (xs.filter Node.Placed.isMatched) (xs.flatMap ofPlaced) := by
  induction xs with
  | nil => exact .nil
  | cons x xs ih =>
    rw [List.flatMap_cons]
    cases matched : x.isMatched with
    | true =>
      obtain ⟨p, mem, h⟩ := List.any_eq_true.mp matched
      obtain ⟨c, one, covers⟩ := ofPlaced_of_isMatch mem h
      rw [List.filter_cons_of_pos matched, one]
      exact .cons covers ih
    | false =>
      have none := fun p mem => Bool.eq_false_iff.mpr (List.any_eq_false.mp matched p mem)
      rw [List.filter_cons_of_neg (Bool.eq_false_iff.mp matched), ofPlaced,
        filterMap_of_not_isMatch none]
      exact ih

/-- Nodes and their captures begin and end at the same bytes. -/
theorem map_range_eq {xs : List Node.Placed} {cs : List Capture} (covers : List.Forall₂ Covers xs cs) :
    cs.map (fun c => (c.start, c.stop)) =
      xs.map fun x => (x.node.start.bytes, x.node.stop.bytes) := by
  induction covers with
  | nil => rfl
  | cons first _ ih => rw [List.map_cons, List.map_cons, ih, first.start, first.stop]

end Capture

/-! ### Which nodes are captured -/

namespace Node.Placed

/-- Whether a node stands in a place that the query asks for. -/
def isInPlace (x : Placed) : Bool :=
  Query.places.any fun (r, f) => x.parent? == some (.rule r) && x.node.field == some f

/-- Which nodes have a highlight: names and their paths in certain places, numbers, comments, and all
other tokens but line breaks. -/
def isHighlighted (x : Placed) : Bool :=
  match x.node.kind with
  | .token .identifier | .rule .templateGlobal => x.isInPlace
  | .token .number | .token .lineComment | .token .blockComment => true
  | k => !k.isNamed && x.node.children.isEmpty && k != .token .newline

variable {text : Text} {x : Placed}

theorem IsShown.isMatched_of_placed (shown : x.IsShown text)
    (placed : x.node.kind ∈ Query.placedKinds) :
    x.isMatched = x.isInPlace := by
  rw [Bool.eq_iff_iff]
  constructor
  · intro matched
    obtain ⟨p, mem, h⟩ := List.any_eq_true.mp matched
    obtain ⟨kind, place⟩ := Pattern.Shape.admits_iff.mp h
    have asks := Query.isSome_place? p mem _ kind
    rw [List.contains_iff_mem.mpr placed] at asks
    obtain ⟨⟨r, f⟩, asked⟩ := Option.isSome_iff_exists.mp asks
    obtain ⟨parent, field⟩ := place r f asked
    refine List.any_eq_true.mpr ⟨(r, f), List.mem_filterMap.mpr ⟨p, mem, asked⟩, ?_⟩
    simp [parent, field]
  · intro inPlace
    obtain ⟨⟨r, f⟩, mem, h⟩ := List.any_eq_true.mp inPlace
    simp only [Bool.and_eq_true, beq_iff_eq] at h
    obtain ⟨parent, field⟩ := h
    have found := Query.exists_pattern_of_place (r, f) mem _ (shown.mem_of_field parent field) rfl
      placed
    rw [← parent, ← field] at found
    exact found

theorem isMatched_of_not_placed (free : x.node.kind ∉ Query.placedKinds) :
    x.isMatched = Query.knows x.node.kind := by
  rw [Bool.eq_iff_iff]
  constructor
  · intro matched
    obtain ⟨p, mem, h⟩ := List.any_eq_true.mp matched
    have kind := (Pattern.Shape.admits_iff.mp h).1
    exact List.any_eq_true.mpr ⟨p, mem, List.contains_iff_mem.mpr kind⟩
  · intro knows
    obtain ⟨p, mem, kind⟩ := List.any_eq_true.mp knows
    have asks := Query.isSome_place? p mem _ (List.contains_iff_mem.mp kind)
    rw [← List.contains_iff_mem, Bool.not_eq_true] at free
    rw [free, Option.isSome_eq_false_iff, Option.isNone_iff_eq_none] at asks
    refine List.any_eq_true.mpr ⟨p, mem, Pattern.Shape.admits_iff.mpr
      ⟨List.contains_iff_mem.mp kind, fun r f asked => ?_⟩⟩
    rw [asks] at asked
    cases asked

theorem IsShown.isMatched_eq (shown : x.IsShown text) : x.isMatched = x.isHighlighted := by
  have visible := shown.grown.isVisible
  by_cases placed : x.node.kind ∈ Query.placedKinds
  · rw [shown.isMatched_of_placed placed, isHighlighted]
    simp only [Query.placedKinds, List.mem_cons, List.not_mem_nil, or_false] at placed
    rcases placed with kind | kind <;> rw [kind]
  · rw [isMatched_of_not_placed placed, isHighlighted]
    cases kind : x.node.kind with
    | token t =>
      rw [kind] at placed visible
      rw [shown.grown.children_of_token kind, Query.knows_token t t.mem_all]
      cases t <;> first | rfl | exact absurd (by decide) placed
    | rule r =>
      rw [kind] at placed visible
      rw [Query.knows_rule r r.mem_all]
      cases r <;> first | rfl | exact absurd (by decide) placed | cases visible
    | error =>
      have unknown : Query.knows .error = false := by decide
      rw [unknown]
      rfl
    | skipped =>
      rw [kind] at visible
      cases visible

end Node.Placed

/-! ### The order of nodes -/

/-- Nodes that begin between the bytes `a` and `b`, one after the other. -/
structure Node.Rises (a : Nat) (xs : List Placed) (b : Nat) : Prop where
  inside : ∀ x ∈ xs, a ≤ x.node.start.bytes ∧ x.node.start.bytes ≤ b
  ordered : xs.Pairwise fun x y => x.node.start.bytes ≤ y.node.start.bytes

namespace Node

variable {a b c d : Nat} {xs ys : List Placed}

theorem rises_nil (a b : Nat) : Rises a [] b :=
  ⟨fun _ mem => absurd mem List.not_mem_nil, .nil⟩

theorem Rises.cons {x : Placed} (h : Rises x.node.start.bytes xs b)
    (le : x.node.start.bytes ≤ b) : Rises x.node.start.bytes (x :: xs) b :=
  ⟨List.forall_mem_cons.mpr ⟨⟨Nat.le_refl _, le⟩, h.inside⟩,
    List.pairwise_cons.mpr ⟨fun y mem => (h.inside y mem).1, h.ordered⟩⟩

theorem Rises.append (h : Rises a xs b) (h' : Rises c ys d) (le : b ≤ c) (first : a ≤ c)
    (last : b ≤ d) : Rises a (xs ++ ys) d where
  inside := List.forall_mem_append.mpr
    ⟨fun x mem => ⟨(h.inside x mem).1, Nat.le_trans (h.inside x mem).2 last⟩,
      fun y mem => ⟨Nat.le_trans first (h'.inside y mem).1, (h'.inside y mem).2⟩⟩
  ordered := List.pairwise_append.mpr ⟨h.ordered, h'.ordered, fun x mem y mem' =>
    Nat.le_trans (h.inside x mem).2 (Nat.le_trans le (h'.inside y mem').1)⟩

end Node

namespace Tree

open Node

variable {text : Text}

/-- The node of a tree begins where its padding ends, and so do the nodes below, or behind. -/
theorem rises_toNode {t : Tree} {p : Extent} {field : Option Field} {depth : Nat}
    {parent? : Option Symbol}
    (below : Rises (p + t.padding).bytes
      (walkAll (depth + 1) (some (t.toNode field p).kind) (t.nodesBelow none p)) (p + t.extent).bytes) :
    Rises (p + t.padding).bytes ((t.toNode field p).walk depth parent?) (p + t.extent).bytes := by
  rw [← start_toNode t field] at below ⊢
  rw [← children_toNode t field] at below
  have le : (t.toNode field p).start.bytes ≤ (p + t.extent).bytes := by
    rw [start_toNode, extent, ← Extent.add_assoc]
    exact Nat.le_add_right ..
  rw [walk_eq]
  exact below.cons (x := ⟨depth, parent?, t.toNode field p⟩) le

mutual

theorem rises_nodesBelow (p : Extent) (field : Option Field) (depth : Nat)
    (parent? : Option Symbol) :
    ∀ {t : Tree}, t.Grown text p →
      Rises (p + t.padding).bytes (walkAll depth parent? (t.nodesBelow field p))
        (p + t.extent).bytes
  | .leaf .., _ => rises_nil ..
  | .node label extra measure children, h => by
    rw [h.extent_node]
    obtain ⟨rfl, _, grown⟩ := h
    exact rises_nodesOf p label.layout 0 field depth parent? grown

/-- The nodes of trees that follow one another begin one after the other. -/
theorem rises_nodesOf (p : Extent) (layout index : Nat) (above : Option Field) (depth : Nat)
    (parent? : Option Symbol) :
    ∀ {ts : List Tree}, GrownOf text p ts →
      Rises (p + firstPadding ts).bytes (walkAll depth parent? (nodesOf layout index above p ts))
        (p + extentOf ts).bytes
  | [], _ => rises_nil ..
  | t :: rest, h => by
    obtain ⟨grown, grownRest⟩ := h
    have later := rises_nodesOf (p + t.extent) layout (nextIndex index t) above depth parent?
      grownRest
    have first : Rises (p + t.padding).bytes
        (walkAll depth parent?
          (if t.isVisible then [t.toNode (fieldOf layout index above t) p]
            else t.nodesBelow (fieldOf layout index above t) p)) (p + t.extent).bytes := by
      split
      · rw [walkAll, walkAll, List.append_nil]
        exact rises_toNode (rises_nodesBelow p none (depth + 1) _ grown)
      · exact rises_nodesBelow p _ depth parent? grown
    rw [nodesOf, walkAll_append, extentOf_cons, ← Extent.add_assoc]
    refine first.append later (Nat.le_add_right ..) ?_ (Nat.le_add_right ..)
    simp only [extent, Extent.bytes_add]
    omega

end

end Tree

/-! ### The captures of a source -/

/-- The captures of a tree are those of the nodes that have a highlight, one for each, in the order
of the text. -/
structure Tree.HighlightsTokens (t : Tree) : Prop where
  captures : List.Forall₂ Capture.Covers (t.root.all.filter Node.Placed.isHighlighted) t.highlights
  ordered : t.highlights.Pairwise fun c d => c.start ≤ d.start

namespace Tree

variable {text : Text} {t : Tree}

theorem IsWhole.highlightsTokens (h : t.IsWhole text) : t.HighlightsTokens := by
  have covers := Capture.covers_flatMap t.root.all
  have starts : t.highlights.map Capture.start =
      (t.root.all.filter Node.Placed.isMatched).map (·.node.start.bytes) := by
    have ranges := congrArg (List.map Prod.fst) (Capture.map_range_eq covers)
    rw [List.map_map, List.map_map] at ranges
    exact ranges
  have rises : Node.Rises _ t.root.all _ :=
    rises_toNode (rises_nodesBelow .zero none 1 _ h.grown)
  refine ⟨?_, ?_⟩
  · rw [List.filter_congr fun x mem =>
      (h.isShown_of_mem_all x mem).isMatched_eq.symm]
    exact covers
  · rw [← List.pairwise_map (f := Capture.start) (R := (· ≤ ·)), starts, List.pairwise_map]
    exact rises.ordered.filter _

end Tree

/-- In every source all tokens but line breaks are highlighted, names and their paths where the query
asks for them, once each and in the order of the text. -/
theorem highlightsTokens_parse (source : List UInt8) : (parse source).HighlightsTokens :=
  (isWhole_parse source).highlightsTokens

end SusSyntax
