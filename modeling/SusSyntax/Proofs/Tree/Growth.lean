import SusSyntax.Proofs.Grammar.Reducible
import SusSyntax.Proofs.Lexical.Stretch

/-!
The trees that a parse can build over a text.

A tree has grown at a place of a text (`Tree.Grown`) if each of its leaves is a lexeme that can be
read where the leaf stands, or a token supposed there, if every inner node has the measure of its
children, and if the children of a rule lead from some state to one that reduces them to the rule.
This says all that the parser guarantees about a tree, whatever versions, merges and recoveries it
came from; what a tree shows is derived from it by induction on the tree.
-/

namespace SusSyntax

open Grammar Lexical

namespace Lexical.Lexeme

/-- What may be held as the lexeme behind the place `p`: what is read there in some state, or the
name that a keyword read there can be taken for. -/
def IsReadAt (text : Text) (p : Extent) (x : Lexeme) : Prop :=
  ∃ s, x = scan text s p ∨ (scan text s p).isKeyword = true ∧ x = (scan text s p).asIdentifier

variable {text : Text} {p : Extent} {x : Lexeme}

theorem isReadAt_scan (text : Text) (s : State) (p : Extent) : (scan text s p).IsReadAt text p :=
  ⟨s, .inl rfl⟩

theorem IsReadAt.asIdentifier (h : x.IsReadAt text p) (keyword : x.isKeyword = true) :
    x.asIdentifier.IsReadAt text p := by
  obtain ⟨s, rfl | ⟨keyword', rfl⟩⟩ := h
  · exact ⟨s, .inr ⟨keyword, rfl⟩⟩
  · exact ⟨s, .inr ⟨keyword', rfl⟩⟩

theorem IsReadAt.standsAt (h : x.IsReadAt text p) (place : text.IsPlace p) :
    x.StandsAt text p := by
  obtain ⟨s, rfl | ⟨_, rfl⟩⟩ := h
  · exact scan_standsAt s place
  · obtain ⟨before, gap, body, after, split, start, isGap, padding, size, _⟩ :=
      scan_standsAt s place
    exact ⟨before, gap, body, after, split, start, isGap, padding, size,
      fun ends => absurd ends (by simp [isEnd, Lexeme.asIdentifier])⟩

/-- What was read is a token or unreadable text. -/
theorem IsReadAt.leaf_cases (h : x.IsReadAt text p) :
    (∃ t, x.leaf = .read t) ∨ ∃ stuck, x.leaf = .unread stuck := by
  obtain ⟨s, rfl | ⟨_, rfl⟩⟩ := h
  · rw [scan]
    split
    · obtain ⟨t, leaf, _⟩ := readable_leaf ..
      exact .inl ⟨t, leaf⟩
    · dsimp only
      split
      · obtain ⟨t, leaf, _⟩ := readable_leaf ..
        exact .inl ⟨t, leaf⟩
      · exact .inr ⟨_, rfl⟩
  · exact .inl ⟨_, rfl⟩

theorem StandsAt.isPlace (h : x.StandsAt text p) : text.IsPlace (p + x.extent) := by
  obtain ⟨before, gap, body, after, split, rfl, _, padding, size, _⟩ := h
  refine ⟨before ++ (gap ++ body), after, by simp [split], ?_⟩
  rw [extent, padding, size]
  simp

/-- Behind the end of the text there is nothing. -/
theorem StandsAt.of_isEnd (h : x.StandsAt text p) (ends : x.isEnd = true) :
    p + x.extent = text.extent := by
  obtain ⟨before, gap, body, after, split, rfl, _, padding, size, atEnd⟩ := h
  obtain ⟨rfl, rfl⟩ := atEnd ends
  rw [extent, padding, size, split]
  simp

end Lexical.Lexeme

namespace Leaf

/-- The end of the text and comments stand outside the grammar. -/
def isOutside : Leaf → Bool
  | .read t => t == .eof || t.isComment
  | _ => false

end Leaf

namespace Tree

/-! ### The extent of trees that follow one another -/

/-- The extent of trees that follow one another, with their paddings. -/
def extentOf : List Tree → Extent
  | [] => .zero
  | t :: rest => t.extent + extentOf rest

@[simp] theorem extentOf_nil : extentOf [] = .zero := rfl

@[simp] theorem extentOf_cons (t : Tree) (rest : List Tree) :
    extentOf (t :: rest) = t.extent + extentOf rest := rfl

@[simp] theorem extentOf_append (ts us : List Tree) :
    extentOf (ts ++ us) = extentOf ts + extentOf us := by
  induction ts with
  | nil => simp
  | cons t ts ih => rw [List.cons_append, extentOf_cons, ih, extentOf_cons, Extent.add_assoc]

theorem foldl_extent (e : Extent) (ts : List Tree) :
    ts.foldl (fun e u => e + u.extent) e = e + extentOf ts := by
  induction ts generalizing e with
  | nil => simp
  | cons t ts ih => rw [List.foldl_cons, ih, extentOf_cons, Extent.add_assoc]

/-- A node takes up what its children take up. -/
theorem padding_add_size_measureOf (label : Label) (children : List Tree) :
    (measureOf label children).padding + (measureOf label children).size = extentOf children := by
  cases children with
  | nil => rfl
  | cons t rest =>
    change t.padding + rest.foldl (fun e u => e + u.extent) t.size = _
    rw [foldl_extent, ← Extent.add_assoc]
    rfl

@[simp] theorem extent_ofChildren (label : Label) (children : List Tree) :
    (ofChildren label children).extent = extentOf children :=
  padding_add_size_measureOf label children

@[simp] theorem isExtra_ofChildren (label : Label) (children : List Tree) :
    (ofChildren label children).isExtra = false := rfl

@[simp] theorem extent_withExtra (t : Tree) (extra : Bool) :
    (t.withExtra extra).extent = t.extent := by
  cases t <;> rfl

@[simp] theorem symbol_withExtra (t : Tree) (extra : Bool) :
    (t.withExtra extra).symbol = t.symbol := by
  cases t <;> rfl

@[simp] theorem isExtra_withExtra (t : Tree) (extra : Bool) :
    (t.withExtra extra).isExtra = extra := by
  cases t <;> rfl

/-! ### The states along trees -/

/-- The state behind a tree: extras leave it as it is. -/
def stateBehind (s : State) (t : Tree) : State :=
  if t.isExtra then s else s.next t.symbol

/-- The state behind trees that follow one another. -/
def follow (s : State) (ts : List Tree) : State :=
  ts.foldl stateBehind s

/-- The trees that are no extras. -/
def insiders (ts : List Tree) : List Tree :=
  ts.filter fun t => !t.isExtra

@[simp] theorem follow_nil (s : State) : follow s [] = s := rfl

@[simp] theorem follow_cons (s : State) (t : Tree) (ts : List Tree) :
    follow s (t :: ts) = follow (stateBehind s t) ts := rfl

@[simp] theorem follow_append (s : State) (ts us : List Tree) :
    follow s (ts ++ us) = follow (follow s ts) us :=
  List.foldl_append

theorem stateBehind_of_extra (s : State) {t : Tree} (h : t.isExtra = true) :
    stateBehind s t = s :=
  if_pos h

theorem stateBehind_of_not_extra (s : State) {t : Tree} (h : t.isExtra = false) :
    stateBehind s t = s.next t.symbol := by
  rw [stateBehind, h, if_neg Bool.false_ne_true]

@[simp] theorem stateBehind_errorState (t : Tree) : stateBehind errorState t = errorState := by
  simp [stateBehind]

/-- Nothing leads out of the error state. -/
@[simp] theorem follow_errorState (ts : List Tree) : follow errorState ts = errorState := by
  induction ts with
  | nil => rfl
  | cons t ts ih => simpa using ih

theorem follow_of_extras (s : State) {ts : List Tree} (h : ∀ t ∈ ts, t.isExtra = true) :
    follow s ts = s := by
  induction ts with
  | nil => rfl
  | cons t ts ih =>
    rw [follow_cons, stateBehind_of_extra s (h t List.mem_cons_self)]
    exact ih fun u mem => h u (List.mem_cons_of_mem _ mem)

@[simp] theorem insiders_append (ts us : List Tree) :
    insiders (ts ++ us) = insiders ts ++ insiders us :=
  List.filter_append ..

theorem insiders_of_extras {ts : List Tree} (h : ∀ t ∈ ts, t.isExtra = true) :
    insiders ts = [] := by
  rw [insiders, List.filter_eq_nil_iff]
  intro t mem
  simp [h t mem]

theorem insiders_cons_of_extra {t : Tree} (h : t.isExtra = true) (ts : List Tree) :
    insiders (t :: ts) = insiders ts := by
  simp [insiders, h]

theorem insiders_cons_of_not_extra {t : Tree} (h : t.isExtra = false) (ts : List Tree) :
    insiders (t :: ts) = t :: insiders ts := by
  simp [insiders, h]

/-- What is split off at the end are extras. -/
theorem isExtra_of_mem_trailing {ts : List Tree} {t : Tree}
    (h : t ∈ (splitTrailingExtras ts).2) : t.isExtra = true := by
  rw [splitTrailingExtras, List.mem_reverse] at h
  exact List.all_eq_true.mp List.all_takeWhile t h

theorem follow_splitTrailingExtras (s : State) (ts : List Tree) :
    follow s (splitTrailingExtras ts).1 = follow s ts := by
  conv => rhs; rw [← append_splitTrailingExtras ts, follow_append]
  rw [follow_of_extras _ fun t => isExtra_of_mem_trailing]

/-- What is left when the extras at the end are split off does not end in an extra. -/
theorem isExtra_of_getLast?_front {ts : List Tree} {t : Tree}
    (h : (splitTrailingExtras ts).1.getLast? = some t) : t.isExtra = false := by
  rw [splitTrailingExtras, List.getLast?_reverse] at h
  have := List.head?_dropWhile_not isExtra ts.reverse
  rw [h] at this
  simpa using this

theorem insiders_splitTrailingExtras (ts : List Tree) :
    insiders (splitTrailingExtras ts).1 = insiders ts := by
  conv => rhs; rw [← append_splitTrailingExtras ts, insiders_append]
  rw [insiders_of_extras fun t => isExtra_of_mem_trailing, List.append_nil]

/-- No symbol but a comment leads to the state that a parse begins in, so only extras lie before
the start symbol. -/
theorem extras_of_follow_startState {s : State} {ts : List Tree}
    (inside : ∀ t ∈ ts, t.isExtra = false → ∀ u, t.symbol = .token u → u.isComment = false)
    (h : follow s ts = startState) : s = startState ∧ ∀ t ∈ ts, t.isExtra = true := by
  induction ts generalizing s with
  | nil => exact ⟨h, fun t mem => absurd mem (List.not_mem_nil)⟩
  | cons t ts ih =>
    obtain ⟨start, extras⟩ := ih (fun u mem => inside u (List.mem_cons_of_mem _ mem)) h
    rw [stateBehind] at start
    split at start
    · rename_i extra
      refine ⟨start, fun u mem => ?_⟩
      rcases List.mem_cons.mp mem with rfl | mem
      · exact extra
      · exact extras u mem
    · rename_i notExtra
      exact absurd start (State.next_ne_startState
        (inside t List.mem_cons_self (by simpa using notExtra)))

/-! ### Growth -/

/-- A leaf that was read at the place `p`, or is supposed to stand there; or the whole text, where
no reading of it came to an end. -/
inductive IsGrownLeaf (text : Text) (p : Extent) : Leaf → Extent → Extent → Bool → Prop where
  | read {x : Lexeme} :
      x.IsReadAt text p → IsGrownLeaf text p x.leaf x.padding x.size x.leaf.isOutside
  | missing {t : Token} :
      t ≠ .eof → t.isComment = false → IsGrownLeaf text p (.missing t) .zero .zero false
  | whole {stuck : Option Glyph} :
      p = .zero → IsGrownLeaf text p (.unread stuck) .zero text.extent false

/-- Trees with no extras before the first and behind the last of those that are none. -/
structure AreTrim (ts : List Tree) : Prop where
  first : ∀ t ∈ ts.head?, t.isExtra = false
  last : ∀ t ∈ ts.getLast?, t.isExtra = false

/-- Whether a label may stand over these children. Those of a rule lead from some state to one that
reduces them to it before some token, and a hidden rule has no extras around them; an error that is
an extra holds something that is none. -/
def Joins (extra : Bool) (children : List Tree) : Label → Prop
  | .rule r layout => (extra = false ∧ (r.isHidden = true → AreTrim children)) ∧ ∃ s t,
      .reduce r (insiders children).length layout ∈ ((follow s children).row.entry t).actions
  | .error => children ≠ [] ∧ (extra = true → ∃ t ∈ children, t.isExtra = false)
  | .skipped => extra = false

mutual

/-- A tree that a parse of `text` can build at the place `p`. -/
def Grown (text : Text) (p : Extent) : Tree → Prop
  | .leaf content padding size extra => IsGrownLeaf text p content padding size extra
  | .node label extra measure children =>
    measure = measureOf label children ∧ Joins extra children label ∧ GrownOf text p children

/-- Trees that follow one another from the place `p`. -/
def GrownOf (text : Text) (p : Extent) : List Tree → Prop
  | [] => True
  | t :: rest => t.Grown text p ∧ GrownOf text (p + t.extent) rest

end

variable {text : Text} {p : Extent}

@[simp] theorem grownOf_nil : GrownOf text p [] := trivial

theorem grownOf_cons {t : Tree} {ts : List Tree} :
    GrownOf text p (t :: ts) ↔ t.Grown text p ∧ GrownOf text (p + t.extent) ts :=
  Iff.rfl

theorem grownOf_append {ts us : List Tree} :
    GrownOf text p (ts ++ us) ↔ GrownOf text p ts ∧ GrownOf text (p + extentOf ts) us := by
  induction ts generalizing p with
  | nil => simp
  | cons t ts ih =>
    rw [List.cons_append, grownOf_cons, grownOf_cons, ih, extentOf_cons, Extent.add_assoc,
      and_assoc]

theorem grownOf_singleton {t : Tree} : GrownOf text p [t] ↔ t.Grown text p := by
  simp [grownOf_cons]

/-- Each of several trees has grown somewhere. -/
theorem GrownOf.exists_grown {ts : List Tree} (h : GrownOf text p ts) {t : Tree} (mem : t ∈ ts) :
    ∃ q, t.Grown text q := by
  obtain ⟨before, after, rfl⟩ := List.append_of_mem mem
  exact ⟨_, (grownOf_cons.mp (grownOf_append.mp h).2).1⟩

theorem grown_ofChildren {label : Label} {children : List Tree}
    (joins : Joins false children label) (h : GrownOf text p children) :
    (ofChildren label children).Grown text p :=
  ⟨rfl, joins, h⟩

/-- An error may be an extra. -/
theorem grown_error {children : List Tree} {t : Tree} (mem : t ∈ children)
    (inside : t.isExtra = false) (h : GrownOf text p children) (extra : Bool) :
    ((ofChildren .error children).withExtra extra).Grown text p :=
  ⟨rfl, ⟨List.ne_nil_of_mem mem, fun _ => ⟨t, mem, inside⟩⟩, h⟩

/-- What was read has grown where it was read, as an extra if it stands outside the grammar. -/
theorem grown_toTree {x : Lexeme} (isRead : x.IsReadAt text p) {extra : Bool}
    (outside : x.leaf.isOutside = extra) : (x.toTree.withExtra extra).Grown text p := by
  subst outside
  exact .read isRead

/-- Text that could not be read is no extra. -/
theorem isExtra_of_grown_leaf {content : Leaf} {padding size : Extent} {extra : Bool}
    (h : (Tree.leaf content padding size extra).Grown text p) (isError : content.symbol = .error) :
    extra = false := by
  cases h with
  | missing => cases isError
  | whole => rfl
  | @read x isRead =>
    rcases isRead.leaf_cases with ⟨t, leaf⟩ | ⟨stuck, leaf⟩
    · rw [leaf] at isError
      cases isError
    · rw [leaf]
      rfl

theorem Grown.children {t : Tree} (h : t.Grown text p) : GrownOf text p t.children := by
  cases t with
  | leaf => exact trivial
  | node => exact h.2.2

/-- A tree takes up what its children take up. -/
theorem Grown.extent_node {label : Label} {extra : Bool} {measure : Measure}
    {children : List Tree} (h : (Tree.node label extra measure children).Grown text p) :
    (Tree.node label extra measure children).extent = extentOf children := by
  obtain ⟨rfl, _⟩ := h
  exact padding_add_size_measureOf label children

/-- A comment is never inside the grammar. -/
theorem Grown.isComment_eq_false {t : Tree} (h : t.Grown text p) (inside : t.isExtra = false)
    {u : Token} (isToken : t.symbol = .token u) : u.isComment = false := by
  cases t with
  | node label extra measure children => cases label <;> cases isToken
  | leaf content padding size extra =>
    cases h with
    | missing _ notComment =>
      obtain rfl := Symbol.token.inj isToken
      exact notComment
    | whole => cases isToken
    | @read x isRead =>
      change x.leaf.symbol = _ at isToken
      change x.leaf.isOutside = false at inside
      rcases isRead.leaf_cases with ⟨v, leaf⟩ | ⟨stuck, leaf⟩
      · rw [leaf] at isToken inside
        obtain rfl := Symbol.token.inj isToken
        exact (Bool.or_eq_false_iff.mp inside).2
      · rw [leaf] at isToken
        cases isToken

/-- The state behind trees is found along the symbols of those that are no extras. -/
theorem follow_eq_through (s : State) (ts : List Tree) :
    follow s ts = s.through ((insiders ts).map symbol) := by
  induction ts generalizing s with
  | nil => rfl
  | cons t ts ih =>
    by_cases extra : t.isExtra = true
    · rw [follow_cons, stateBehind_of_extra s extra, insiders_cons_of_extra extra, ih]
    · rw [Bool.not_eq_true] at extra
      rw [follow_cons, stateBehind_of_not_extra s extra, insiders_cons_of_not_extra extra, ih]
      rfl

/-- No comment is among the symbols inside the grammar. -/
theorem GrownOf.noComment {ts : List Tree} (h : GrownOf text p ts) :
    ∀ u, .token u ∈ (insiders ts).map symbol → u.isComment = false := by
  intro u mem
  obtain ⟨t, mem, same⟩ := List.mem_map.mp mem
  obtain ⟨mem, inside⟩ := List.mem_filter.mp mem
  obtain ⟨_, grown⟩ := h.exists_grown mem
  exact grown.isComment_eq_false (by simpa using inside) same

/-! ### Costs -/

@[simp] theorem sumOver_append (f : Tree → Nat) (ts us : List Tree) :
    sumOver f (ts ++ us) = sumOver f ts + sumOver f us := by
  induction ts with
  | nil => exact (Nat.zero_add _).symm
  | cons t ts ih => rw [List.cons_append, sumOver, ih, sumOver, Nat.add_assoc]

theorem sumOver_congr {f g : Tree → Nat} {ts : List Tree} (h : ∀ t ∈ ts, f t = g t) :
    sumOver f ts = sumOver g ts := by
  induction ts with
  | nil => rfl
  | cons t ts ih =>
    obtain ⟨first, rest⟩ := List.forall_mem_cons.mp h
    rw [sumOver, sumOver, first, ih rest]

theorem eq_zero_of_sumOver {f : Tree → Nat} {ts : List Tree} (h : sumOver f ts = 0) :
    ∀ t ∈ ts, f t = 0 := by
  induction ts with
  | nil => exact fun _ mem => absurd mem List.not_mem_nil
  | cons t ts ih =>
    obtain ⟨first, rest⟩ := Nat.add_eq_zero_iff.mp h
    exact List.forall_mem_cons.mpr ⟨first, ih rest⟩

/-- What is erroneous and no extra leads to the error state. -/
theorem follow_of_isErroneous {s : State} {t : Tree} {ts : List Tree} (mem : t ∈ ts)
    (inside : t.isExtra = false) (erroneous : t.symbol.isErroneous = true) :
    follow s ts = errorState := by
  obtain ⟨before, after, rfl⟩ := List.append_of_mem mem
  have next : ∀ s : State, stateBehind s t = errorState := by
    intro s
    rw [stateBehind_of_not_extra s inside]
    cases same : t.symbol with
    | token | rule => rw [same] at erroneous; cases erroneous
    | error | skipped => rfl
  rw [follow_append, follow_cons, next, follow_errorState]

/-- The children of a rule that are no extras stand for no errors. -/
theorem not_isErroneous_of_joins {extra : Bool} {children : List Tree} {r : Rule} {layout : Nat}
    (joins : Joins extra children (.rule r layout)) {t : Tree} (mem : t ∈ children)
    (inside : t.isExtra = false) : t.symbol.isErroneous = false := by
  obtain ⟨_, s, u, reduces⟩ := joins
  rw [← Bool.not_eq_true]
  intro erroneous
  exact State.ne_errorState_of_reduce reduces (follow_of_isErroneous mem inside erroneous)

/-- An error has a cost. -/
theorem cost_ofChildren_error (children : List Tree) : costOf .error children ≠ 0 := by
  simp only [costOf, Label.symbol, Symbol.isErroneous, if_true, Cost.recovery]
  omega

/-- Text that is left out has a cost. -/
theorem cost_ofChildren_skipped (children : List Tree) : costOf .skipped children ≠ 0 := by
  simp only [costOf, Label.symbol, Symbol.isErroneous, if_true, Cost.recovery]
  omega

/-- An extra that stands for an error has a cost. -/
theorem Grown.cost_of_isExtra {t : Tree} (h : t.Grown text p) (extra : t.isExtra = true)
    (erroneous : t.symbol.isErroneous = true) : t.symbol = .error ∧ t.cost ≠ 0 := by
  cases t with
  | leaf content padding size isExtra =>
    have same : content.symbol = .error := by
      cases content <;> first | rfl | cases erroneous
    have none := isExtra_of_grown_leaf h same
    rw [show isExtra = true from extra] at none
    cases none
  | node label isExtra measure children =>
    obtain ⟨rfl, joins, _⟩ := h
    cases label with
    | rule => cases erroneous
    | error => exact ⟨rfl, cost_ofChildren_error children⟩
    | skipped =>
      rw [show isExtra = true from extra] at joins
      cases joins

/-- In a rule no text is gathered as skipped. -/
theorem GrownOf.ne_skipped {extra : Bool} {children : List Tree} {r : Rule} {layout : Nat}
    (h : GrownOf text p children) (joins : Joins extra children (.rule r layout)) :
    ∀ t ∈ children, t.symbol ≠ .skipped := by
  intro t mem skipped
  have erroneous : t.symbol.isErroneous = true := by rw [skipped]; rfl
  by_cases extra : t.isExtra = true
  · obtain ⟨_, grown⟩ := h.exists_grown mem
    rw [(grown.cost_of_isExtra extra erroneous).1] at skipped
    cases skipped
  · rw [not_isErroneous_of_joins joins mem (by simpa using extra)] at erroneous
    cases erroneous

/-- A rule costs what its children cost. -/
theorem GrownOf.cost_rule {extra : Bool} {children : List Tree} {r : Rule} {layout : Nat}
    (h : GrownOf text p children) (joins : Joins extra children (.rule r layout)) :
    (ofChildren (.rule r layout) children).cost = sumOver cost children := by
  change sumOver (fun t => if t.symbol = .skipped then 0 else t.cost) children = _
  exact sumOver_congr fun t mem => if_neg (h.ne_skipped joins t mem)

mutual

/-- Behind a tree there is a place of the text. -/
theorem Grown.isPlace {p : Extent} (place : text.IsPlace p) :
    ∀ {t : Tree}, t.Grown text p → text.IsPlace (p + t.extent)
  | .leaf .., h => by
    cases h with
    | read isRead => exact (isRead.standsAt place).isPlace
    | missing => simpa [extent, padding, size] using place
    | whole atStart =>
      rw [atStart, Extent.zero_add, extent, padding, size, Extent.zero_add]
      exact ⟨text, [], (List.append_nil text).symm, rfl⟩
  | .node .., h => by
    rw [h.extent_node]
    exact GrownOf.isPlace place h.2.2

theorem GrownOf.isPlace {p : Extent} (place : text.IsPlace p) :
    ∀ {ts : List Tree}, GrownOf text p ts → text.IsPlace (p + extentOf ts)
  | [], _ => by simpa using place
  | t :: ts, h => by
    rw [extentOf_cons, ← Extent.add_assoc]
    exact GrownOf.isPlace (Grown.isPlace place h.1) h.2

end

end Tree

end SusSyntax
