import SusSyntax.Proofs.Lexical.BlockComment
import SusSyntax.Proofs.Text.Ascii
import SusSyntax.Proofs.Tree.Shape
import SusSyntax.Proofs.Tree.Tiling

/-!
Comments that are opened in a text without errors.

The leaves of such a text are spelled in it (`Node.IsGrown.isSpelled`), and all bytes but filler lie in
them. So a slash with a star behind it, outside comments, begins a leaf, and the rest of the text
decides which one: a comment if one is closed further on, and otherwise the operator of division.
Nothing reports the latter: the star behind it is an operator too, and both can be read
(`readsComments_parse`).
-/

namespace SusSyntax

open Grammar Lexical

namespace Text

/-- At the byte number `i` of a source there is a slash with a star behind it. -/
def Opens (source : List UInt8) (i : Nat) : Prop :=
  source[i]? = some 0x2F ∧ source[i + 1]? = some 0x2A

/-- At the byte number `i` of a source or behind it there is a star with a slash behind it. -/
def ClosesBehind (source : List UInt8) (i : Nat) : Prop :=
  ∃ j, i ≤ j ∧ source[j]? = some 0x2A ∧ source[j + 1]? = some 0x2F

theorem closes_iff (before : Text) {rest : Text} (keeps : rest.KeepsAscii) :
    Closes rest ↔ ClosesBehind (before ++ rest).bytes before.extent.bytes := by
  constructor
  · rintro ⟨u, v, rfl⟩
    refine ⟨before.extent.bytes + (extent u).bytes, Nat.le_add_right .., ?_, ?_⟩
    · rw [getElem?_bytes_append, List.append_assoc]
      exact getElem?_bytes_append u _ 0
    · rw [Nat.add_assoc, getElem?_bytes_append, List.append_assoc]
      exact getElem?_bytes_append u _ 1
  · rintro ⟨j, le, isStar, isSlash⟩
    obtain ⟨k, rfl⟩ := Nat.exists_eq_add_of_le le
    rw [Nat.add_assoc] at isSlash
    rw [getElem?_bytes_append] at isStar isSlash
    obtain ⟨u, v, rfl, rfl⟩ := exists_char_at keeps isStar (by decide)
    obtain ⟨_, keeps⟩ := keepsAscii_append.mp keeps
    obtain ⟨_, keeps⟩ := keepsAscii_cons.mp keeps
    rw [getElem?_bytes_append] at isSlash
    obtain ⟨w, rfl⟩ := exists_char_ahead keeps (b := 0x2F) isSlash (by decide)
    exact ⟨u, w, List.append_assoc ..⟩

end Text

namespace Lexical

/-- What may be held as a token is spelled in the text, but for identifiers that are taken for the
keywords they spell. -/
theorem Lexeme.IsReadAt.spells {text : Text} {p : Extent} {x : Lexeme} {u : Token}
    (h : x.IsReadAt text p) (place : text.IsPlace p) (leaf : x.leaf = .read u) :
    ∃ t, Spells text (p + x.padding) (p + x.extent) t ∧
      (u = t ∨ t = .identifier ∧ SpellsKeyword text (p + x.padding) (p + x.extent) u) := by
  obtain ⟨s, rfl | ⟨keyword, rfl⟩⟩ := h
  · obtain ⟨t, spells, known, _⟩ := spells_scan place leaf
    exact ⟨t, spells, known⟩
  · obtain rfl := Leaf.read.inj leaf
    obtain ⟨v, read⟩ : ∃ v, (scan text s p).leaf = .read v := by
      rcases scan_cases text s p rfl with ⟨_, t, e, _, _, same⟩ | ⟨_, _, same⟩
      · obtain ⟨v, read, _⟩ := readable_leaf ..
        exact ⟨v, same ▸ read⟩
      · rw [same] at keyword
        cases keyword
    obtain ⟨t, spells, _, isName⟩ := spells_scan place read
    obtain rfl := isName keyword
    exact ⟨.identifier, spells, .inl rfl⟩

namespace Spells

variable {text : Text} {start stop : Extent} {t : Token}

/-- A character of one byte inside a token. -/
theorem exists_char (h : Spells text start stop t) (notEnd : t ≠ .eof) (keeps : text.KeepsAscii)
    {i : Nat} {b : UInt8} (inside : start.bytes ≤ i ∧ i < stop.bytes)
    (found : text.bytes[i]? = some b) (low : b < 0x80) :
    ∃ (before u v after : Text) (mode : LexMode),
      text = before ++ (u ++ .char b.toNat :: (v ++ after)) ∧ start = before.extent ∧
      i = before.extent.bytes + u.extent.bytes ∧
      stop.bytes = i + 1 + v.extent.bytes ∧
      (tokenRun mode ⟨before.extent, u ++ .char b.toNat :: (v ++ after)⟩).token? = some t ∧
      IsSpelling mode t (u ++ .char b.toNat :: v) := by
  obtain ⟨rfl, rfl, rfl, accepted, spelled⟩ := h
  rename_i before body after mode
  obtain ⟨k, rfl⟩ := Nat.exists_eq_add_of_le inside.1
  obtain ⟨keepsBody, _⟩ := Text.keepsAscii_append.mp (Text.keepsAscii_append.mp keeps).2
  have short : k < body.bytes.length := by
    have := inside.2
    simp [Text.length_bytes] at this ⊢
    omega
  rw [Text.getElem?_bytes_append, Text.bytes_append, List.getElem?_append_left short] at found
  obtain ⟨u, v, rfl, rfl⟩ := Text.exists_char_at keepsBody found low
  have small : b.toNat < 0x80 := UInt8.lt_iff_toNat_lt.mp low
  have same : u ++ .char b.toNat :: v ++ after = u ++ .char b.toNat :: (v ++ after) := by simp
  refine ⟨before, u, v, after, mode, by rw [same], rfl, rfl, ?_, ?_, spelled.resolve_left notEnd⟩
  · simp [Glyph.width, small]
    omega
  · rw [← same, Run.token?, accepted]
    rfl

/-- No token holds the byte zero. -/
theorem ne_zero (h : Spells text start stop t) (notEnd : t ≠ .eof) (keeps : text.KeepsAscii)
    {i : Nat} (inside : start.bytes ≤ i ∧ i < stop.bytes) : text.bytes[i]? ≠ some 0 := by
  intro found
  obtain ⟨_, u, v, _, _, _, _, _, _, _, spelled⟩ :=
    h.exists_char notEnd keeps inside found (by decide)
  exact spelled.nul_not_mem (by simp [nul])

/-- A token around a place where a comment may be opened is a comment that was opened before, or
begins there. It is a comment if one is closed behind, and otherwise a slash. -/
theorem of_opens (h : Spells text start stop t) (notEnd : t ≠ .eof) (keeps : text.KeepsAscii)
    (free : nul ∉ text) {i : Nat} (inside : start.bytes ≤ i ∧ i < stop.bytes)
    (opens : Text.Opens text.bytes i) :
    start.bytes < i ∧ t.isComment = true ∨ start.bytes = i ∧
      (Text.ClosesBehind text.bytes (i + 2) ∧ t = .blockComment ∨
        ¬Text.ClosesBehind text.bytes (i + 2) ∧ t = .slash ∧ stop.bytes = i + 1) := by
  obtain ⟨before, u, v, after, mode, split, rfl, same, ends, run, spelled⟩ :=
    h.exists_char notEnd keeps inside opens.1 (by decide)
  cases u with
  | cons g u =>
    refine .inl ⟨?_, spelled.isComment_of_slash_mem ?_⟩
    · have := g.width_pos
      simp at same
      omega
    · exact List.mem_append_right u List.mem_cons_self
  | nil =>
    obtain rfl : i = before.extent.bytes := same
    obtain ⟨rest, ahead⟩ : ∃ rest, v ++ after = star :: rest := by
      obtain ⟨_, isStar⟩ := opens
      rw [split, Text.getElem?_bytes_append] at isStar
      rw [split] at keeps
      obtain ⟨_, keeps⟩ := Text.keepsAscii_append.mp keeps
      obtain ⟨_, keeps⟩ := Text.keepsAscii_cons.mp keeps
      exact Text.exists_char_ahead keeps isStar (by decide)
    have whole : text = (before ++ [slash, star]) ++ rest := by
      rw [split, ahead, List.append_assoc]
      rfl
    have closes : Closes rest ↔ Text.ClosesBehind text.bytes (before.extent.bytes + 2) := by
      rw [whole] at keeps ⊢
      rw [Text.closes_iff (before ++ [slash, star]) (Text.keepsAscii_append.mp keeps).2,
        Text.extent_append]
      rfl
    have freeRest : nul ∉ rest := fun mem => free (by rw [whole]; exact List.mem_append_right _ mem)
    rw [ahead] at run
    have run := (tokenRun_opening mode before.extent freeRest).symm.trans run
    refine .inr ⟨rfl, ?_⟩
    rw [← closes]
    by_cases closed : Closes rest
    · rw [if_pos closed] at run
      exact .inl ⟨closed, (Option.some.inj run).symm⟩
    · rw [if_neg closed] at run
      split at run
      · cases run
      · obtain rfl := (Option.some.inj run).symm
        obtain rfl : v = [] := (List.cons.inj spelled.eq_slash).2
        exact .inr ⟨closed, rfl, ends⟩

/-- A star that begins a token is the token. -/
theorem of_star (h : Spells text start stop t) (notEnd : t ≠ .eof) (keeps : text.KeepsAscii)
    (found : text.bytes[start.bytes]? = some 0x2A) (notEmpty : start.bytes < stop.bytes) :
    t = .star := by
  obtain ⟨before, u, v, after, mode, _, rfl, same, _, run, _⟩ :=
    h.exists_char notEnd keeps ⟨Nat.le_refl _, notEmpty⟩ found (by decide)
  obtain rfl : u = [] := Text.eq_nil_of_bytes_eq_zero (by omega)
  exact (Option.some.inj ((tokenRun_star mode _ _).symm.trans run)).symm

/-- What is spelled by one character only. -/
theorem of_singleton {b : UInt8} (h : Spells text start stop t) (notEnd : t ≠ .eof)
    (single : ∀ mode body, IsSpelling mode t body → body = [.char b.toNat]) (low : b < 0x80) :
    text.bytes[start.bytes]? = some b ∧ stop.bytes = start.bytes + 1 := by
  obtain ⟨rfl, rfl, rfl, _, spelled⟩ := h
  obtain rfl := single _ _ (spelled.resolve_left notEnd)
  have small : b.toNat < 0x80 := UInt8.lt_iff_toNat_lt.mp low
  constructor
  · rw [← Nat.add_zero (Extent.bytes _), Text.getElem?_bytes_append]
    simp [Glyph.bytes, small]
  · simp [Glyph.width, small]

end Spells

end Lexical

/-! ### The leaves of a tree without errors -/

namespace Node

variable {text : Text} {n : Node} {u : Token}

/-- A leaf over a token that is spelled in the text. -/
inductive IsSpelled (text : Text) (n : Node) (u : Token) : Prop where
  | intro {t : Token} :
      n.kind = .token u → t ≠ .eof → Spells text n.start n.stop t →
      u = t ∨ t = .identifier ∧ u ∈ Token.keywords → IsSpelled text n u

theorem IsSpelled.kind (h : n.IsSpelled text u) : n.kind = .token u := by
  obtain ⟨kind, _⟩ := h
  exact kind

/-- A token that no identifier is taken for is spelled as itself. -/
theorem IsSpelled.spells (h : n.IsSpelled text u) (plain : u ∉ Token.keywords) :
    u ≠ .eof ∧ Spells text n.start n.stop u := by
  obtain ⟨_, notEnd, spells, rfl | ⟨_, keyword⟩⟩ := h
  · exact ⟨notEnd, spells⟩
  · exact absurd keyword plain

/-- A leaf over a token is spelled, or the keyword that it spells, unless the token is missing. -/
theorem IsGrown.exists_spells (h : n.IsGrown text) (kind : n.kind = .token u)
    (there : n.isMissing = false) : ∃ t, t ≠ .eof ∧ Spells text n.start n.stop t ∧
      (u = t ∨ t = .identifier ∧ SpellsKeyword text n.start n.stop u) := by
  have visible : u ≠ .eof := by
    have := h.isVisible
    rw [kind] at this
    simpa [Symbol.isVisible, Token.isVisible] using this
  obtain ⟨t, field, p, place, grown, _, rfl⟩ := h
  cases t with
  | node label => cases label <;> cases kind
  | leaf content padding size extra =>
    cases grown with
    | missing => cases there
    | whole => cases kind
    | @read x isRead =>
      rcases isRead.leaf_cases with ⟨v, leaf⟩ | ⟨stuck, leaf⟩
      · obtain rfl : v = u := by simpa [Tree.toNode, leaf, Leaf.symbol] using kind
        obtain ⟨t, spells, known⟩ := isRead.spells place leaf
        rw [Lexeme.extent, ← Extent.add_assoc] at spells known
        refine ⟨t, ?_, spells, known⟩
        rintro rfl
        rcases known with rfl | ⟨isName, _⟩
        · exact visible rfl
        · cases isName
      · simp [Tree.toNode, leaf, Leaf.symbol] at kind

theorem IsGrown.isSpelled (h : n.IsGrown text) (kind : n.kind = .token u)
    (there : n.isMissing = false) : n.IsSpelled text u := by
  obtain ⟨t, notEnd, spells, known⟩ := h.exists_spells kind there
  exact .intro kind notEnd spells (known.imp id fun ⟨isName, keyword⟩ =>
    ⟨isName, keyword.mem_keywords⟩)

/-- A node over a rule that shows no children covers only filler. -/
theorem IsGrown.fills (h : n.IsGrown text) {r : Rule} (kind : n.kind = .rule r)
    (leaf : n.children = []) : text.Fills n.start.bytes n.stop.bytes := by
  obtain ⟨t, field, p, place, grown, _, rfl⟩ := h
  cases t with
  | leaf content => cases content <;> cases kind
  | node label extra measure children =>
    have nothing := (Tree.lays_nodesOf p place label.layout 0 none 0 none grown.2.2).tiles
    rw [← grown.extent_node] at nothing
    change Tree.nodesOf label.layout 0 none p children = [] at leaf
    rw [leaf] at nothing
    intro i le lt
    rw [Tree.start_toNode] at le
    rw [Tree.stop_toNode] at lt
    exact nothing.2 i (Nat.le_trans (Nat.le_add_right ..) le) lt

theorem mem_leaves {root : Node} :
    n ∈ root.leaves ↔ (∃ x ∈ root.all, x.node = n) ∧ n.children = [] := by
  simp [leaves, leavesAmong]

/-- A byte number lies strictly inside a comment. -/
def InsideComment (root : Node) (i : Nat) : Prop :=
  ∃ n ∈ root.leaves, n.start.bytes < i ∧ i < n.stop.bytes ∧
    ∃ u, n.kind = .token u ∧ u.isComment = true

/-- How a tree shows the places of a source where a comment may be opened. One that is closed
further on is a comment; one that is not is the operator of division, with that of multiplication
right behind it; and these two follow one another only there. -/
structure ReadsComments (source : List UInt8) (root : Node) : Prop where
  closed : ∀ i, Text.Opens source i → ¬root.InsideComment i → Text.ClosesBehind source (i + 2) →
    ∃ n ∈ root.leaves, n.kind = .token .blockComment ∧ n.start.bytes = i
  unclosed : ∀ i, Text.Opens source i → ¬root.InsideComment i → ¬Text.ClosesBehind source (i + 2) →
    ∃ m ∈ root.leaves, ∃ n ∈ root.leaves, m.kind = .token .slash ∧ m.start.bytes = i ∧
      m.stop.bytes = i + 1 ∧ n.kind = .token .star ∧ n.start.bytes = i + 1
  operators : ∀ m ∈ root.leaves, ∀ n ∈ root.leaves, m.kind = .token .slash → n.kind = .token .star →
    n.start.bytes = m.stop.bytes →
      Text.Opens source m.start.bytes ∧ ¬Text.ClosesBehind source (m.start.bytes + 2)

end Node

namespace Tree

variable {source : List UInt8} {t : Tree}

/-- Where there are no errors, a leaf over a token is spelled. -/
theorem IsWhole.isSpelled {text : Text} (h : t.IsWhole text) (clean : t.syntaxErrors = [])
    {n : Node} (mem : n ∈ t.root.leaves) {u : Token} (kind : n.kind = .token u) :
    n.IsSpelled text u := by
  obtain ⟨⟨x, here, rfl⟩, _⟩ := Node.mem_leaves.mp mem
  exact (h.isGrown_of_mem_all x here).isSpelled kind (h.reportsOutermost.none_iff.mp clean x here).2

/-- Where there are no errors, a leaf is spelled or covers only filler. -/
theorem IsWhole.leaf_cases {text : Text} (h : t.IsWhole text) (clean : t.syntaxErrors = [])
    {n : Node} (mem : n ∈ t.root.leaves) :
    text.Fills n.start.bytes n.stop.bytes ∨ ∃ u, n.IsSpelled text u := by
  obtain ⟨⟨x, here, rfl⟩, leaf⟩ := Node.mem_leaves.mp mem
  have grown := h.isGrown_of_mem_all x here
  obtain ⟨notError, _⟩ := h.reportsOutermost.none_iff.mp clean x here
  cases kind : x.node.kind with
  | token u => exact .inr ⟨u, h.isSpelled clean mem kind⟩
  | rule r => exact .inl (grown.fills kind leaf)
  | error => simp [Node.isError, kind] at notError
  | skipped => cases kind ▸ grown.isVisible

theorem not_isFiller {i : Nat} {b : UInt8} (found : source[i]? = some b)
    (visible : b ∉ [0x20, 0x09, 0x0D, 0xEF, 0xBB, 0xBF]) : ¬Text.IsFiller source i := by
  rintro (blank | ⟨mark, inside⟩)
  · rw [found] at blank
    simp only [List.mem_cons, Option.some.injEq, List.not_mem_nil, or_false] at blank
    rcases blank with rfl | rfl | rfl <;> exact visible (by decide)
  · rw [← List.getElem?_take_of_lt inside, mark] at found
    exact visible (List.mem_append_right [0x20, 0x09, 0x0D] (List.mem_of_getElem? found))

/-- A byte that is no filler is in a leaf that is spelled. -/
theorem IsWhole.exists_spelled (h : t.IsWhole (Text.decode source)) (clean : t.syntaxErrors = [])
    {i : Nat} {b : UInt8} (found : source[i]? = some b)
    (visible : b ∉ [0x20, 0x09, 0x0D, 0xEF, 0xBB, 0xBF]) :
    ∃ n ∈ t.root.leaves, (n.start.bytes ≤ i ∧ i < n.stop.bytes) ∧
      ∃ u, n.IsSpelled (Text.decode source) u := by
  have noFiller := not_isFiller found visible
  obtain ⟨bound, _⟩ := List.getElem?_eq_some_iff.mp found
  have covered : ∃ n ∈ t.root.leaves, n.start.bytes ≤ i ∧ i < n.stop.bytes :=
    Classical.byContradiction fun none =>
      noFiller (h.isLossless.filler i bound fun n mem inside => none ⟨n, mem, inside⟩)
  obtain ⟨n, mem, inside⟩ := covered
  refine ⟨n, mem, inside, (h.leaf_cases clean mem).resolve_left fun fills => noFiller ?_⟩
  rw [← Text.bytes_decode source]
  exact fills i inside.1 inside.2

/-- A text that is read without errors does not hold the character NUL. -/
theorem IsWhole.nul_not_mem (h : t.IsWhole (Text.decode source)) (clean : t.syntaxErrors = []) :
    nul ∉ Text.decode source := by
  intro mem
  obtain ⟨before, after, split⟩ := List.append_of_mem mem
  have found : (Text.decode source).bytes[(Text.extent before).bytes]? = some 0 := by
    rw [split]
    exact Text.getElem?_bytes_append before _ 0
  obtain ⟨n, mem, inside, u, kind, notEnd, spells, _⟩ :=
    h.exists_spelled clean (Text.bytes_decode source ▸ found) (by decide)
  exact spells.ne_zero notEnd (Text.keepsAscii_decode source) inside found

/-- A leaf around a place where a comment may be opened outside comments begins there. It is a
comment if one is closed behind, and otherwise a slash. -/
theorem IsWhole.of_opens (h : t.IsWhole (Text.decode source)) (clean : t.syntaxErrors = [])
    {i : Nat} (opens : Text.Opens source i) (outside : ¬t.root.InsideComment i) {n : Node}
    (mem : n ∈ t.root.leaves) (inside : n.start.bytes ≤ i ∧ i < n.stop.bytes) {u : Token}
    (spelled : n.IsSpelled (Text.decode source) u) :
    n.start.bytes = i ∧ (Text.ClosesBehind source (i + 2) ∧ u = .blockComment ∨
      ¬Text.ClosesBehind source (i + 2) ∧ u = .slash ∧ n.stop.bytes = i + 1) := by
  obtain ⟨kind, notEnd, spells, known⟩ := spelled
  rename_i t'
  have same (notName : t' ≠ .identifier) : u = t' := known.resolve_right fun h => notName h.1
  have cases := spells.of_opens notEnd (Text.keepsAscii_decode source) (h.nul_not_mem clean) inside
  rw [Text.bytes_decode] at cases
  rcases cases opens with ⟨before, comment⟩ | ⟨start, ⟨closes, rfl⟩ | ⟨open', rfl, stop⟩⟩
  · have notName : t' ≠ .identifier := by
      rintro rfl
      cases comment
    obtain rfl := same notName
    exact absurd ⟨n, mem, before, inside.2, u, kind, comment⟩ outside
  · exact ⟨start, .inl ⟨closes, same (by decide)⟩⟩
  · exact ⟨start, .inr ⟨open', same (by decide), stop⟩⟩

theorem IsWhole.readsComments (h : t.IsWhole (Text.decode source)) (clean : t.syntaxErrors = []) :
    t.root.ReadsComments source := by
  have keeps := Text.keepsAscii_decode source
  refine ⟨fun i opens outside closes => ?_, fun i opens outside open' => ?_,
    fun m memM n memN kindM kindN next => ?_⟩
  · obtain ⟨n, mem, inside, u, spelled⟩ := h.exists_spelled clean opens.1 (by decide)
    rcases h.of_opens clean opens outside mem inside spelled with ⟨start, ⟨_, rfl⟩ | ⟨open', _⟩⟩
    · exact ⟨n, mem, spelled.kind, start⟩
    · exact absurd closes open'
  · obtain ⟨m, memM, inside, u, spelled⟩ := h.exists_spelled clean opens.1 (by decide)
    rcases h.of_opens clean opens outside memM inside spelled with
      ⟨start, ⟨closes, _⟩ | ⟨_, rfl, stop⟩⟩
    · exact absurd closes open'
    obtain ⟨n, memN, inside', v, spelled'⟩ := h.exists_spelled clean opens.2 (by decide)
    have startN : n.start.bytes = i + 1 := by
      by_cases later : i < n.start.bytes
      · omega
      · have around : n.start.bytes ≤ i ∧ i < n.stop.bytes := by omega
        rcases h.of_opens clean opens outside memN around spelled' with
          ⟨_, ⟨closes, _⟩ | ⟨_, _, stop⟩⟩
        · exact absurd closes open'
        · omega
    refine ⟨m, memM, n, memN, spelled.kind, start, stop, ?_, startN⟩
    obtain ⟨kind, notEnd, spells, known⟩ := spelled'
    have isStar : (Text.decode source).bytes[n.start.bytes]? = some 0x2A := by
      rw [Text.bytes_decode, startN]
      exact opens.2
    obtain rfl := spells.of_star notEnd keeps isStar (by omega)
    obtain rfl : v = .star := known.resolve_right (by simp)
    exact kind
  · obtain ⟨notEnd, spells⟩ := (h.isSpelled clean memM kindM).spells (by decide)
    obtain ⟨notEnd', spells'⟩ := (h.isSpelled clean memN kindN).spells (by decide)
    obtain ⟨isSlash, stop⟩ := spells.of_singleton (b := 0x2F) notEnd
      (fun _ _ spelled => spelled.eq_slash) (by decide)
    obtain ⟨isStar, _⟩ := spells'.of_singleton (b := 0x2A) notEnd'
      (fun _ _ spelled => spelled.eq_star) (by decide)
    have opens : Text.Opens (Text.decode source).bytes m.start.bytes := by
      rw [next, stop] at isStar
      exact ⟨isSlash, isStar⟩
    have cases := spells.of_opens notEnd keeps (h.nul_not_mem clean) ⟨Nat.le_refl _, by omega⟩ opens
    rw [Text.bytes_decode] at opens cases
    refine ⟨opens, ?_⟩
    rcases cases with ⟨_, comment⟩ | ⟨_, ⟨_, comment⟩ | ⟨open', _⟩⟩
    · cases comment
    · cases comment
    · exact open'

end Tree

/-- In a source without syntax errors, comments that are opened are closed, or not opened at all. -/
theorem readsComments_parse (source : List UInt8) (clean : (parse source).syntaxErrors = []) :
    (parse source).root.ReadsComments source :=
  (isWhole_parse source).readsComments clean

/-- A module with a comment, which holds what would open another one. -/
theorem readsComments_parse_nested :
    (parse "module m{/* /* */}".toUTF8.data.toList).syntaxErrors = [] ∧
      (parse "module m{/* /* */}".toUTF8.data.toList).root.ReadsComments
        "module m{/* /* */}".toUTF8.data.toList :=
  ⟨by decide +kernel, readsComments_parse _ (by decide +kernel)⟩

/-- A comment that is never closed may go unreported: here it is two operators. -/
theorem unclosed_comment_unreported :
    ¬∀ source : List UInt8, (parse source).syntaxErrors = [] →
      ∀ m ∈ (parse source).root.leaves, ∀ n ∈ (parse source).root.leaves,
        m.kind = .token .slash → n.kind = .token .star → n.start.bytes ≠ m.stop.bytes := by
  intro h
  refine absurd (h "module m {
 a /* b
}
".toUTF8.data.toList (by decide +kernel)) ?_
  decide +kernel

end SusSyntax
