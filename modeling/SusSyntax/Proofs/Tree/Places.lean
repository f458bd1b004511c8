import SusSyntax.Highlight.Capture
import SusSyntax.Proofs.Text.Ascii
import SusSyntax.Proofs.Text.Decode
import SusSyntax.Proofs.Tree.Shape
import SusSyntax.Proofs.Tree.Tiling

/-!
Where nodes stand in a source.

Every node of a tree begins and ends at a place of the text (`Node.IsGrown.isPlace_start`,
`Node.IsGrown.isPlace_stop`), whatever reshaping the tree went through. A place is the extent of what
stands before it, so its row and its column are those of the bytes before it (`keepsPositions_parse`).
And it lies between two glyphs: in a source that is a string, nodes, errors and captures are strings in
it (`cutsStrings_parse`).
-/

namespace SusSyntax

open Grammar Lexical

/-! ### Rows and columns -/

/-- The position of a source at its byte number `e.bytes`: the row counts the line breaks before it, and
the column the bytes since the last of them. -/
structure Extent.IsPosition (source : List UInt8) (e : Extent) : Prop where
  inside : e.bytes ≤ source.length
  rows : e.rows = (source.take e.bytes).count 0x0A
  columns : e.columns = ((source.take e.bytes).reverse.takeWhile (· != 0x0A)).length

namespace Text

variable {g : Glyph} {text : Text}

/-- A glyph is the line break, or there is none among its bytes. -/
theorem extent_cases (keeps : ∀ b ∈ g.bytes, b < 0x80 → g = .char b.toNat) :
    g.bytes = [0x0A] ∧ g.extent = ⟨1, 1, 0⟩ ∨
      0x0A ∉ g.bytes ∧ g.extent = ⟨g.bytes.length, 0, g.bytes.length⟩ := by
  by_cases isBreak : g.isChar '\n' = true
  · obtain rfl := eq_of_beq isBreak
    exact .inl ⟨rfl, rfl⟩
  · refine .inr ⟨fun mem => ?_, ?_⟩
    · obtain rfl := keeps 0x0A mem (by decide)
      exact isBreak rfl
    · rw [Glyph.extent, if_neg isBreak, Glyph.length_bytes]

theorem rows_extent (keeps : text.KeepsAscii) : text.extent.rows = text.bytes.count 0x0A := by
  induction text with
  | nil => rfl
  | cons g rest ih =>
    obtain ⟨first, keeps⟩ := keepsAscii_cons.mp keeps
    rw [extent_cons, Extent.rows_add, ih keeps, bytes_cons, List.count_append]
    rcases extent_cases first with ⟨bytes, extent⟩ | ⟨none, extent⟩
    · rw [bytes, extent]
      rfl
    · rw [extent, List.count_eq_zero.mpr none]

theorem columns_extent (keeps : text.KeepsAscii) :
    text.extent.columns = (text.bytes.reverse.takeWhile (· != 0x0A)).length := by
  induction text with
  | nil => rfl
  | cons g rest ih =>
    obtain ⟨first, keeps⟩ := keepsAscii_cons.mp keeps
    have unbroken {bytes : List UInt8} (none : 0x0A ∉ bytes) : ∀ b ∈ bytes.reverse,
        (b != 0x0A) = true := by
      intro b mem
      rw [bne_iff_ne]
      rintro rfl
      exact none (List.mem_reverse.mp mem)
    have row {bytes : List UInt8} (none : 0x0A ∉ bytes) :
        bytes.reverse.takeWhile (· != 0x0A) = bytes.reverse := by
      have whole : (bytes.reverse ++ []).takeWhile (· != 0x0A) =
          bytes.reverse ++ [].takeWhile (· != 0x0A) :=
        List.takeWhile_append_of_pos (unbroken none)
      rwa [List.append_nil, List.takeWhile_nil, List.append_nil] at whole
    rw [extent_cons, Extent.columns_add, rows_extent keeps, ih keeps, bytes_cons,
      List.reverse_append]
    by_cases none : (bytes rest).count 0x0A = 0
    · have free := List.count_eq_zero.mp none
      rw [if_pos none, List.takeWhile_append_of_pos (unbroken free), row free, List.length_append,
        Nat.add_comm]
      congr 1
      rcases extent_cases first with ⟨bytes, extent⟩ | ⟨free, extent⟩
      · rw [bytes, extent]
        rfl
      · rw [extent, row free, List.length_reverse]
    · -- The row begins in what stands behind, so what stands before does not count.
      rw [if_neg none, List.takeWhile_append, if_neg]
      intro whole
      have all : (bytes rest).reverse.takeWhile (· != 0x0A) = (bytes rest).reverse :=
        (List.takeWhile_prefix (· != (0x0A : UInt8))).eq_of_length whole
      have mem : (0x0A : UInt8) ∈ (bytes rest).reverse :=
        List.mem_reverse.mpr (List.count_pos_iff.mp (Nat.pos_of_ne_zero none))
      rw [← all] at mem
      exact absurd (List.all_eq_true.mp List.all_takeWhile _ mem) (by decide)

/-- A place of a text has the row and the column of the bytes before it. -/
theorem IsPlace.isPosition {source : List UInt8} {p : Extent} (h : (decode source).IsPlace p) :
    p.IsPosition source := by
  obtain ⟨before, after, split, rfl⟩ := h
  have keeps : before.KeepsAscii := (keepsAscii_append.mp (split ▸ keepsAscii_decode source)).1
  have taken := (take_drop_of_decode split).1
  refine ⟨?_, by rw [taken, rows_extent keeps], by rw [taken, columns_extent keeps]⟩
  have length := congrArg List.length (bytes_decode source)
  rw [split, bytes_append, List.length_append, length_bytes] at length
  omega

end Text

/-! ### Strings in a string -/

/-- The bytes of a string from number `a` on and before number `b` are a string themselves. -/
def IsSlice (s : String) (a b : Nat) : Prop :=
  ∃ front piece back : String, s = front ++ piece ++ back ∧
    front.utf8ByteSize = a ∧ (front ++ piece).utf8ByteSize = b

/-- The bytes of a string. -/
def bytesOf (s : String) : List UInt8 :=
  s.toUTF8.data.toList

namespace Text

open Utf8

theorem bytesOf_ofList (cs : List Char) :
    bytesOf (.ofList cs) = cs.flatMap String.utf8EncodeChar := by
  have bytes : (String.ofList cs).toUTF8 = cs.utf8Encode := String.toByteArray_ofList
  rw [bytesOf, bytes, List.utf8Encode]
  simp

section Codes

variable {v : Nat} {a b c d : UInt8}

theorem isContinuation_of_toNat (value : b.toNat = v % 64 + 128) : isContinuation b = true := by
  simp only [isContinuation, Bool.and_eq_true, decide_eq_true_eq, UInt8.le_iff_toNat_le, value,
    UInt8.toNat_ofNat]
  omega

theorem isCode_pair (low : 0x80 ≤ v) (high : v < 0x800) (first : a.toNat = v / 64 % 32 + 192)
    (second : b.toNat = v % 64 + 128) : IsCode [a, b] v := by
  have code : pairCode a b = (a.toNat - 0xC0) * 0x40 + (b.toNat - 0x80) := rfl
  have code : pairCode a b = v := by omega
  refine code ▸ .pair ?_
  simp only [isPair, isContinuation_of_toNat second, Bool.and_eq_true, and_true, decide_eq_true_eq,
    UInt8.le_iff_toNat_le, first, UInt8.toNat_ofNat]
  omega

theorem isCode_triple (low : 0x800 ≤ v) (high : v < 0x10000) (whole : v < 0xD800 ∨ 0xDFFF < v)
    (first : a.toNat = v / 4096 % 16 + 224) (second : b.toNat = v / 64 % 64 + 128)
    (third : c.toNat = v % 64 + 128) : IsCode [a, b, c] v := by
  have code : tripleCode a b c =
      ((a.toNat - 0xE0) * 0x40 + (b.toNat - 0x80)) * 0x40 + (c.toNat - 0x80) := rfl
  have code : tripleCode a b c = v := by omega
  refine code ▸ .triple ?_
  simp only [isTriple, isContinuation_of_toNat second, isContinuation_of_toNat third,
    Bool.and_eq_true, and_true, Bool.or_eq_true, bne_iff_ne, ne_eq, decide_eq_true_eq,
    UInt8.le_iff_toNat_le, ← UInt8.toNat_inj, first, second, UInt8.toNat_ofNat]
  omega

theorem isCode_quadruple (low : 0x10000 ≤ v) (high : v < 0x110000)
    (first : a.toNat = v / 262144 % 8 + 240) (second : b.toNat = v / 4096 % 64 + 128)
    (third : c.toNat = v / 64 % 64 + 128) (fourth : d.toNat = v % 64 + 128) :
    IsCode [a, b, c, d] v := by
  have code : quadrupleCode a b c d =
      (((a.toNat - 0xF0) * 0x40 + (b.toNat - 0x80)) * 0x40 + (c.toNat - 0x80)) * 0x40 +
        (d.toNat - 0x80) := rfl
  have code : quadrupleCode a b c d = v := by omega
  refine code ▸ .quadruple ?_
  simp only [isQuadruple, isContinuation_of_toNat second, isContinuation_of_toNat third,
    isContinuation_of_toNat fourth, Bool.and_eq_true, and_true, Bool.or_eq_true, bne_iff_ne, ne_eq,
    decide_eq_true_eq, UInt8.le_iff_toNat_le, ← UInt8.toNat_inj, first, second, UInt8.toNat_ofNat]
  omega

end Codes

/-- The bytes that encode a character are read as the character. -/
theorem isCode_utf8EncodeChar (c : Char) : IsCode (String.utf8EncodeChar c) c.toNat := by
  have valid : c.toNat < 0xD800 ∨ 0xDFFF < c.toNat ∧ c.toNat < 0x110000 := c.valid
  have same : c.val.toNat = c.toNat := rfl
  have byte {n : Nat} (small : n < 256) : (UInt8.ofNat n).toNat = n := by simp [small]
  rw [String.utf8EncodeChar, same]
  generalize c.toNat = v at valid
  split
  · rename_i single
    have value := byte (n := v) (by omega)
    have isCode : IsCode [UInt8.ofNat v] (UInt8.ofNat v).toNat := .single (by
      rw [UInt8.lt_iff_toNat_lt, value]
      exact Nat.lt_succ_of_le single)
    rwa [value] at isCode
  split
  · exact isCode_pair (by omega) (by omega) (byte (by omega)) (byte (by omega))
  split
  · exact isCode_triple (by omega) (by omega) (by omega) (byte (by omega)) (byte (by omega))
      (byte (by omega))
  · exact isCode_quadruple (by omega) (by omega) (byte (by omega)) (byte (by omega))
      (byte (by omega)) (byte (by omega))

/-- A string is read as its characters. -/
theorem decode_ofList (cs : List Char) :
    decode (bytesOf (.ofList cs)) = cs.map fun c => .char c.toNat := by
  rw [bytesOf_ofList]
  induction cs with
  | nil => rfl
  | cons c cs ih =>
    rw [List.flatMap_cons, decode_code (isCode_utf8EncodeChar c), ih, List.map_cons]

/-- How many bytes the characters take. -/
theorem extent_chars (cs : List Char) :
    (extent (cs.map fun c => .char c.toNat)).bytes = (String.ofList cs).utf8ByteSize := by
  have whole := bytes_decode (bytesOf (.ofList cs))
  rw [decode_ofList] at whole
  rw [← length_bytes, whole]
  rfl

/-- Between two places of a string there is a string. -/
theorem isSlice_of_isPlace {s : String} {p q : Extent} (hp : (decode (bytesOf s)).IsPlace p)
    (hq : (decode (bytesOf s)).IsPlace q) (le : p.bytes ≤ q.bytes) : IsSlice s p.bytes q.bytes := by
  obtain ⟨cs, rfl⟩ : ∃ cs, s = .ofList cs := ⟨s.toList, (String.ofList_toList).symm⟩
  rw [decode_ofList] at hp hq
  obtain ⟨before, after, split, rfl⟩ := hp
  obtain ⟨before', after', split', rfl⟩ := hq
  obtain ⟨front, back, rfl, rfl, rfl⟩ := List.map_eq_append_iff.mp split
  obtain ⟨front', back', same, rfl, rfl⟩ := List.map_eq_append_iff.mp split'
  rw [extent_chars, extent_chars] at le ⊢
  rcases List.append_eq_append_iff.mp same with ⟨piece, rfl, rfl⟩ | ⟨piece, rfl, rfl⟩
  · exact ⟨.ofList front, .ofList piece, .ofList back', by simp [String.append_assoc], rfl, by simp⟩
  · -- The second place is not behind the first one, so they are one place.
    have nothing : (String.ofList piece).utf8ByteSize = 0 := by
      rw [String.ofList_append, String.utf8ByteSize_append] at le
      omega
    refine ⟨.ofList front', "", .ofList (piece ++ back), by simp, ?_, by simp⟩
    rw [String.ofList_append, String.utf8ByteSize_append, nothing, Nat.add_zero]

end Text

/-! ### The nodes of a tree -/

namespace Tree

variable {text : Text} {p : Extent}

/-- Behind the padding of a tree that has grown there is a place. -/
theorem Grown.isPlace_padding (place : text.IsPlace p) :
    ∀ {t : Tree}, t.Grown text p → text.IsPlace (p + t.padding)
  | .leaf .., h => by
    cases h with
    | missing | whole => simpa [padding] using place
    | read isRead =>
      obtain ⟨before, gap, body, after, rfl, rfl, _, same, _⟩ := isRead.standsAt place
      exact ⟨before ++ gap, body ++ after, by simp, by rw [padding, same, Text.extent_append]⟩
  | .node _ _ _ [], h => by
    obtain ⟨rfl, _⟩ := h
    simpa [padding, measureOf] using place
  | .node _ _ _ (t :: _), h => by
    obtain ⟨rfl, _, grown, _⟩ := h
    exact grown.isPlace_padding place

end Tree

namespace Node

variable {text : Text} {n : Node}

theorem IsGrown.isPlace_start (h : n.IsGrown text) : text.IsPlace n.start := by
  obtain ⟨t, field, p, place, grown, _, rfl⟩ := h
  rw [Tree.start_toNode]
  exact grown.isPlace_padding place

theorem IsGrown.isPlace_stop (h : n.IsGrown text) : text.IsPlace n.stop := by
  obtain ⟨t, field, p, place, grown, _, rfl⟩ := h
  rw [Tree.stop_toNode]
  exact grown.isPlace place

theorem IsGrown.start_le_stop (h : n.IsGrown text) : n.start.bytes ≤ n.stop.bytes := by
  obtain ⟨t, field, p, _, _, _, rfl⟩ := h
  rw [Tree.start_toNode, Tree.stop_toNode, Tree.extent, ← Extent.add_assoc]
  exact Nat.le_add_right ..

end Node

namespace Tree

/-- An error of a whole tree is that of an outermost node, which has grown over the text. -/
theorem IsWhole.exists_occurrence {t : Tree} (h : t.IsWhole text) {e : SyntaxError}
    (mem : e ∈ t.syntaxErrors) : ∃ o ∈ t.root.occurrences [],
      o.isOutermost = true ∧ o.node.IsGrown text ∧ o.error = e := by
  rw [h.syntaxErrors_eq] at mem
  obtain ⟨o, reported, rfl⟩ := List.mem_map.mp mem
  obtain ⟨mem, outer⟩ := List.mem_filter.mp reported
  have all : t.root.all = _ := Node.walk_eq_map_occurrences [] t.root
  have placed : ⟨o.above.length, o.above.head?, o.node⟩ ∈ t.root.all := by
    rw [all]
    exact List.mem_map_of_mem mem
  exact ⟨o, mem, outer, h.isGrown_of_mem_all _ placed, rfl⟩

/-- Every node of a tree begins and ends at the row and the column of the bytes before. -/
structure KeepsPositions (source : List UInt8) (t : Tree) : Prop where
  start : ∀ x ∈ t.root.all, x.node.start.IsPosition source
  stop : ∀ x ∈ t.root.all, x.node.stop.IsPosition source

/-- The ranges of the nodes of a tree, of its errors and of its captures cut strings out of the
source. -/
structure CutsStrings (s : String) (t : Tree) : Prop where
  nodes : ∀ x ∈ t.root.all, IsSlice s x.node.start.bytes x.node.stop.bytes
  errors : ∀ e ∈ t.syntaxErrors, IsSlice s e.start e.stop
  captures : ∀ c ∈ t.highlights, IsSlice s c.start c.stop

theorem IsWhole.keepsPositions {source : List UInt8} {t : Tree}
    (h : t.IsWhole (Text.decode source)) : t.KeepsPositions source where
  start x mem := (h.isGrown_of_mem_all x mem).isPlace_start.isPosition
  stop x mem := (h.isGrown_of_mem_all x mem).isPlace_stop.isPosition

theorem IsWhole.cutsStrings {s : String} {t : Tree} (h : t.IsWhole (Text.decode (bytesOf s))) :
    t.CutsStrings s := by
  have isSlice {n : Node} (grown : n.IsGrown (Text.decode (bytesOf s))) :
      IsSlice s n.start.bytes n.stop.bytes :=
    Text.isSlice_of_isPlace grown.isPlace_start grown.isPlace_stop grown.start_le_stop
  refine ⟨fun x mem => isSlice (h.isGrown_of_mem_all x mem), fun e mem => ?_, fun c mem => ?_⟩
  · obtain ⟨o, _, _, grown, rfl⟩ := h.exists_occurrence mem
    exact isSlice grown
  · obtain ⟨x, placed, found⟩ := List.mem_flatMap.mp mem
    obtain ⟨⟨pattern, i⟩, _, found⟩ := List.mem_filterMap.mp found
    dsimp only at found
    split at found
    · obtain rfl := Option.some.inj found
      exact isSlice (h.isGrown_of_mem_all x placed)
    · cases found

end Tree

/-- The rows and columns of the nodes of a source agree with its bytes. -/
theorem keepsPositions_parse (source : List UInt8) : (parse source).KeepsPositions source :=
  (isWhole_parse source).keepsPositions

/-- A string can be cut at the ends of the nodes of its tree, of its errors and of its captures. -/
theorem cutsStrings_parse (s : String) : (parse (bytesOf s)).CutsStrings s :=
  (isWhole_parse (bytesOf s)).cutsStrings

end SusSyntax
