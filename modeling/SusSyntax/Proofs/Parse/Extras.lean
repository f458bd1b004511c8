import SusSyntax.Proofs.Parse.Marks
import SusSyntax.Proofs.Text.Decode

/-!
What may be put in between the tokens of a source without errors.

A source is read like another one if its pieces are of the same kinds (`Parses.parse_of_kinds`). So
white space does not matter: it may be put in where a leaf begins or ends, and before any line break
(`ignoresBlanks_parse`). A comment is taken in as an extra in every state, and extras are passed over
by what takes trees off the stack. So a comment leaves the rest of the tree as it is
(`ignoresComments_parse`).
-/

namespace SusSyntax

open Grammar Lexical

/-- A source with something put in at an offset. -/
def insertAt (source : List UInt8) (p : Nat) (new : List UInt8) : List UInt8 :=
  source.take p ++ new ++ source.drop p

/-- A source whose line feeds all have a carriage return before them. -/
def withReturns (source : List UInt8) : List UInt8 :=
  source.flatMap fun b => if b = 0x0A then [0x0D, 0x0A] else [b]

/-- Spaces, tabs and carriage returns. -/
def blankBytes : List UInt8 :=
  [0x20, 0x09, 0x0D]

/-! ### Blanks -/

namespace Text

variable {source blanks : List UInt8} {u v : Text}

/-- Blanks are read as themselves wherever they are put in. -/
theorem decode_insertAt_blanks (h : decode source = u ++ v) (blank : ∀ b ∈ blanks, b ∈ blankBytes) :
    ∃ ws, IsBlank ws ∧ decode (insertAt source u.extent.bytes blanks) = u ++ (ws ++ v) := by
  have known : ∀ b ∈ blankBytes, b < 0x80 ∧ Guard.blank.admits (.char b.toNat) = true := by
    decide +kernel
  have low : ∀ b ∈ blanks, b < 0x80 := fun b mem => (known b (blank b mem)).1
  refine ⟨blanks.map fun b => .char b.toNat, ?_,
    decode_insert h (fun b ahead => isContinuation_of_lt (low b (List.mem_of_mem_head? ahead)))
      (decode_ascii low _)⟩
  intro g mem
  obtain ⟨b, inside, rfl⟩ := List.mem_map.mp mem
  exact (known b (blank b inside)).2

end Text

namespace Plain.Parses

variable {source source' blanks : List UInt8} {pieces pieces' : List Piece} {t : Tree}

/-- A source with pieces of the same kinds as those of a source without errors is read like it. -/
theorem parse_of_kinds (h : Parses pieces t) (whole : t.IsWhole (Text.decode source))
    (clean : t.isClean = true) (laid : Piece.Laid true pieces')
    (same : pieces'.map Piece.kind = pieces.map Piece.kind)
    (text : Piece.textOf pieces' = Text.decode source') :
    (parse source').syntaxErrors = [] ∧ (parse source').root.outline = t.root.outline := by
  obtain ⟨t', parses', sameTree⟩ := h.replay laid same false
  obtain ⟨clean', found⟩ := parses'.parse_eq text
  have whole' := isWhole_parse source'
  refine ⟨whole'.isClean_iff_syntaxErrors.mp clean', ?_⟩
  exact (whole.outline_eq whole' clean clean' (sameTree.trans (congrArg _ found.symm))).symm

/-- Blanks may be put in where a node begins or ends. -/
theorem parse_insert_blanks (h : Parses pieces t) (text : Piece.textOf pieces = Text.decode source)
    (whole : t.IsWhole (Text.decode source)) (clean : t.isClean = true) {x : Node.Placed}
    (mem : x ∈ t.root.all) {p : Extent} (bound : p = x.node.start ∨ p = x.node.stop)
    (blank : ∀ b ∈ blanks, b ∈ blankBytes) :
    (parse (insertAt source p.bytes blanks)).syntaxErrors = [] ∧
      (parse (insertAt source p.bytes blanks)).root.outline = t.root.outline := by
  obtain ⟨ys, z, zs, gap, gap', rfl, gaps, rfl, place⟩ :=
    h.exists_cut (h.isFull (text ▸ whole) clean) whole.isVisible mem bound
  have free := whole.nul_not_mem (whole.isClean_iff_syntaxErrors.mp clean)
  have split : Text.decode source = Piece.textOf ys ++ gap ++ (gap' ++ (z.body ++ Piece.textOf zs)) := by
    simp [← text, gaps]
  obtain ⟨ws, isBlank, decoded⟩ := Text.decode_insertAt_blanks split blank
  obtain ⟨pieces', laid, text', same⟩ :=
    h.laid.insert_blanks gaps place isBlank (text ▸ free)
  exact h.parse_of_kinds whole clean laid same (text'.trans decoded.symm)

/-- Blanks may be put in before any line break. -/
theorem parse_insert_blanks_of_lineFeed (h : Parses pieces t)
    (text : Piece.textOf pieces = Text.decode source) (whole : t.IsWhole (Text.decode source))
    (clean : t.isClean = true) {p : Nat} (lineFeed : source[p]? = some 0x0A)
    (blank : ∀ b ∈ blanks, b ∈ blankBytes) :
    (parse (insertAt source p blanks)).syntaxErrors = [] ∧
      (parse (insertAt source p blanks)).root.outline = t.root.outline := by
  obtain ⟨u, v, split, rfl⟩ := Text.exists_char_at (Text.keepsAscii_decode source)
    ((Text.bytes_decode source).symm ▸ lineFeed) (by decide)
  have free := whole.nul_not_mem (whole.isClean_iff_syntaxErrors.mp clean)
  obtain ⟨ws, isBlank, decoded⟩ := Text.decode_insertAt_blanks split blank
  obtain ⟨pieces', laid, text', same⟩ :=
    h.laid.insert_blanks_of_lineBreak (text.trans split) isBlank (text ▸ free)
  exact h.parse_of_kinds whole clean laid same (text'.trans decoded.symm)

end Plain.Parses

/-- Line feeds may have carriage returns before them. -/
theorem parse_append_withReturns (front back : List UInt8)
    (clean : (parse (front ++ back)).syntaxErrors = []) :
    (parse (front ++ withReturns back)).syntaxErrors = [] ∧
      (parse (front ++ withReturns back)).root.outline = (parse (front ++ back)).root.outline := by
  induction back generalizing front with
  | nil => exact ⟨clean, rfl⟩
  | cons b back ih =>
    by_cases lineFeed : b = 0x0A
    · subst lineFeed
      have whole := isWhole_parse (front ++ 0x0A :: back)
      have isClean := whole.isClean_iff_syntaxErrors.mpr clean
      obtain ⟨pieces, text, parses⟩ := exists_parses isClean
      have inserted : (parse (insertAt (front ++ 0x0A :: back) front.length [0x0D])).syntaxErrors = [] ∧
          (parse (insertAt (front ++ 0x0A :: back) front.length [0x0D])).root.outline = _ :=
        parses.parse_insert_blanks_of_lineFeed text whole isClean (by simp) (by decide +kernel)
      have moved : insertAt (front ++ 0x0A :: back) front.length [0x0D] =
          (front ++ [0x0D, 0x0A]) ++ back := by
        simp [insertAt]
      rw [moved] at inserted
      obtain ⟨clean', outline'⟩ := inserted
      obtain ⟨clean'', outline''⟩ := ih (front ++ [0x0D, 0x0A]) clean'
      have split : front ++ withReturns (0x0A :: back) =
          (front ++ [0x0D, 0x0A]) ++ withReturns back := by
        simp [withReturns]
      rw [split]
      exact ⟨clean'', outline''.trans outline'⟩
    · have split : front ++ withReturns (b :: back) = (front ++ [b]) ++ withReturns back := by
        simp [withReturns, lineFeed]
      have same : front ++ b :: back = (front ++ [b]) ++ back := by simp
      rw [split]
      rw [same] at clean ⊢
      exact ih (front ++ [b]) clean

/-- White space does not matter. In a source without errors blanks may be put in where a leaf begins or
ends, and lines may end in both ways: there are no errors then, and the tree looks the same. -/
theorem ignoresBlanks_parse (source : List UInt8) (clean : (parse source).syntaxErrors = []) :
    (∀ n ∈ (parse source).root.leaves, ∀ p, p = n.start.bytes ∨ p = n.stop.bytes →
      ∀ blanks : List UInt8, (∀ b ∈ blanks, b ∈ blankBytes) →
        (parse (insertAt source p blanks)).syntaxErrors = [] ∧
          (parse (insertAt source p blanks)).root.outline = (parse source).root.outline) ∧
      (parse (withReturns source)).syntaxErrors = [] ∧
        (parse (withReturns source)).root.outline = (parse source).root.outline := by
  refine ⟨fun n mem p bound blanks blank => ?_, parse_append_withReturns [] source clean⟩
  have whole := isWhole_parse source
  have isClean := whole.isClean_iff_syntaxErrors.mpr clean
  obtain ⟨pieces, text, parses⟩ := exists_parses isClean
  obtain ⟨⟨x, inside, rfl⟩, -⟩ := Node.mem_leaves.mp mem
  rcases bound with rfl | rfl
  · exact parses.parse_insert_blanks text whole isClean inside (.inl rfl) blank
  · exact parses.parse_insert_blanks text whole isClean inside (.inr rfl) blank

/-- Blanks at the end of a line comment, and a block comment whose lines end in the other way. -/
theorem ignoresBlanks_parse_comments :
    (parse "module m{// a
/* b
c */}".toUTF8.data.toList).syntaxErrors = [] ∧
      (parse (insertAt "module m{// a
/* b
c */}".toUTF8.data.toList 13 [0x20, 0x0D, 0x09])).syntaxErrors = [] ∧
      (parse (withReturns "module m{// a
/* b
c */}".toUTF8.data.toList)).syntaxErrors = [] := by
  have clean : (parse "module m{// a
/* b
c */}".toUTF8.data.toList).syntaxErrors = [] := by
    decide +kernel
  have leaf : ∃ n ∈ (parse "module m{// a
/* b
c */}".toUTF8.data.toList).root.leaves, 13 = n.stop.bytes := by
    decide +kernel
  obtain ⟨n, mem, stop⟩ := leaf
  obtain ⟨inserted, returns, -⟩ := ignoresBlanks_parse _ clean
  exact ⟨clean, (inserted n mem 13 (.inr stop) _ (by decide +kernel)).1, returns⟩

/-! ### Comments -/

/-- A block comment between blanks. -/
def blockComment (c : List UInt8) : List UInt8 :=
  [0x20, 0x2F, 0x2A] ++ c ++ [0x2A, 0x2F, 0x20]

/-- A line comment behind a blank. -/
def lineComment (c : List UInt8) : List UInt8 :=
  [0x20, 0x2F, 0x2F] ++ c

/-- Whether some leaf over a slash is immediately followed by a leaf over a star. -/
def Node.HasSlashStar (root : Node) : Prop :=
  ∃ m ∈ root.leaves, ∃ n ∈ root.leaves,
    m.kind = .token .slash ∧ n.kind = .token .star ∧ m.stop.bytes = n.start.bytes

instance (root : Node) : Decidable root.HasSlashStar :=
  inferInstanceAs (Decidable (∃ m ∈ root.leaves, ∃ n ∈ root.leaves,
    m.kind = .token .slash ∧ n.kind = .token .star ∧ m.stop.bytes = n.start.bytes))

/-- In every state a comment is taken in as an extra, and nothing else is done with it. -/
theorem Grammar.State.actions_of_isComment {s : State} {u : Token} (bound : s < stateCount)
    (comment : u.isComment = true) : (s.row.entry u).actions = [.shiftExtra] := by
  have checked := row_holds (fun _ r => Token.all.all fun u =>
    !u.isComment || (r.entry u).actions == [.shiftExtra]) (by decide +kernel) bound
  have known := List.all_eq_true.mp checked u (Token.mem_all u)
  rw [comment] at known
  exact eq_of_beq known

namespace Text

open Utf8

variable {source c : List UInt8} {u v : Text}

/-- Something between ASCII characters is read as itself wherever it is put in. -/
theorem decode_insertAt_between {front back : List UInt8} (h : decode source = u ++ v)
    (low : ∀ b ∈ front, b < 0x80) (ne : front ≠ []) (low' : ∀ b ∈ back, b < 0x80)
    (ends : ∀ b ∈ (back ++ v.bytes).head?, isContinuation b = false) :
    decode (insertAt source u.extent.bytes (front ++ c ++ back)) =
      u ++ (front.map (fun b => .char b.toNat) ++ decode c ++
        back.map (fun b => .char b.toNat) ++ v) := by
  have alone : decode c = decode c ++ [] := (List.append_nil _).symm
  refine decode_insert h (fun b ahead => isContinuation_of_lt (low b ?_)) ?_
  · obtain ⟨b', front, rfl⟩ := List.exists_cons_of_ne_nil ne
    exact List.mem_of_mem_head? (l := b' :: front) ahead
  · have middle := decode_append alone (.inl ends)
    rw [bytes_decode, decode_ascii low'] at middle
    rw [List.append_assoc, List.append_assoc, decode_ascii low, middle]
    simp

/-- An ASCII character that is read stands there. -/
theorem mem_of_char_mem {b : UInt8} (low : b < 0x80) (mem : .char b.toNat ∈ decode c) : b ∈ c := by
  obtain ⟨before, after, split⟩ := List.append_of_mem mem
  rw [← bytes_decode c, split, bytes_append, bytes_cons, (IsCode.single low).bytes]
  simp

/-- Where the mark that closes a comment does not stand, none is closed. -/
theorem not_closes_decode (none : ¬[0x2A, 0x2F] <:+: c) : ¬Closes (decode c ++ [star]) := by
  rintro ⟨before, after, split⟩
  rcases List.eq_nil_or_concat after with rfl | ⟨after, g, rfl⟩
  · have last := congrArg List.getLast? split
    simp at last
    cases last
  · rw [List.concat_eq_append, ← List.append_assoc] at split
    refine none ⟨bytes before, bytes after, ?_⟩
    rw [← bytes_decode c, ← (List.append_inj' split rfl).1]
    simp
    rfl

end Text

namespace Plain

variable {frames : List Frame} {x : Lexeme} {xs : List Lexeme} {d : Config} {t : Tree}

/-- A state that does anything with a lexeme has a row of the table. -/
theorem Takes.lt_stateCount (h : Takes ⟨frames, some x⟩ xs d) (accepted : d.accepted? = some t) :
    topState frames < stateCount := by
  have known {a : Action} {symbol : Symbol} (mem : a ∈ ((topState frames).entry symbol).actions) :
      topState frames < stateCount := by
    obtain ⟨u, rfl, inRow⟩ := State.exists_of_mem_entry mem
    exact State.lt_of_mem_actions inRow
  cases h with
  | done =>
    obtain ⟨_, -, accepts, -⟩ := accepted?_eq_some_iff.mp accepted
    exact known accepts
  | work works _ =>
    cases works with
    | act _ mem _ => exact known mem
    | rename renames =>
      simp only [Config.renames, Bool.and_eq_true, Bool.not_eq_true', Entry.isEmpty] at renames
      obtain ⟨a, mem⟩ := List.exists_mem_of_ne_nil _ (List.isEmpty_eq_false_iff.mp renames.2)
      exact known mem

/-- The machine takes in a comment as an extra. -/
theorem takes_comment {u : Token} (bound : topState frames < stateCount)
    (state : x.state = topState frames) (leaf : x.leaf = .read u) (comment : u.isComment = true)
    (noName : x.isKeyword = false) :
    Takes ⟨frames, none⟩ [x] ⟨⟨x.toTree.withExtra true, topState frames⟩ :: frames, none⟩ := by
  have entry : ((topState frames).entry x.symbol).actions = [.shiftExtra] := by
    rw [Lexeme.symbol, leaf]
    exact State.actions_of_isComment bound comment
  refine .read state (.work (.act (a := .shiftExtra) ?_ (by simp [entry]) rfl) .done)
  simp [Config.renames, noName]

namespace Parses

variable {pieces ys zs : List Piece} {x z z' : Piece} {source : List UInt8}

/-- A comment may be taken between the pieces of a source, up to a tree that is the same but for its
comments. -/
theorem insert_comment (h : Parses (ys ++ z :: zs) t) (laid : Piece.Laid true (ys ++ x :: z' :: zs))
    (comment : x.token.isComment = true) (noName : x.isKeyword = false) (state : x.state = z.state)
    (same : z'.kind = z.kind) :
    ∃ t', Parses (ys ++ x :: z' :: zs) t' ∧ t.skeleton true = t'.skeleton true := by
  obtain ⟨-, d, takes, accepted⟩ := h
  rw [List.map_append, List.map_cons] at takes
  obtain ⟨frames, before, top, after⟩ := takes.split
  have bound := after.lt_stateCount accepted
  have settled : Settled frames := before.settled trivial
  let held : Config := ⟨⟨x.lexeme.toTree.withExtra true, topState frames⟩ :: frames, none⟩
  have extra : Takes ⟨frames, none⟩ [x.lexeme] held :=
    takes_comment bound (state.trans top) rfl comment noName
  have settled' : Settled held.frames := ⟨fun _ => rfl, settled⟩
  have sameStart : Config.skeleton true ⟨frames, none⟩ = held.skeleton true := rfl
  have sameKinds : (z :: zs).map Piece.kind = (z' :: zs).map Piece.kind := by simp [same]
  obtain ⟨d', after', sameEnd, settledEnd, settledEnd'⟩ :=
    (Takes.read top after).replay settled settled' sameStart (skeletons_eq_of_kinds sameKinds)
  obtain ⟨t', accepted', sameTree⟩ := accepted?_replay settledEnd settledEnd' sameEnd accepted
  refine ⟨t', ⟨laid, d', ?_, accepted'⟩, sameTree⟩
  simpa using before.trans (extra.trans after')

/-- What only one token is spelled like is that token. -/
theorem eq_of_fits {after : Text} {v : Token} (h : z.Stands after) (some : z.body ≠ [])
    (only : ∀ u, Fits u z.body after → u = v) (noName : v ≠ .identifier) :
    z.token = v ∧ z.isKeyword = false := by
  rcases h.kind with ⟨-, none, -⟩ | ⟨-, -, u, fits, known⟩
  · exact absurd none some
  · obtain rfl := only u fits
    obtain ⟨rfl, isName⟩ := known.resolve_right fun ⟨isName, _⟩ => noName isName
    refine ⟨rfl, ?_⟩
    rw [← Bool.not_eq_true]
    exact fun isKeyword => noName (isName isKeyword)

/-- A piece that is no keyword is shown as its token. -/
theorem exists_leaf (h : Parses (ys ++ z :: zs) t) (full : t.IsFull) (visible : t.isVisible = true)
    (notEnd : z.token ≠ .eof) (noName : z.isKeyword = false) :
    ∃ n ∈ t.root.leaves, n.kind = .token z.token ∧
      n.start = (Piece.textOf ys ++ z.gap).extent ∧ n.stop = (Piece.textOf (ys ++ [z])).extent := by
  obtain ⟨n, mem, start, stop, u, kind, known⟩ := h.exists_node full visible notEnd
  obtain rfl := known.resolve_right (by simp [noName])
  exact ⟨n, mem, kind, start, stop⟩

/-- If no leaf over a slash is followed by one over a star, this is so for the pieces. -/
theorem apart (h : Parses pieces t) (full : t.IsFull) (visible : t.isVisible = true)
    (apart : ¬t.root.HasSlashStar) : Piece.Apart pieces := by
  rintro ys y z zs rfl isSlash gap isStar
  obtain ⟨others, body⟩ : ∃ others, z.body = star :: others := by
    cases body : z.body with
    | nil => simp [body] at isStar
    | cons g others =>
      rw [body] at isStar
      obtain rfl := Option.some.inj isStar
      exact ⟨others, rfl⟩
  obtain ⟨first, noName⟩ := eq_of_fits h.stands (v := .slash) (by simp [isSlash])
    (fun u fits => (isSlash ▸ fits).eq_slash) (by decide)
  have h' : Parses ((ys ++ [y]) ++ z :: zs) t := by simpa using h
  obtain ⟨second, noName'⟩ := eq_of_fits h'.stands (v := .star) (by simp [body])
    (fun u fits => (body ▸ fits).eq_star) (by decide)
  obtain ⟨m, inside, kind, -, stop⟩ := h.exists_leaf full visible (by simp [first]) noName
  obtain ⟨n, inside', kind', start, -⟩ := h'.exists_leaf full visible (by simp [second]) noName'
  refine apart ⟨m, inside, n, inside', first ▸ kind, second ▸ kind', ?_⟩
  rw [stop, start, gap, List.append_nil]

/-- A source with the pieces of another tree is read as a tree that is the same but for its comments. -/
theorem parse_of_skeleton {pieces' : List Piece} {source' : List UInt8} {t' : Tree}
    (parses' : Parses pieces' t') (whole : t.IsWhole (Text.decode source)) (clean : t.isClean = true)
    (same : t.skeleton true = t'.skeleton true) (text : Piece.textOf pieces' = Text.decode source') :
    (parse source').syntaxErrors = [] ∧ (parse source').root.form true = t.root.form true := by
  obtain ⟨clean', found⟩ := parses'.parse_eq text
  have whole' := isWhole_parse source'
  refine ⟨whole'.isClean_iff_syntaxErrors.mp clean', ?_⟩
  exact (whole.form_eq whole' clean clean' (same.trans (congrArg _ found.symm))).symm

/-- A block comment between blanks may be put in where a node begins or ends, but for the end of a
line comment. -/
theorem parse_insert_blockComment {c : List UInt8} (h : Parses pieces t)
    (text : Piece.textOf pieces = Text.decode source) (whole : t.IsWhole (Text.decode source))
    (clean : t.isClean = true) (apart : ¬t.root.HasSlashStar) {y : Node.Placed}
    (mem : y ∈ t.root.all) {p : Extent} (bound : p = y.node.start ∨ p = y.node.stop)
    (noLine : ∀ n ∈ t.root.leaves, n.kind = .token .lineComment → n.stop ≠ p)
    (open' : ¬[0x2A, 0x2F] <:+: c) (free : 0 ∉ c) :
    (parse (insertAt source p.bytes (blockComment c))).syntaxErrors = [] ∧
      (parse (insertAt source p.bytes (blockComment c))).root.form true = t.root.form true := by
  have full := h.isFull (text ▸ whole) clean
  obtain ⟨ys, z, zs, gap, gap', rfl, gaps, rfl, place⟩ := h.exists_cut full whole.isVisible mem bound
  have notFree := whole.nul_not_mem (whole.isClean_iff_syntaxErrors.mp clean)
  have split : Text.decode source = Piece.textOf ys ++ gap ++ (gap' ++ (z.body ++ Piece.textOf zs)) := by
    simp [← text, gaps]
  have decoded : Text.decode (insertAt source _ (blockComment c)) = Piece.textOf ys ++ gap ++
      ([space, slash, star] ++ Text.decode c ++ [star, slash, space] ++
        (gap' ++ (z.body ++ Piece.textOf zs))) :=
    Text.decode_insertAt_between split (by decide +kernel) (by decide) (by decide +kernel)
      (by simp; decide)
  have laid := h.laid.insert_blockComment (h.apart full whole.isVisible apart) gaps place
    (fun front x same none isLine => ?_) (Text.not_closes_decode open') (text ▸ notFree)
    (fun mem => free (Text.mem_of_char_mem (by decide) mem))
  · obtain ⟨t', parses', same⟩ := h.insert_comment laid rfl rfl rfl rfl
    exact parse_of_skeleton parses' whole clean same (by rw [decoded]; simp)
  · subst same
    have h' : Parses (front ++ x :: z :: zs) t := by simpa using h
    obtain ⟨n, inside, kind, -, stop⟩ := h'.exists_leaf full whole.isVisible (by simp [isLine])
      (h'.stands.of_lineComment isLine).1
    exact noLine n inside (isLine ▸ kind) (by simp [stop, none])

/-- A line comment may be put in where a line ends. -/
theorem parse_insert_lineComment {c : List UInt8} (h : Parses (ys ++ z :: zs) t)
    (text : Piece.textOf (ys ++ z :: zs) = Text.decode source) (whole : t.IsWhole (Text.decode source))
    (clean : t.isClean = true) (apart : ¬t.root.HasSlashStar)
    (ends : ∀ g ∈ (z.body ++ Piece.textOf zs).head?, g = lineBreak)
    (inLine : 0x0A ∉ c) (free : 0 ∉ c) {p : Extent} (place : p = (Piece.textOf ys ++ z.gap).extent) :
    (parse (insertAt source p.bytes (lineComment c))).syntaxErrors = [] ∧
      (parse (insertAt source p.bytes (lineComment c))).root.form true = t.root.form true := by
  subst place
  have apart' := h.apart (h.isFull (text ▸ whole) clean) whole.isVisible apart
  have notFree := text ▸ whole.nul_not_mem (whole.isClean_iff_syntaxErrors.mp clean)
  have split : Text.decode source = Piece.textOf ys ++ z.gap ++ (z.body ++ Piece.textOf zs) := by
    simp [← text]
  have decoded : Text.decode (insertAt source (Piece.textOf ys ++ z.gap).extent.bytes
      (lineComment c)) = Piece.textOf ys ++ z.gap ++
      ([space, slash, slash] ++ Text.decode c ++ [] ++ (z.body ++ Piece.textOf zs)) := by
    rw [lineComment, ← List.append_nil ([0x20, 0x2F, 0x2F] ++ c)]
    refine Text.decode_insertAt_between split (by decide +kernel) (by decide) nofun fun b ahead => ?_
    cases rest : z.body ++ Piece.textOf zs with
    | nil =>
      rw [rest] at ahead
      cases ahead
    | cons g others =>
      obtain rfl := ends g (by rw [rest]; rfl)
      rw [rest] at ahead
      obtain rfl := Option.some.inj ahead
      rfl
  have allInLine : ∀ g ∈ Text.decode c, isInLine g = true := by
    intro g mem
    rw [isInLine, Bool.and_eq_true, bne_iff_ne, Bool.not_eq_true', ← Bool.not_eq_true]
    refine ⟨?_, fun isBreak => ?_⟩
    · rintro rfl
      exact free (Text.mem_of_char_mem (by decide) mem)
    · obtain rfl : g = lineBreak := eq_of_beq isBreak
      exact inLine (Text.mem_of_char_mem (by decide) mem)
  have stops : ∀ g ∈ (z.body ++ Piece.textOf zs).head?, isInLine g = false := by
    intro g ahead
    rw [ends g ahead]
    rfl
  -- Where a line comment ends already, it is made longer.
  by_cases behindLine : ∃ front y, ys = front ++ [y] ∧ y.token = .lineComment
  · obtain ⟨front, y, rfl, isLine⟩ := behindLine
    rw [List.append_assoc, List.singleton_append] at h apart' notFree
    have none := (Piece.Laid.append_right h.laid).gap_eq_nil isLine
    have goesOn : ∀ g ∈ [space, slash, slash] ++ Text.decode c, isInLine g = true :=
      List.forall_mem_append.mpr ⟨by decide, allInLine⟩
    obtain ⟨t', parses', same⟩ := h.replay
      (h.laid.extend_lineComment apart' isLine goesOn notFree) (by simp [Piece.kind]) true
    exact parse_of_skeleton parses' whole clean same (by rw [decoded]; simp [none])
  · have laid := h.laid.insert_lineComment apart' (fun front y same isLine =>
      behindLine ⟨front, y, same, isLine⟩) allInLine stops notFree
    obtain ⟨t', parses', same⟩ := h.insert_comment laid rfl rfl rfl rfl
    exact parse_of_skeleton parses' whole clean same (by rw [decoded]; simp)

/-- A line ends before a leaf over a line break, and at the end of the source. -/
theorem exists_line_end (h : Parses pieces t) (text : Piece.textOf pieces = Text.decode source)
    (full : t.IsFull) (visible : t.isVisible = true) {p : Nat}
    (place : (∃ n ∈ t.root.leaves, n.kind = .token .newline ∧ p = n.start.bytes) ∨
      p = source.length) :
    ∃ ys z zs, pieces = ys ++ z :: zs ∧ p = (Piece.textOf ys ++ z.gap).extent.bytes ∧
      ∀ g ∈ (z.body ++ Piece.textOf zs).head?, g = lineBreak := by
  rcases place with ⟨n, mem, kind, rfl⟩ | rfl
  · obtain ⟨⟨x, inside, rfl⟩, -⟩ := Node.mem_leaves.mp mem
    obtain ⟨ys, z, mid, zs, rfl, start, -, token⟩ := h.exists_pieces full visible inside
    obtain ⟨rfl, known⟩ := token .newline kind
    have isBreak : Token.newline = z.token := known.resolve_right (by simp)
    have regroup : ys ++ [z] ++ zs = ys ++ z :: zs := by simp
    rw [regroup] at h text ⊢
    refine ⟨ys, z, zs, rfl, by rw [start], fun g ahead => ?_⟩
    have spelled : z.body.bytes = [0x0A] := by
      rcases h.stands.kind with ⟨isEnd, -⟩ | ⟨-, -, u, fits, known⟩
      · cases isBreak.trans isEnd
      · obtain ⟨rfl, -⟩ := known.resolve_right fun ⟨_, isKeyword⟩ =>
          absurd (isBreak ▸ isKeyword : Token.newline ∈ Token.keywords) (by decide)
        rw [← isBreak] at fits
        exact fits
    have keeps : Text.KeepsAscii (z.body ++ Piece.textOf zs) := by
      have whole := Text.keepsAscii_decode source
      rw [← text, Piece.textOf_append, Piece.textOf_cons] at whole
      exact (Text.keepsAscii_append.mp (Text.keepsAscii_append.mp whole).2).2
    obtain ⟨after, starts⟩ := Text.exists_char_ahead (b := 0x0A) keeps (by simp [spelled]) (by decide)
    rw [starts] at ahead
    exact (Option.some.inj ahead).symm
  · obtain ⟨front, last, rfl, -, none, -⟩ := h.exists_end
    refine ⟨front, last, [], rfl, ?_, by simp [none]⟩
    rw [← Text.bytes_decode source, Text.length_bytes, ← text]
    simp [none]

end Parses

end Plain

/-- Comments leave a tree as it is. In a source without errors where no slash is immediately followed by
a star, a block comment between blanks may be put in where a leaf begins or ends that is no line
comment, and a line comment behind a blank where a line ends: there are no errors then, and the tree
without its comments is the same. -/
theorem ignoresComments_parse (source : List UInt8) (clean : (parse source).syntaxErrors = [])
    (apart : ¬(parse source).root.HasSlashStar) :
    (∀ n ∈ (parse source).root.leaves, ∀ p, p = n.start.bytes ∨ p = n.stop.bytes →
      (∀ m ∈ (parse source).root.leaves, m.kind = .token .lineComment → m.stop.bytes ≠ p) →
      ∀ c : List UInt8, ¬[0x2A, 0x2F] <:+: c → 0 ∉ c →
        (parse (insertAt source p (blockComment c))).syntaxErrors = [] ∧
          (parse (insertAt source p (blockComment c))).root.form true =
            (parse source).root.form true) ∧
      ∀ p, (∃ n ∈ (parse source).root.leaves, n.kind = .token .newline ∧ p = n.start.bytes) ∨
          p = source.length →
        ∀ c : List UInt8, 0x0A ∉ c → 0 ∉ c →
          (parse (insertAt source p (lineComment c))).syntaxErrors = [] ∧
            (parse (insertAt source p (lineComment c))).root.form true =
              (parse source).root.form true := by
  have whole := isWhole_parse source
  have isClean := whole.isClean_iff_syntaxErrors.mpr clean
  obtain ⟨pieces, text, parses⟩ := exists_parses isClean
  constructor
  · intro n mem p bound noLine c open' free
    obtain ⟨⟨x, inside, rfl⟩, -⟩ := Node.mem_leaves.mp mem
    have notLine (q : Extent) (same : p = q.bytes) : ∀ m ∈ (parse source).root.leaves,
        m.kind = .token .lineComment → m.stop ≠ q := by
      rintro m mem kind rfl
      exact noLine m mem kind same.symm
    rcases bound with rfl | rfl
    · exact parses.parse_insert_blockComment text whole isClean apart inside (.inl rfl)
        (notLine _ rfl) open' free
    · exact parses.parse_insert_blockComment text whole isClean apart inside (.inr rfl)
        (notLine _ rfl) open' free
  · intro p place c inLine free
    have full := parses.isFull (text ▸ whole) isClean
    obtain ⟨ys, z, zs, rfl, rfl, ends⟩ := parses.exists_line_end text full whole.isVisible place
    exact parses.parse_insert_lineComment text whole isClean apart ends inLine free rfl

/-- Comments behind a slash with a star further on, and behind a line comment. -/
theorem ignoresComments_parse_quotient :
    (parse "module m{
a = b / *c // d
}".toUTF8.data.toList).syntaxErrors = [] ∧
      ¬(parse "module m{
a = b / *c // d
}".toUTF8.data.toList).root.HasSlashStar ∧
      (parse (insertAt "module m{
a = b / *c // d
}".toUTF8.data.toList 17 (blockComment "a*b".toUTF8.data.toList))).syntaxErrors = [] ∧
      (parse (insertAt "module m{
a = b / *c // d
}".toUTF8.data.toList 25 (lineComment "e".toUTF8.data.toList))).syntaxErrors = [] := by
  have clean : (parse "module m{
a = b / *c // d
}".toUTF8.data.toList).syntaxErrors = [] := by
    decide +kernel
  have apart : ¬(parse "module m{
a = b / *c // d
}".toUTF8.data.toList).root.HasSlashStar := by
    decide +kernel
  have leaf : ∃ n ∈ (parse "module m{
a = b / *c // d
}".toUTF8.data.toList).root.leaves, 17 = n.stop.bytes := by
    decide +kernel
  have noLine : ∀ m ∈ (parse "module m{
a = b / *c // d
}".toUTF8.data.toList).root.leaves, m.kind = .token .lineComment → m.stop.bytes ≠ 17 := by
    decide +kernel
  have lineEnd : ∃ n ∈ (parse "module m{
a = b / *c // d
}".toUTF8.data.toList).root.leaves, n.kind = .token .newline ∧ 25 = n.start.bytes := by
    decide +kernel
  obtain ⟨n, mem, stop⟩ := leaf
  obtain ⟨block, line⟩ := ignoresComments_parse _ clean apart
  exact ⟨clean, apart, (block n mem 17 (.inr stop) noLine _ (by decide) (by decide)).1,
    (line 25 (.inl lineEnd) _ (by decide) (by decide)).1⟩

end SusSyntax
