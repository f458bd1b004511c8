import SusSyntax.Proofs.Parse.Extras
import SusSyntax.Proofs.Parse.Truncation
import SusSyntax.Proofs.Parse.Twins

/-!
Sources one behind the other.

Between objects all states read in the same way, so what is read for a stack is read for another one with
the same object begun (`Twin.reading`), piece by piece (`Twin.takes_pieces`). And a line break between two
sources belongs to neither (`Laid.join`). So a source may follow another one on a new line
(`composes_parse`).
-/

namespace SusSyntax

open Grammar Lexical

namespace Plain

variable {frames frames' more : List Frame} {u : Token} {x : Lexeme} {before : List Tree}

/-! ### Readings -/

theorem IsTop.exists_action (h : IsTop frames) (takes : Takes ⟨frames, some x⟩ [] ⟨more, none⟩)
    (leaf : x.leaf = .read u) : ∃ a, a ∈ ((topState frames).row.entry u).actions := by
  cases takes with
  | work works _ =>
    rcases works.cases_of_leaf leaf with ⟨-, -, -, goesOn, -⟩ | ⟨n, admits, -⟩ | ⟨admits, -⟩ |
      ⟨rule, size, layout, trees, left, target, admits, -⟩
    · obtain ⟨a, known⟩ := List.exists_mem_of_ne_nil _ goesOn
      exact absurd rfl (State.word_of_mem h.mem_tops known).1
    · exact ⟨_, admits⟩
    · exact ⟨_, admits⟩
    · exact ⟨_, admits⟩

/-- What is taken on one of the stacks is read in the same way for the other one. -/
theorem Twin.reading {rest : Text} {k : Bool} {size : Extent} (twin : Twin before frames frames')
    (takes : Takes ⟨frames, some x⟩ [] ⟨more, none⟩) (leaf : x.leaf = .read u)
    (notBlank : ∀ g ∈ rest.head?, Guard.blank.admits g = false)
    (reads : Lexical.reading (topState frames) rest = some (u, k, size)) :
    Lexical.reading (topState frames') rest = some (u, k, size) := by
  cases twin with
  | between top top' opened =>
    obtain ⟨a, known⟩ := top.exists_action takes leaf
    obtain ⟨notName, keyword⟩ := State.word_of_mem top.mem_tops known
    refine reading_of_lexMode ?_ notBlank reads notName fun isKeyword => ?_
    · rw [(State.isTopState_of_mem top.mem_tops).2.1, (State.isTopState_of_mem top'.mem_tops).2.1]
    · obtain ⟨word, isOpen⟩ := keyword isKeyword
      exact (State.isTopState_of_mem top'.mem_tops).2.2.1 (opened.trans isOpen) _ word
  | @inside inner outer outer' isInside =>
    rwa [isInside.topState_eq outer outer']

/-- Before the next lexeme is read the one before it is taken. -/
theorem Takes.exists_taken {xs : List Lexeme} (h : Takes ⟨frames, some x⟩ xs ⟨more, none⟩) :
    ∃ mid, Takes ⟨frames, some x⟩ [] ⟨mid, none⟩ ∧ Takes ⟨mid, none⟩ xs ⟨more, none⟩ := by
  cases xs with
  | nil => exact ⟨more, h, .done⟩
  | cons y ys =>
    obtain ⟨mid, taken, state, takes⟩ := @Takes.split _ _ _ [] _ h
    exact ⟨mid, taken, .read state takes⟩

/-- Pieces that are taken on one of the stacks are taken on the other one, with the states that they are
read in there. -/
theorem Twin.takes_pieces {zs : List Piece} (twin : Twin before frames frames')
    (h : Takes ⟨frames, none⟩ (zs.map Piece.lexeme) ⟨more, none⟩) (grounded : Grounded frames)
    (notEnd : ∀ z ∈ zs, z.token ≠ .eof) :
    ∃ zs' more', Takes ⟨frames', none⟩ (zs'.map Piece.lexeme) ⟨more', none⟩ ∧ Twin before more more' ∧
      Piece.textOf zs' = Piece.textOf zs ∧
      ∀ fresh rest, Piece.Laid fresh (zs ++ rest) → Piece.Laid fresh (zs' ++ rest) := by
  induction zs generalizing frames frames' with
  | nil =>
    obtain rfl := (Config.mk.inj h.eq_of_none).1
    exact ⟨[], frames', .done, twin, rfl, fun _ _ laid => laid⟩
  | cons z zs ih =>
    obtain ⟨first, others⟩ := List.forall_mem_cons.mp notEnd
    obtain ⟨start, none, state, takes⟩ := @Takes.split _ _ _ [] _ h
    obtain rfl : frames = start := (Config.mk.inj none.eq_of_none).1.symm
    have state : z.state = topState frames := state
    obtain ⟨mid, taken, takes⟩ := takes.exists_taken
    obtain ⟨mid', taken', twin'⟩ := twin.takes (s := topState frames') taken grounded rfl first
    obtain ⟨zs', more', takes', twinEnd, text, relaid⟩ :=
      ih twin' takes (taken.grounded grounded) others
    let z' : Piece := { z with state := topState frames' }
    have split : Takes ⟨frames', Option.none⟩ ([] ++ z'.lexeme :: ([] ++ zs'.map Piece.lexeme))
        ⟨more', Option.none⟩ := .read rfl (taken'.trans takes')
    refine ⟨z' :: zs', more', split, twinEnd, by simp [z', text], fun fresh rest laid => ?_⟩
    have some : z.body ≠ [] := by
      rcases (Piece.Laid.stands laid).kind with ⟨isEnd, -⟩ | ⟨-, ne, -⟩
      · exact absurd isEnd first
      · exact ne
    obtain ⟨isGap, reads, -, later⟩ := laid
    have same : Piece.textOf (zs' ++ rest) = Piece.textOf (zs ++ rest) := by simp [text]
    have reads' := twin.reading taken rfl isGap.1 (state ▸ reads)
    exact ⟨same.symm ▸ isGap, same.symm ▸ reads', fun _ => some, relaid false rest later⟩

end Plain

/-! ### Seams -/

namespace Lexical.Piece

variable {fresh : Bool} {ys zs zs' : List Piece} {y z : Piece}

/-- Pieces stay what they were where others with the same text follow. -/
theorem Laid.replace_of_text (h : Laid fresh (ys ++ zs)) (some : zs ≠ [])
    (h' : Laid (fresh && ys.isEmpty) zs') (same : textOf zs' = textOf zs) : Laid fresh (ys ++ zs') := by
  refine h.replace some h' fun front y back _ m _ ends => ?_
  rwa [textOf_append, same, ← textOf_append]

/-- A text that does not begin with a byte order mark may stand behind another one. -/
theorem Laid.behind (h : Laid true zs) (noMark : (textOf zs).head? ≠ some Glyph.byteOrderMark) :
    Laid false zs := by
  cases zs with
  | nil => trivial
  | cons z zs =>
    obtain ⟨⟨notBlank, ⟨blank, -⟩ | ⟨-, blanks, isGap, -⟩⟩, others⟩ := h
    · exact ⟨⟨notBlank, .inl ⟨blank, nofun⟩⟩, others⟩
    · rw [textOf_cons, isGap] at noMark
      exact absurd rfl noMark

/-- Behind a text in which no slash is followed by a star another one may stand on a new line. -/
theorem Laid.join (h : Laid fresh (ys ++ [y])) (isEnd : y.body = []) (apart : Apart (ys ++ [y]))
    (h' : Laid false zs) (s : State) (free : nul ∉ textOf (ys ++ [y])) (free' : nul ∉ textOf zs) :
    Laid fresh (ys ++ ⟨y.gap, [lineBreak], .newline, false, s⟩ :: zs) := by
  obtain ⟨⟨-, isGap⟩, -⟩ := h.append_right
  refine h.replace_of_apart apart (List.cons_ne_nil _ _)
    ⟨⟨?_, ?_⟩, reading_lineBreak s _, fun _ => List.cons_ne_nil _ _, h'⟩ ?_ ?_
  · intro g ahead
    obtain rfl := Option.some.inj ahead
    rfl
  · refine isGap.imp_left fun ⟨blank, noMark⟩ => ⟨blank, fun isFresh => ?_⟩
    have noMark := noMark isFresh
    cases gap : y.gap with
    | nil => exact nofun
    | cons g gap =>
      rw [gap] at noMark
      exact noMark
  · simp only [textOf_append, textOf_cons, textOf_nil, isEnd, List.append_nil, List.mem_append,
      not_or] at free ⊢
    exact ⟨free.1, free.2, by decide, free'⟩
  · rintro front x rfl m mayEnd -
    rw [textOf_cons]
    cases gap : y.gap with
    | nil => exact mayEnd.ends_of_break rfl (fun _ => rfl) _
    | cons g gap' =>
      have last : Laid _ (x :: [y]) :=
        Laid.append_right (show Laid fresh (front ++ x :: [y]) by simpa using h)
      have blank : IsBlank y.gap := last.2.2.2.1.isBlank
      rw [gap] at blank
      refine mayEnd.ends_of_break (isBreak_of_blank (blank g List.mem_cons_self)) (fun isLine => ?_) _
      rw [last.gap_eq_nil isLine] at gap
      cases gap

end Lexical.Piece

namespace Plain.Parses

variable {piecesA piecesB : List Piece} {a b : Tree}

/-- Behind the pieces of a source those of another one are taken on a new line, and the objects of the one
are followed by those of the other one. -/
theorem compose (h : Parses piecesA a) (h' : Parses piecesB b) (apart : Piece.Apart piecesA)
    (noMark : (Piece.textOf piecesB).head? ≠ some Glyph.byteOrderMark)
    (free : nul ∉ Piece.textOf piecesA) (free' : nul ∉ Piece.textOf piecesB) :
    ∃ pieces c, Parses pieces c ∧
      Piece.textOf pieces = Piece.textOf piecesA ++ lineBreak :: Piece.textOf piecesB ∧
      Tree.objectsOf c.children = Tree.objectsOf a.children ++ Tree.objectsOf b.children := by
  obtain ⟨ys, y, rfl, isEnd, noBody, notEnd⟩ := h.exists_end
  obtain ⟨zs, z, rfl, isEnd', noBody', notEnd'⟩ := h'.exists_end
  have noName {x : Piece} (stands : x.Stands []) (isEnd : x.token = .eof) : x.isKeyword = false := by
    rcases stands.kind with ⟨-, -, -, noName⟩ | ⟨ne, -⟩
    · exact noName
    · exact absurd isEnd ne
  obtain ⟨d, takes, accepted⟩ := h.takes
  obtain ⟨d', takes', accepted'⟩ := h'.takes
  rw [List.map_append, List.map_singleton] at takes takes'
  obtain ⟨frames, before, -, ends⟩ := takes.split
  obtain ⟨frames', before', -, ends'⟩ := takes'.split
  -- The first source, up to its end.
  have begins : Twin [] [] [] := .between trivial trivial rfl rfl
  obtain ⟨ys', mid, taken, twin, text, relaid⟩ :=
    begins.takes_pieces before trivial fun x mem => (notEnd x mem).1
  obtain ⟨closed, folds, top, objects⟩ := twin.close (v := .newline) ends accepted
    (before.grounded trivial) (congrArg Leaf.read isEnd) (noName h.stands isEnd) (.inr rfl)
  -- The line break between the sources.
  let line : Piece := ⟨y.gap, [lineBreak], .newline, false, topState mid⟩
  obtain ⟨next, break', topNext, objectsNext, opened⟩ := top.exists_break (x := line.lexeme) rfl
  have goesOn : Twin (Tree.objectsOf a.children) [] next := by
    refine .between trivial topNext opened ?_
    rw [objectsNext, objects]
    exact (List.append_nil _).symm
  -- The second source, up to its end.
  obtain ⟨zs', mid', taken', twin', text', relaid'⟩ :=
    goesOn.takes_pieces before' trivial fun x mem => (notEnd' x mem).1
  obtain ⟨closed', folds', top', objects'⟩ := twin'.close (v := .eof) ends' accepted'
    (before'.grounded trivial) (congrArg Leaf.read isEnd') (noName h'.stands isEnd') (.inl rfl)
  let last : Piece := .ending z.gap (topState mid')
  obtain ⟨e, c, end', accepts, objectsEnd⟩ := top'.exists_end (x := last.lexeme) rfl
  have sameText : Piece.textOf (zs ++ [last]) = Piece.textOf (zs ++ [z]) := by
    simp [last, Piece.ending, noBody']
  have behind : Piece.Laid false (zs' ++ [last]) := by
    have laid := h'.laid.behind noMark
    obtain ⟨isGap, -⟩ := laid.append_right
    rw [noBody'] at isGap
    have laidLast : Piece.Laid (false && zs.isEmpty) [last] :=
      ⟨isGap, Piece.reading_nil _, fun more => absurd rfl more, trivial⟩
    exact relaid' false [last]
      (laid.replace_of_text (by simp) laidLast (by simp [last, Piece.ending, noBody']))
  refine ⟨ys' ++ line :: (zs' ++ [last]), c, ⟨relaid true _ ?_, e, ?_, accepts⟩, ?_, ?_⟩
  · refine h.laid.join noBody apart behind _ free ?_
    rwa [Piece.textOf_append, text', ← Piece.textOf_append, sameText]
  · have takesEnd : Takes ⟨mid', none⟩ [last.lexeme] e := .read rfl ((folds'.works rfl).trans end')
    have takesLine : Takes ⟨mid, none⟩ [line.lexeme] ⟨next, none⟩ :=
      .read rfl ((folds.works rfl).trans break')
    simpa [Config.initial] using taken.trans (takesLine.trans (taken'.trans takesEnd))
  · simp [text, text', last, Piece.ending, line, noBody, noBody']
  · rw [objectsEnd, objects']

end Plain.Parses

/-! ### Sources -/

/-- The bytes of a byte order mark. -/
def markBytes : List UInt8 :=
  [0xEF, 0xBB, 0xBF]

theorem head?_decode_ne {source : List UInt8} (noMark : ¬markBytes <+: source) :
    (Text.decode source).head? ≠ some Glyph.byteOrderMark := by
  intro mark
  cases read : Text.decode source with
  | nil =>
    rw [read] at mark
    cases mark
  | cons g text =>
    rw [read] at mark
    obtain rfl := Option.some.inj mark
    obtain ⟨rest, rfl, -⟩ := Text.decode_eq_cons read
    exact noMark ⟨rest, rfl⟩

/-- A source is read as before where another one follows on a new line. -/
theorem decode_join (a b : List UInt8) :
    Text.decode (a ++ [0x0A] ++ b) = Text.decode a ++ lineBreak :: Text.decode b := by
  have start : ∀ x ∈ ([0x0A] ++ b).head?, Utf8.isContinuation x = false := by
    intro x ahead
    obtain rfl := Option.some.inj ahead
    rfl
  have known : Text.decode ((Text.decode a).bytes ++ ([0x0A] ++ b)) = _ :=
    Text.decode_append (List.append_nil (Text.decode a)).symm (.inl start)
  rw [Text.bytes_decode] at known
  rw [List.append_assoc, known, Text.decode_ascii (by simp)]
  rfl

/-- Sources compose. Of two sources without errors the second one may follow the first one on a new line:
there are no errors then, and the items are those of the one followed by those of the other one. In the
first one no slash may be immediately followed by a star, and the second one may not begin with a byte
order mark. -/
theorem composes_parse (a b : List UInt8) (clean : (parse a).syntaxErrors = [])
    (clean' : (parse b).syntaxErrors = []) (apart : ¬(parse a).root.HasSlashStar)
    (noMark : ¬markBytes <+: b) :
    (parse (a ++ [0x0A] ++ b)).syntaxErrors = [] ∧
      (parse (a ++ [0x0A] ++ b)).root.items = (parse a).root.items ++ (parse b).root.items := by
  have whole := isWhole_parse a
  have whole' := isWhole_parse b
  have isClean := whole.isClean_iff_syntaxErrors.mpr clean
  have isClean' := whole'.isClean_iff_syntaxErrors.mpr clean'
  obtain ⟨pieces, text, parses⟩ := exists_parses isClean
  obtain ⟨pieces', text', parses'⟩ := exists_parses isClean'
  have full := parses.isFull (text ▸ whole) isClean
  obtain ⟨joined, t, parsesJoined, textJoined, objects⟩ := parses.compose parses'
    (parses.apart full whole.isVisible apart) (text' ▸ head?_decode_ne noMark)
    (text ▸ whole.nul_not_mem clean) (text' ▸ whole'.nul_not_mem clean')
  rw [text, text', ← decode_join] at textJoined
  obtain ⟨cleanJoined, found⟩ := parsesJoined.parse_eq textJoined
  have wholeJoined := isWhole_parse (a ++ [0x0A] ++ b)
  refine ⟨wholeJoined.isClean_iff_syntaxErrors.mp cleanJoined, ?_⟩
  rw [wholeJoined.items_eq cleanJoined, whole.items_eq isClean, whole'.items_eq isClean', found, objects,
    List.map_append]

/-- A module before a line comment, and a constant behind a blank line. -/
theorem composes_parse_comment :
    (parse "module m{
} // m".toUTF8.data.toList).syntaxErrors = [] ∧
      (parse "
const int c{
}".toUTF8.data.toList).syntaxErrors = [] ∧
      (parse "module m{
} // m

const int c{
}".toUTF8.data.toList).syntaxErrors = [] ∧
      (parse "module m{
} // m

const int c{
}".toUTF8.data.toList).root.items =
        ["(global_object name: (identifier) block: (block))",
          "(global_object object_type: (const_and_type const_type: (template_global namespace_list: (namespace_list item: (identifier)))) name: (identifier) block: (block))"] := by
  have clean : (parse "module m{
} // m".toUTF8.data.toList).syntaxErrors = [] := by
    decide +kernel
  have clean' : (parse "
const int c{
}".toUTF8.data.toList).syntaxErrors = [] := by
    decide +kernel
  have apart : ¬(parse "module m{
} // m".toUTF8.data.toList).root.HasSlashStar := by
    decide +kernel
  have noMark : ¬markBytes <+: "
const int c{
}".toUTF8.data.toList := by
    decide
  have joined : "module m{
} // m".toUTF8.data.toList ++ [0x0A] ++ "
const int c{
}".toUTF8.data.toList = "module m{
} // m

const int c{
}".toUTF8.data.toList := by
    decide
  obtain ⟨cleanJoined, items⟩ := composes_parse _ _ clean clean' apart noMark
  rw [joined] at cleanJoined items
  refine ⟨clean, clean', cleanJoined, items.trans ?_⟩
  decide +kernel

end SusSyntax
