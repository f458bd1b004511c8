import SusSyntax.Proofs.Lexical.Pieces
import SusSyntax.Proofs.Parse.Agreement

/-!
Runs of the single stack, by the lexemes that they take.

What the machine does between two readings depends on the lexeme that it holds and not on the text
(`Works`). So a run takes a list of lexemes, each read for the state on top (`Takes`), and they are
what is read of the text, one behind the other (`run_iff`). In a run that accepts, all of them are
tokens and only the last one is the end of the text: the text falls into pieces, and it is accepted
just if there are pieces of it that the machine takes (`accepts_iff_pieces`).
-/

namespace SusSyntax.Plain

open Grammar Lexical

/-- A step of the machine with the lexeme that it has read. -/
inductive Works : Config → Config → Prop where
  | rename {frames : List Frame} {x : Lexeme} :
      Config.renames ⟨frames, some x⟩ x = true →
      Works ⟨frames, some x⟩ ⟨frames, some x.asIdentifier⟩
  | act {frames : List Frame} {x : Lexeme} {a : Action} {next : Config} :
      Config.renames ⟨frames, some x⟩ x = false →
      a ∈ ((topState frames).entry x.symbol).actions →
      Config.apply ⟨frames, some x⟩ x a = some next → Works ⟨frames, some x⟩ next

/-- From one configuration to another the machine takes these lexemes, each of them read for the
state on top. -/
inductive Takes : Config → List Lexeme → Config → Prop where
  | done {c : Config} : Takes c [] c
  | work {c d e : Config} {xs : List Lexeme} : Works c d → Takes d xs e → Takes c xs e
  | read {frames : List Frame} {x : Lexeme} {xs : List Lexeme} {d : Config} :
      x.state = topState frames → Takes ⟨frames, some x⟩ xs d → Takes ⟨frames, none⟩ (x :: xs) d

variable {text : Text} {c d e : Config} {frames : List Frame} {x y : Lexeme} {xs ys : List Lexeme}

theorem Takes.trans (h : Takes c xs d) (h' : Takes d ys e) : Takes c (xs ++ ys) e := by
  induction h with
  | done => exact h'
  | work works _ ih => exact .work works (ih h')
  | read state _ ih => exact .read state (ih h')

/-- Before it takes a lexeme the machine holds none. -/
theorem Takes.split (h : Takes c (xs ++ y :: ys) d) :
    ∃ frames, Takes c xs ⟨frames, none⟩ ∧ y.state = topState frames ∧
      Takes ⟨frames, some y⟩ ys d := by
  generalize same : xs ++ y :: ys = zs at h
  induction h generalizing xs with
  | done => cases xs <;> cases same
  | work works _ ih =>
    obtain ⟨frames, before, state, after⟩ := ih same
    exact ⟨frames, .work works before, state, after⟩
  | @read frames x zs d state takes ih =>
    cases xs with
    | nil =>
      obtain ⟨rfl, rfl⟩ := List.cons.inj same
      exact ⟨frames, .done, state, takes⟩
    | cons x' xs =>
      obtain ⟨rfl, later⟩ := List.cons.inj same
      obtain ⟨frames', before, state', after⟩ := ih later
      exact ⟨frames', .read state before, state', after⟩

/-! ### Lexemes of a text -/

/-- The lexemes are what is read of a text from a place on, one behind the other. -/
def Lexes (text : Text) : Extent → List Lexeme → Prop
  | _, [] => True
  | p, x :: xs => scan text x.state p = x ∧ Lexes text (p + x.extent) xs

/-- Where the last of some lexemes is read. -/
theorem Lexes.of_append {p : Extent} (h : Lexes text p (xs ++ ys)) :
    ∃ q, Lexes text q ys := by
  induction xs generalizing p with
  | nil => exact ⟨p, h⟩
  | cons x xs ih => exact ih h.2

/-- The place up to which the text was read. -/
def Config.stop (c : Config) : Extent :=
  endOf c.frames + (c.read?.map Lexeme.extent).getD .zero

theorem Works.stop_eq (h : Works c d) : d.stop = c.stop := by
  cases h with
  | rename => rfl
  | @act frames x a next _ _ applies =>
    cases apply_eq_some_iff.mp applies with
    | shift | shiftExtra =>
      simp [Config.stop, endOf, Lexeme.toTree, Lexeme.extent, Tree.extent, Tree.withExtra,
        Tree.padding, Tree.size]
    | reduce popped => rw [Config.stop, Config.stop, endOf_putNode popped]

theorem state_scan (text : Text) (s : State) (p : Extent) : (scan text s p).state = s := by
  rcases scan_cases text s p rfl with ⟨_, _, _, _, _, same⟩ | ⟨_, _, same⟩
  · rw [same, readable]
    split <;> rfl
  · rw [same]
    rfl

theorem step_iff {m : Move} : Step text c m d → Works c d ∨ ∃ frames, c = ⟨frames, none⟩ ∧
    d = ⟨frames, some (scan text (topState frames) (endOf frames))⟩ := by
  intro step
  cases step with
  | read => exact .inr ⟨_, rfl, rfl⟩
  | @rename _ x known renames =>
    obtain ⟨frames, read?⟩ := c
    obtain rfl : read? = some x := known
    exact .inl (.rename renames)
  | @act _ _ x a known stays admits applies =>
    obtain ⟨frames, read?⟩ := c
    obtain rfl : read? = some x := known
    exact .inl (.act stays admits applies)

theorem Works.step (h : Works c d) (text : Text) : ∃ m, Step text c m d := by
  cases h with
  | rename renames => exact ⟨_, .rename rfl renames⟩
  | act stays admits applies => exact ⟨_, .act rfl stays admits applies⟩

/-- A run takes the lexemes that are read of the text. -/
theorem run_iff : Run text c d ↔ ∃ xs, Takes c xs d ∧ Lexes text c.stop xs := by
  constructor
  · intro run
    induction run with
    | done => exact ⟨[], .done, trivial⟩
    | step step _ ih =>
      obtain ⟨xs, takes, lexes⟩ := ih
      rcases step_iff step with works | ⟨frames, rfl, rfl⟩
      · exact ⟨xs, .work works takes, works.stop_eq ▸ lexes⟩
      · refine ⟨_ :: xs, .read (state_scan ..) takes, ?_, ?_⟩
        · rw [state_scan, Config.stop, Option.map_none, Option.getD_none, Extent.add_zero]
        · rw [Config.stop, Option.map_none, Option.getD_none, Extent.add_zero]
          exact lexes
  · rintro ⟨xs, takes, lexes⟩
    induction takes with
    | done => exact .done
    | work works _ ih =>
      obtain ⟨m, step⟩ := works.step text
      exact .step step (ih (works.stop_eq.symm ▸ lexes))
    | @read frames x xs d state _ ih =>
      obtain ⟨same, lexes⟩ := lexes
      rw [Config.stop, Option.map_none, Option.getD_none, Extent.add_zero] at same lexes
      rw [state] at same
      subst same
      exact .step .read (ih lexes)

/-! ### Pieces -/

/-- What is taken by an action is a token. -/
theorem leaf_eq_of_act {p : Extent} {a : Action} {s : State} (isRead : x.IsReadAt text p)
    (admits : a ∈ (s.entry x.symbol).actions) :
    ∃ t, x.leaf = .read t ∧ a ∈ (s.row.entry t).actions := by
  obtain ⟨t, symbol, admits⟩ := State.exists_of_mem_entry admits
  exact ⟨t, Parse.leaf_eq_of_symbol (b := ⟨errorState, p, 0⟩) isRead symbol, admits⟩

/-- The machine goes on reading behind a token only, and it accepts at the end of the text only. -/
theorem Takes.leaf_eq {p : Extent} {t : Tree} {d : Config} (h : Takes ⟨frames, some x⟩ xs d)
    (isRead : x.IsReadAt text p) (accepted : d.accepted? = some t) :
    ∃ u, x.leaf = .read u ∧ (u = .eof ↔ xs = []) := by
  generalize same : (⟨frames, some x⟩ : Config) = c at h
  induction h generalizing frames x with
  | done =>
    obtain ⟨y, known, admits⟩ := Config.isAccepting_of_accepted? accepted
    subst same
    obtain rfl := Option.some.inj known
    obtain ⟨u, leaf, admits⟩ := leaf_eq_of_act isRead admits
    exact ⟨u, leaf, iff_of_true (State.accept_spec admits).1 rfl⟩
  | read => cases same
  | @work c c' _ xs works takes ih =>
    cases works with
    | @rename _ y renames =>
      obtain ⟨rfl, isSame⟩ := Config.mk.inj same
      obtain rfl := Option.some.inj isSame
      simp only [Config.renames, Bool.and_eq_true, bne_iff_ne] at renames
      obtain ⟨v, leaf', isEnd⟩ := ih (isRead.asIdentifier renames.1.1.2) accepted rfl
      obtain rfl : Token.identifier = v := Leaf.read.inj leaf'
      have more : xs ≠ [] := fun none => nomatch isEnd.mpr none
      obtain ⟨k, leaf, ne⟩ : ∃ k, x.leaf = .read k ∧ k ≠ .eof := by
        obtain ⟨s, rfl | ⟨-, rfl⟩⟩ := isRead
        · rcases leaf_of_isKeyword renames.1.1.2 with leaf | ⟨k, isKeyword, leaf, -⟩
          · exact ⟨_, leaf, nofun⟩
          · refine ⟨k, leaf, ?_⟩
            rintro rfl
            revert isKeyword
            decide
        · exact ⟨_, rfl, nofun⟩
      exact ⟨k, leaf, iff_of_false ne more⟩
    | @act _ y a next stays admits applies =>
      obtain ⟨rfl, isSame⟩ := Config.mk.inj same
      obtain rfl := Option.some.inj isSame
      obtain ⟨u, leaf, admits⟩ := leaf_eq_of_act isRead admits
      have taken {frames' : List Frame} (isNext : c' = ⟨frames', none⟩) : xs ≠ [] := by
        rintro rfl
        subst isNext
        cases takes with
        | done => cases accepted
        | work works => cases works
      cases apply_eq_some_iff.mp applies with
      | shift =>
        exact ⟨u, leaf, iff_of_false (State.ne_eof_of_shift admits) (taken rfl)⟩
      | shiftExtra =>
        refine ⟨u, leaf, iff_of_false ?_ (taken rfl)⟩
        rintro rfl
        cases State.isComment_of_shiftExtra admits
      | reduce => exact ih isRead accepted rfl

theorem isReadAt_of_lexes {p : Extent} (same : scan text x.state p = x) : x.IsReadAt text p :=
  ⟨x.state, .inl same.symm⟩

/-- The lexemes that are taken of a text up to its end are its pieces. -/
theorem Takes.exists_pieces {t : Tree} (fresh : Bool) (before : Text) {rest : Text}
    (h : Takes ⟨frames, none⟩ xs d) (accepted : d.accepted? = some t)
    (lexes : Lexes (before ++ rest) before.extent xs) (place : fresh = true ↔ before = []) :
    ∃ pieces, pieces.map Piece.lexeme = xs ∧ Piece.Laid fresh pieces ∧
      Piece.textOf pieces = rest := by
  induction xs generalizing frames fresh before rest with
  | nil =>
    cases h with
    | done => cases accepted
    | work works => cases works
  | cons x xs ih =>
    obtain ⟨frames', takes, -, after⟩ := @Takes.split _ _ _ [] _ h
    obtain ⟨same, lexes⟩ := lexes
    obtain ⟨u, leaf, isEnd⟩ := after.leaf_eq (isReadAt_of_lexes same) accepted
    obtain ⟨gap, rest, rfl, isGap⟩ := exists_gap fresh rest
    have place' : before.extent.bytes = 0 ↔ fresh = true :=
      ⟨fun none => place.mpr (Text.eq_nil_of_bytes_eq_zero none), fun isFresh => by
        rw [place.mp isFresh]
        rfl⟩
    have scanned := scan_eq x.state (begins_of_isGapBefore place' isGap)
    rw [same] at scanned
    cases reads : reading x.state rest with
    | none =>
      rw [reads] at scanned
      obtain ⟨stuck, unread⟩ := scanned
      rw [leaf] at unread
      cases unread
    | some found =>
      obtain ⟨u', k, size⟩ := found
      rw [reads] at scanned
      dsimp only at scanned
      obtain rfl : u' = u := by
        rw [scanned] at leaf
        exact Leaf.read.inj leaf
      rcases exists_of_reading isGap.1 reads with ⟨rfl, rfl, rfl, rfl⟩ |
        ⟨notEnd, v, body, after', rfl, rfl, -, ne, -⟩
      · obtain rfl := isEnd.mp rfl
        refine ⟨[⟨gap, [], .eof, false, x.state⟩], ?_, ⟨isGap, reads, by simp, trivial⟩, by simp⟩
        rw [List.map_singleton, scanned]
        rfl
      · cases xs with
        | nil => exact absurd (isEnd.mpr rfl) notEnd
        | cons y ys =>
          obtain ⟨frames'', _, state, goes⟩ := @Takes.split _ _ _ [] _ after
          rw [scanned] at lexes
          obtain ⟨pieces, same, laid, split⟩ := ih false (before ++ (gap ++ body)) (.read state goes)
            (by simpa [Lexeme.extent] using lexes) (by simp [ne])
          refine ⟨⟨gap, body, u', k, x.state⟩ :: pieces, ?_, ⟨?_, ?_, fun _ => ne, laid⟩, ?_⟩
          · rw [List.map_cons, same, scanned]
            rfl
          · rw [split]
            exact isGap
          · rw [split]
            exact reads
          · rw [Piece.textOf_cons, split]

/-- The lexemes of pieces are what is read of their text. -/
theorem lexes_of_laid {pieces : List Piece} {fresh : Bool} (before : Text)
    (h : Piece.Laid fresh pieces) (place : fresh = true ↔ before = []) :
    Lexes (before ++ Piece.textOf pieces) before.extent (pieces.map Piece.lexeme) := by
  induction pieces generalizing fresh before with
  | nil => trivial
  | cons x pieces ih =>
    obtain ⟨isGap, reads, some, laid⟩ := h
    have place' : before.extent.bytes = 0 ↔ fresh = true :=
      ⟨fun none => place.mpr (Text.eq_nil_of_bytes_eq_zero none), fun isFresh => by
        rw [place.mp isFresh]
        rfl⟩
    have scanned := scan_eq x.state (begins_of_isGapBefore place' isGap)
    rw [reads] at scanned
    refine ⟨by rw [Piece.textOf_cons]; exact scanned, ?_⟩
    cases pieces with
    | nil => trivial
    | cons y pieces =>
      have later := ih (before ++ (x.gap ++ x.body)) laid (by simp [some])
      simpa [Lexeme.extent, Piece.lexeme] using later

/-- A text is accepted just if there are pieces of it that the machine takes up to an acceptance. -/
theorem accepts_iff_pieces {t : Tree} : Accepts text t ↔ ∃ pieces d,
    Piece.textOf pieces = text ∧ Piece.Laid true pieces ∧
      Takes .initial (pieces.map Piece.lexeme) d ∧ d.accepted? = some t := by
  constructor
  · rintro ⟨d, run, accepted⟩
    obtain ⟨xs, takes, lexes⟩ := run_iff.mp run
    obtain ⟨pieces, rfl, laid, same⟩ := takes.exists_pieces true [] accepted lexes (by simp)
    exact ⟨pieces, d, same, laid, takes, accepted⟩
  · rintro ⟨pieces, d, rfl, laid, takes, accepted⟩
    have lexes := lexes_of_laid [] laid (by simp)
    exact ⟨d, run_iff.mpr ⟨_, takes, lexes⟩, accepted⟩

/-- The last of the pieces is the end of the text, and no other one is. -/
theorem exists_end {pieces : List Piece} {t : Tree} (laid : Piece.Laid true pieces)
    (takes : Takes .initial (pieces.map Piece.lexeme) d) (accepted : d.accepted? = some t) :
    ∃ front last, pieces = front ++ [last] ∧ last.token = .eof ∧ last.body = [] ∧
      ∀ x ∈ front, x.token ≠ .eof ∧ x.body ≠ [] := by
  rcases List.eq_nil_or_concat pieces with rfl | ⟨front, last, rfl⟩
  · cases takes with
    | done => cases accepted
    | work works => cases works
  rw [List.concat_eq_append] at *
  have stands (ys : List Piece) (x : Piece) (zs : List Piece)
      (same : front ++ [last] = ys ++ x :: zs) : x.Stands (Piece.textOf zs) :=
    Piece.Laid.stands (Piece.Laid.append_right (same ▸ laid))
  have isEnd : last.token = .eof := by
    rw [List.map_append, List.map_singleton] at takes
    obtain ⟨frames, -, -, after⟩ := takes.split
    have lexes := lexes_of_laid [] laid (by simp)
    rw [List.map_append, List.map_singleton] at lexes
    obtain ⟨_, same, -⟩ := Lexes.of_append lexes
    obtain ⟨u, leaf, ends⟩ := after.leaf_eq (isReadAt_of_lexes same) accepted
    obtain rfl := Leaf.read.inj leaf
    exact ends.mpr rfl
  refine ⟨front, last, rfl, isEnd, ?_, fun x mem => ?_⟩
  · rcases (stands front last [] rfl).kind with ⟨-, body, -⟩ | ⟨ne, -⟩
    · exact body
    · exact absurd isEnd ne
  · obtain ⟨ys, zs, rfl⟩ := List.append_of_mem mem
    have laid' : Piece.Laid _ (x :: (zs ++ [last])) :=
      Piece.Laid.append_right (show Piece.Laid true (ys ++ x :: (zs ++ [last])) by simpa using laid)
    have some : x.body ≠ [] := laid'.2.2.1 (by simp)
    rcases laid'.stands.kind with ⟨-, none, -⟩ | ⟨ne, -⟩
    · exact absurd none some
    · exact ⟨ne, some⟩

end SusSyntax.Plain
