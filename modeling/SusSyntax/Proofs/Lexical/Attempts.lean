import SusSyntax.Proofs.Lexical.Modes

/-!
Reading always comes to an end, and always gets on.

A lexeme is read by runs of the token automaton, one after another (`attempt`): as the state asks,
then as where anything may stand, and then, while text is left out, again and again from where the
last run got stuck. Each run that fails there leaves less to read (`exists_leave`), and at the end of
the text no run fails. So the runs are no more than the bytes ahead and two (`attempts_scan`).
-/

namespace SusSyntax.Lexical

open Grammar

/-! ### One run after another -/

/-- How far reading has come: a run is to be made as the state asks, or as where anything may stand,
or from the cursor on, behind text that is left out from `start` on. -/
inductive Stage where
  | asked
  | anything
  | leaving (stuck : Option Glyph) (start : Extent) (c : Cursor)

/-- How reading ends: a run accepted something, or the text was at its end where one failed. -/
inductive Ending where
  | reads (x : Lexeme)
  | runsOut (x : Lexeme)

/-- The lexeme of text that was left out between two places. -/
def leftOut (s : State) (p : Extent) (stuck : Option Glyph) (start stop : Extent) : Lexeme :=
  ⟨.unread stuck, start - p, stop - start, false, s⟩

section

variable (text : Text) (s : State) (p : Extent)

/-- What follows a run that failed, where the text up to `stop` has been left out: the next run is
made from where this one got stuck, or one glyph further if it did not get on. -/
def leave (stuck : Option Glyph) (start stop : Extent) (failed : Run) : Stage ⊕ Ending :=
  if failed.stop.pos.bytes = stop.bytes then
    if failed.stop.atEnd then .inr (.runsOut (leftOut s p stuck start stop))
    else .inl (.leaving stuck start failed.stop.advance)
  else .inl (.leaving stuck start failed.stop)

/-- What follows a run as where anything may stand that failed. -/
def beginLeaving (failed : Run) : Stage ⊕ Ending :=
  leave s p failed.stop.rest.head? failed.start failed.start failed

/-- Makes one run. In the error state there is no difference between the first two stages. -/
def attempt : Stage → Stage ⊕ Ending
  | .asked =>
    let run := runMode s.lexMode (.ofPosition text p)
    match run.accepted with
    | some (t, stop) => .inr (.reads (readable text s (.ofPosition text p) run.start t stop.pos))
    | none => if s = errorState then beginLeaving s p run else .inl .anything
  | .anything =>
    let run := runMode .anything (.ofPosition text p)
    match run.accepted with
    | some (t, stop) => .inr (.reads (readable text s (.ofPosition text p) run.start t stop.pos))
    | none => beginLeaving s p run
  | .leaving stuck start c =>
    let run := runMode .anything c
    if run.accepted.isSome then .inr (.reads (leftOut s p stuck start c.pos))
    else leave s p stuck start c.pos run

/-- From a stage on, so many runs lead to an ending. -/
inductive Attempts : Stage → Nat → Ending → Prop where
  | last {stage : Stage} {ending : Ending} : attempt text s p stage = .inr ending →
      Attempts stage 1 ending
  | next {stage stage' : Stage} {n : Nat} {ending : Ending} :
      attempt text s p stage = .inl stage' → Attempts stage' n ending →
      Attempts stage (n + 1) ending

end

variable {text : Text} {s : State} {p : Extent}

theorem Attempts.unique {stage : Stage} {n m : Nat} {ending ending' : Ending}
    (h : Attempts text s p stage n ending) (h' : Attempts text s p stage m ending') :
    m = n ∧ ending' = ending := by
  induction h generalizing m with
  | last ends =>
    cases h' with
    | last ends' => exact ⟨rfl, Sum.inr.inj (ends'.symm.trans ends)⟩
    | next goesOn => cases goesOn.symm.trans ends
  | next goesOn _ ih =>
    cases h' with
    | last ends => cases ends.symm.trans goesOn
    | next goesOn' rest =>
      obtain rfl := Sum.inl.inj (goesOn'.symm.trans goesOn)
      obtain ⟨rfl, rfl⟩ := ih rest
      exact ⟨rfl, rfl⟩

/-! ### Leaving out text -/

/-- Where anything may stand, the end of the text can be read, so a run that fails has text ahead. -/
theorem rest_ne_nil_of_failed {c : Cursor} (failed : (runMode .anything c).accepted = none) :
    c.tokenStart.rest ≠ [] := by
  rw [runMode_eq] at failed
  generalize c.tokenStart = d at failed ⊢
  obtain ⟨pos, rest⟩ := d
  rintro rfl
  cases failed

/-- A run gets stuck where the token begins, or further on. -/
theorem runMode_reaches (mode : LexMode) (c : Cursor) :
    (runMode mode c).start = c.tokenStart.pos ∧
      ∃ between, c.tokenStart.Reaches between (runMode mode c).stop := by
  obtain ⟨gap, d, -, toStart, start, ⟨between, toStop⟩, -⟩ := runMode_spec mode c
  obtain ⟨gap', -, toStart', notBlank⟩ := c.tokenStart_spec
  have begins : (runMode mode c).start = c.tokenStart.pos := by
    rw [runMode_eq, tokenRun_start notBlank]
  obtain rfl : d = c.tokenStart :=
    toStart.unique toStart' (congrArg Extent.bytes (start.symm.trans begins))
  exact ⟨begins, between, toStop⟩

theorem le_start (mode : LexMode) (c : Cursor) : c.pos.bytes ≤ (runMode mode c).start.bytes := by
  obtain ⟨gap, -, toStart, -⟩ := c.tokenStart_spec
  rw [(runMode_reaches mode c).1]
  exact toStart.bytes_le

/-- Behind a run that failed reading goes on, and further on than before. -/
theorem exists_leave {c : Cursor} {stop : Extent}
    (failed : (runMode .anything c).accepted = none) (behind : c.pos.bytes ≤ stop.bytes)
    (ahead : stop.bytes ≤ (runMode .anything c).start.bytes) (s : State) (p : Extent)
    (stuck : Option Glyph) (start : Extent) :
    ∃ c', leave s p stuck start stop (runMode .anything c) = .inl (.leaving stuck start c') ∧
      stop.bytes < c'.pos.bytes ∧ c'.rest.length < c.rest.length := by
  obtain ⟨begins, between, toStop⟩ := runMode_reaches .anything c
  obtain ⟨gap, -, toStart, -⟩ := c.tokenStart_spec
  have further := toStop.bytes_le
  rw [leave]
  split
  · rename_i stays
    have same : (runMode .anything c).stop = c.tokenStart :=
      toStop.unique (.refl _) (by rw [begins] at ahead; omega)
    obtain ⟨g, rest, isRest⟩ := List.exists_cons_of_ne_nil (rest_ne_nil_of_failed failed)
    have notEnd : (runMode .anything c).stop.atEnd = false := by
      rw [Cursor.atEnd, same, isRest]
      rfl
    obtain ⟨passed, toNext⟩ := (runMode .anything c).stop.reaches_advance
    have gained : stop.bytes < (runMode .anything c).stop.advance.pos.bytes := by
      have := g.width_pos
      rw [Cursor.advance, ← stays, same, isRest]
      simpa using this
    rw [notEnd]
    exact ⟨_, rfl, gained, ((toStart.trans toStop).trans toNext).length_lt (by omega)⟩
  · rename_i moves
    rw [begins] at ahead
    exact ⟨_, rfl, by omega, (toStart.trans toStop).length_lt (by omega)⟩

theorem unreadableEnd_of_accepted {c : Cursor}
    (accepted : (runMode .anything c).accepted.isSome = true) (fuel : Nat) :
    unreadableEnd fuel c = c.pos := by
  cases fuel with
  | zero => rfl
  | succ fuel => simp only [unreadableEnd, accepted, if_true]

/-- What is left out ends where reading comes to by runs. -/
theorem unreadableEnd_of_leave {c c' : Cursor} {stuck : Option Glyph} {start : Extent}
    (failed : (runMode .anything c).accepted = none)
    (left : leave s p stuck start c.pos (runMode .anything c) = .inl (.leaving stuck start c'))
    (fuel : Nat) : unreadableEnd (fuel + 1) c = unreadableEnd fuel c' := by
  rw [leave] at left
  simp only [unreadableEnd, failed, Option.isSome_none, Bool.false_eq_true, if_false]
  split at left
  · rename_i stays
    obtain ⟨-, between, toStop⟩ := runMode_reaches .anything c
    obtain ⟨gap, -, toStart, -⟩ := c.tokenStart_spec
    have same : (runMode .anything c).stop = c := (toStart.trans toStop).unique (.refl c) stays
    rw [same] at left
    rw [if_pos stays]
    split at left
    · cases left
    · rename_i notEnd
      cases left
      rw [if_neg notEnd]
  · rename_i moves
    cases left
    rw [if_neg moves]

/-- Leaving out text goes on until something can be read, in no more runs than there are glyphs
ahead and one. -/
theorem exists_attempts_leaving (text : Text) (s : State) (p : Extent) (stuck : Option Glyph)
    (start : Extent) {fuel : Nat} {c : Cursor} (enough : c.rest.length ≤ fuel) :
    ∃ n ≤ c.rest.length + 1, Attempts text s p (.leaving stuck start c) n
      (.reads (leftOut s p stuck start (unreadableEnd fuel c))) := by
  have reads {c : Cursor} (accepted : (runMode .anything c).accepted.isSome = true) (fuel : Nat) :
      Attempts text s p (.leaving stuck start c) 1
        (.reads (leftOut s p stuck start (unreadableEnd fuel c))) := by
    rw [unreadableEnd_of_accepted accepted]
    exact .last (if_pos accepted)
  induction fuel generalizing c with
  | zero =>
    have accepted : (runMode .anything c).accepted.isSome = true := by
      rw [← Option.ne_none_iff_isSome]
      intro failed
      obtain ⟨c', -, -, shorter⟩ :=
        exists_leave failed (Nat.le_refl _) (le_start _ c) s p stuck start
      omega
    exact ⟨1, by omega, reads accepted 0⟩
  | succ fuel ih =>
    cases accepted : (runMode .anything c).accepted with
    | some found => exact ⟨1, by omega, reads (by rw [accepted]; rfl) _⟩
    | none =>
      obtain ⟨c', left, -, shorter⟩ :=
        exists_leave accepted (Nat.le_refl _) (le_start _ c) s p stuck start
      obtain ⟨n, few, rest⟩ := ih (c := c') (by omega)
      rw [unreadableEnd_of_leave accepted left]
      refine ⟨n + 1, by omega, .next ?_ rest⟩
      simp only [attempt, accepted, Option.isSome_none, Bool.false_eq_true, if_false, left]

/-- The lexeme of unreadable text is what leaving out text comes to. -/
theorem unreadable_of_leave {c c' : Cursor} {failed : Run}
    (left : leave s p failed.stop.rest.head? failed.start failed.start failed =
      .inl (.leaving failed.stop.rest.head? failed.start c')) :
    unreadable s c failed = leftOut s c.pos failed.stop.rest.head? failed.start
        (unreadableEnd (failed.stop.rest.length + 1) c') ∧
      c'.rest.length ≤ failed.stop.rest.length := by
  rw [leave] at left
  rw [unreadable]
  split at left
  · rename_i stays
    rw [if_pos stays]
    split at left
    · cases left
    · rename_i notEnd
      cases left
      rw [if_neg notEnd]
      refine ⟨rfl, ?_⟩
      obtain ⟨passed, toNext⟩ := failed.stop.reaches_advance
      rw [toNext.1, List.length_append]
      exact Nat.le_add_left ..
  · rename_i moves
    cases left
    rw [if_neg moves]
    exact ⟨rfl, Nat.le_refl _⟩

/-- Where the first run as anything fails, text is left out, and some of it. -/
theorem exists_attempts_beginLeaving (text : Text) (s : State) {c : Cursor}
    (failed : (runMode .anything c).accepted = none) :
    ∃ stage n, beginLeaving s c.pos (runMode .anything c) = .inl stage ∧ n ≤ c.rest.length ∧
      Attempts text s c.pos stage n (.reads (unreadable s c (runMode .anything c))) ∧
      0 < (unreadable s c (runMode .anything c)).size.bytes := by
  obtain ⟨c', left, further, shorter⟩ :=
    exists_leave failed (le_start _ c) (Nat.le_refl _) s c.pos
      (runMode .anything c).stop.rest.head? (runMode .anything c).start
  obtain ⟨isLeftOut, enough⟩ := unreadable_of_leave left
  obtain ⟨n, few, attempts⟩ := exists_attempts_leaving text s c.pos
    (runMode .anything c).stop.rest.head? (runMode .anything c).start
    (Nat.le_succ_of_le enough)
  rw [isLeftOut]
  refine ⟨_, n, left, by omega, attempts, ?_⟩
  obtain ⟨between, d, toEnd, ends⟩ :=
    unreadableEnd_reaches ((runMode .anything c).stop.rest.length + 1) c'
  have := toEnd.bytes_le
  rw [ends]
  exact Nat.sub_pos_of_lt (by omega)

/-! ### Reading a lexeme -/

theorem lexMode_errorState : errorState.lexMode = .anything := by
  decide +kernel

/-- Reading a lexeme takes no more runs than there are glyphs ahead and two. What is left out is not
empty. -/
theorem exists_attempts (text : Text) (s : State) (p : Extent) :
    ∃ n ≤ (Cursor.ofPosition text p).rest.length + 2,
      Attempts text s p .asked n (.reads (scan text s p)) ∧
      ((∀ t, (scan text s p).leaf ≠ .read t) → 0 < (scan text s p).size.bytes) := by
  have readable (start : Extent) (t : Token) (stop : Extent) :
      ¬∀ u, (readable text s (.ofPosition text p) start t stop).leaf ≠ .read u := by
    obtain ⟨u, leaf, -⟩ := readable_leaf text s (.ofPosition text p) start t stop
    exact fun none => none u leaf
  rw [scan]
  dsimp only
  cases asked : (runMode s.lexMode (.ofPosition text p)).accepted with
  | some found =>
    exact ⟨1, by omega, .last (by simp only [attempt, asked]),
      fun unread => absurd unread (readable _ _ _)⟩
  | none =>
    have goesOn (notError : s ≠ errorState) : attempt text s p .asked = .inl .anything := by
      simp only [attempt, asked, if_neg notError]
    dsimp only
    cases any : (runMode .anything (.ofPosition text p)).accepted with
    | some found =>
      have notError : s ≠ errorState := by
        rintro rfl
        rw [lexMode_errorState, any] at asked
        cases asked
      exact ⟨2, by omega, .next (goesOn notError) (.last (by simp only [attempt, any])),
        fun unread => absurd unread (readable _ _ _)⟩
    | none =>
      obtain ⟨stage, n, left, few, attempts, some⟩ := exists_attempts_beginLeaving text s any
      dsimp only
      by_cases inError : s = errorState
      · have mode : s.lexMode = .anything := by rw [inError, lexMode_errorState]
        refine ⟨n + 1, by omega, .next ?_ attempts, fun _ => some⟩
        simp only [attempt, asked, if_pos inError]
        rw [mode]
        exact left
      · refine ⟨n + 2, by omega, .next (goesOn inError) (.next ?_ attempts), fun _ => some⟩
        simp only [attempt, any]
        exact left

/-- Reading a lexeme always comes to an end, by what a run accepts, in no more runs than there are
bytes ahead and two. It is the end of the text only if nothing but a gap is left, and covers some
text otherwise. -/
theorem attempts_scan (before after : Text) (s : State) :
    (∃ n ≤ after.bytes.length + 2, ∀ m ending,
      Attempts (before ++ after) s before.extent .asked m ending ↔
        m = n ∧ ending = .reads (scan (before ++ after) s before.extent)) ∧
      ((scan (before ++ after) s before.extent).isEnd = true → IsGap before.extent after) ∧
      ((scan (before ++ after) s before.extent).isEnd = false →
        0 < (scan (before ++ after) s before.extent).size.bytes) := by
  have place : Text.IsPlace (before ++ after) before.extent := ⟨before, after, rfl, rfl⟩
  obtain ⟨n, few, attempts, unread⟩ := exists_attempts (before ++ after) s before.extent
  rw [Cursor.ofPosition_extent] at few
  have bound := after.length_le_bytes
  dsimp only at few
  refine ⟨⟨n, by omega, fun m ending => ?_⟩, fun isEnd => ?_, fun notEnd => ?_⟩
  · constructor
    · exact attempts.unique
    · rintro ⟨rfl, rfl⟩
      exact attempts
  · obtain ⟨before', gap, body, rest, split, pos, isGap, -, -, ends⟩ := scan_standsAt s place
    obtain ⟨rfl, rfl⟩ := ends isEnd
    have behind := (Text.prefix_unique split (congrArg Extent.bytes pos)).2
    rw [behind]
    simpa using isGap
  · cases leaf : (scan (before ++ after) s before.extent).leaf with
    | read t =>
      refine size_pos_of_scan place leaf ?_
      rintro rfl
      rw [Lexeme.isEnd, leaf] at notEnd
      cases notEnd
    | unread | missing =>
      refine unread fun t leaf' => ?_
      cases leaf.symm.trans leaf'

end SusSyntax.Lexical
