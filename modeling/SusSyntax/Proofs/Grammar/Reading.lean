import SusSyntax.Proofs.Grammar.Accepted
import SusSyntax.Proofs.Grammar.Expected

/-!
The machine of the table accepts what the grammar derives, and nothing else.

In a state that expects a goal, before a token that may follow there, the machine reads what the goal
can be read from and comes to the state behind the goal (`Reads.run`); this is by induction on the
reading, one case for each of its forms. Together with what is known of accepting runs, the machine
accepts just the sequences that the start symbol derives (`accepts_iff_derives`).
-/

namespace SusSyntax.Grammar

open Goal Machine

namespace Machine.Run

variable {a b c : Config} {xs ys : List Action}

theorem trans (h : Run a xs b) (k : Run b ys c) : Run a (xs ++ ys) c := by
  induction h with
  | done => exact k
  | step step _ ih => exact .step step (ih k)

theorem single {x : Action} (h : Step a x b) : Run a [x] b :=
  .step h .done

end Machine.Run

namespace State

variable {s n : State} {g : Goal} {gs : List Goal} {r : Rule} {t : Token} {m : TokenSet}
  {w rest : List Token} {below : List State}

/-! ### What is expected is ready -/

theorem mem_goalsFor (h : s.expects g = true) (notToken : ∀ t, g ≠ .token t) :
    ∃ r n, s.row.goto? r = some n ∧ g ∈ goalsFor r := by
  have place := (Bool.and_eq_true_iff.mp h).2
  rw [find_rowTree] at place
  cases g with
  | token t => exact absurd rfl (notToken t)
  | rule r =>
    obtain ⟨own, place⟩ := Bool.and_eq_true_iff.mp place
    obtain ⟨n, found⟩ := Option.isSome_iff_exists.mp place
    refine ⟨r, n, found, ?_⟩
    cases r <;> first | exact List.mem_singleton.mpr rfl | exact absurd own (by decide)
  | operand tier =>
    dsimp only at place
    split at place
    · rename_i n found
      refine ⟨.binaryOp, n, found, List.mem_map.mpr ⟨tier, ?_, rfl⟩⟩
      cases tier <;> decide
    · cases place
  | type =>
    obtain ⟨n, found⟩ := Option.isSome_iff_exists.mp place
    exact ⟨.arrayType, n, found, List.mem_singleton.mpr rfl⟩
  | many r =>
    obtain ⟨repetition, place⟩ := Bool.and_eq_true_iff.mp place
    split at place
    · rename_i n found
      refine ⟨r, n, found, ?_⟩
      cases r <;> first | exact List.mem_cons_self | exact absurd repetition (by decide)
    · cases place
  | piece r =>
    obtain ⟨repetition, place⟩ := Bool.and_eq_true_iff.mp place
    obtain ⟨n, found⟩ := Option.isSome_iff_exists.mp place
    refine ⟨r, n, found, ?_⟩
    cases r <;> first
      | exact List.mem_cons_of_mem _ List.mem_cons_self | exact absurd repetition (by decide)

theorem isReady_of_expects (h : s.expects g = true) : s.isReady g = true := by
  by_cases token : ∃ t, g = .token t
  · obtain ⟨t, rfl⟩ := token
    simp [isReady, units, ways]
  · obtain ⟨r, n, found, mem⟩ := mem_goalsFor h fun t same => token ⟨t, same⟩
    have ready := row_holds
      (fun s row => workOut s fun s => row.gotos.all fun y =>
        (goalsFor y.1).all fun g => !expects s g || isReady s g) ready_all (lt_of_goto? found)
    rw [workOut_eq] at ready
    have ready := List.all_eq_true.mp (List.all_eq_true.mp ready _ (Row.mem_gotos found)) g mem
    simpa [h] using ready

theorem canRead_of_mem_ways (h : s.expects g = true) (mem : (r, gs) ∈ g.ways) :
    s.canRead gs (s.allowed g) = true := by
  have ready := isReady_of_expects h
  rw [isReady, workOut_eq, Bool.and_eq_true] at ready
  exact List.all_eq_true.mp ready.2 _ mem

theorem expects_of_mem_units {u : Goal} (h : s.expects g = true) (mem : u ∈ g.units) :
    s.expects u = true ∧ (s.allowed g).isSubset (s.allowed u) = true := by
  have ready := isReady_of_expects h
  rw [isReady, workOut_eq, Bool.and_eq_true] at ready
  exact Bool.and_eq_true_iff.mp (List.all_eq_true.mp ready.1 _ mem)

theorem has_landing {u : Goal} (mem : u ∈ g.units) (h : (s.allowed g).has t = true) :
    (s.landing g (s.after u)).has t = true := by
  rw [allowed] at h
  generalize g.depth = depth at h
  cases depth with
  | zero =>
    have has := TokenSet.has_meet h (List.mem_append_left _ (List.mem_map.mpr ⟨u, mem, rfl⟩))
    rwa [workOut_eq] at has
  | succ depth =>
    have has := TokenSet.has_meet h (List.mem_append_left _ (List.mem_map.mpr ⟨u, mem, rfl⟩))
    rw [workOut_eq] at has
    exact (TokenSet.has_and.mp has).1

theorem has_arrival (mem : (r, gs) ∈ g.ways) (h : (s.allowed g).has t = true) :
    (s.arrival g r gs).has t = true := by
  rw [allowed] at h
  generalize g.depth = depth at h
  cases depth with
  | zero => exact TokenSet.has_meet h (List.mem_append_right _ (List.mem_map.mpr ⟨_, mem, rfl⟩))
  | succ depth =>
    have has := TokenSet.has_meet h (List.mem_append_right _ (List.mem_map.mpr ⟨_, mem, rfl⟩))
    exact (TokenSet.has_and.mp has).1

/-! ### Steps -/

theorem not_has_zero : ¬ TokenSet.has 0 t = true := by
  simp [TokenSet.has]

/-- A reduction of what lies over a state. -/
theorem run_reduce (states : List State)
    (has : (n.reducing r states.length).has (rest.headD .eof) = true)
    (top : (states ++ s :: below).head? = some n) {m : State} (found : s.row.goto? r = some m) :
    ∃ x, Run ⟨states ++ s :: below, rest⟩ [x] ⟨m :: s :: below, rest⟩ := by
  obtain ⟨layout, mem⟩ := exists_of_has_reducing has
  refine ⟨.reduce r states.length layout, .single (.reduce ?_ List.drop_left found)⟩
  unfold Config.actions
  split
  · rename_i none
    rw [show states ++ s :: below = [] from none] at top
    cases top
  · rename_i q others same
    rw [show states ++ s :: below = q :: others from same] at top
    obtain rfl := Option.some.inj top
    exact mem

/-- Behind a state that gives way, the machine comes to the state behind the goal. -/
theorem run_landing (below : List State)
    (has : (s.landing g n).has (rest.headD .eof) = true) :
    ∃ xs, Run ⟨n :: s :: below, rest⟩ xs ⟨s.after g :: s :: below, rest⟩ := by
  unfold landing at has
  split at has
  · rename_i same
    rw [Nat.eq_of_beq_eq_true same]
    exact ⟨[], .done⟩
  · split at has
    · exact absurd has not_has_zero
    · split at has
      · exact absurd has not_has_zero
      · rename_i r _ m found
        split at has
        · rename_i same
          obtain rfl := Nat.eq_of_beq_eq_true same
          rw [find_rowTree] at found
          obtain ⟨x, run⟩ := run_reduce [n] has rfl found
          exact ⟨[x], run⟩
        · exact absurd has not_has_zero

theorem behind_eq {α : Type} {found : State → α} :
    s.behind gs found = found (s.behind gs id) := by
  induction gs generalizing s with
  | nil => rfl
  | cons g gs ih => rw [behind, workOut_eq, ih, behind, workOut_eq]

/-- Behind the goals of a way, the machine comes to the state behind the goal. -/
theorem run_arrival {states : List State} (has : (s.arrival g r gs).has (rest.headD .eof) = true)
    (length : states.length = gs.length)
    (top : (states ++ s :: below).head? = some (s.behind gs id)) :
    ∃ xs, Run ⟨states ++ s :: below, rest⟩ xs ⟨s.after g :: s :: below, rest⟩ := by
  rw [arrival, behind_eq] at has
  generalize s.behind gs id = n at has top
  split at has
  · rename_i whole
    obtain ⟨single, same⟩ := Bool.and_eq_true_iff.mp whole
    have single := Nat.eq_of_beq_eq_true single
    obtain ⟨q, rfl⟩ := List.length_eq_one_iff.mp (length.trans single)
    obtain rfl : q = n := Option.some.inj top
    rw [Nat.eq_of_beq_eq_true same]
    exact ⟨[], .done⟩
  · split at has
    · exact absurd has not_has_zero
    · rename_i m found
      obtain ⟨reduces, lands⟩ := TokenSet.has_and.mp has
      rw [find_rowTree] at found
      rw [← length] at reduces
      obtain ⟨x, first⟩ := run_reduce states reduces top found
      obtain ⟨xs, later⟩ := run_landing below lands
      exact ⟨[x] ++ xs, first.trans later⟩

/-- What stands behind goals begins with a token that may follow there. -/
theorem has_beginning (reads : ReadsAll gs w) (apart : .rule .sourceFile ∉ gs)
    (has : m.has (rest.headD .eof) = true) :
    (beginning gs m).has ((w ++ rest).headD .eof) = true := by
  cases gs with
  | nil =>
    rw [readsAll_nil_iff.mp reads]
    exact has
  | cons g gs =>
    obtain ⟨t, v, rfl, known⟩ := reads.starts apart g gs rfl
    exact known

end State

namespace Goal

open State

mutual

/-- In a state that expects a goal the machine reads what the goal can be read from. -/
theorem Reads.run : ∀ {g : Goal} {w : List Token}, Reads g w →
    ∀ (s : State) (below : List State) (rest : List Token), s.expects g = true →
      (s.allowed g).has (rest.headD .eof) = true →
      ∃ xs, Run ⟨s :: below, w ++ rest⟩ xs ⟨s.after g :: s :: below, rest⟩
  | .token t, _, .token, s, below, rest, expects, _ => by
    have place : (s.shift? t).isSome = true := (Bool.and_eq_true_iff.mp expects).2
    obtain ⟨n, found⟩ := Option.isSome_iff_exists.mp place
    refine ⟨[.shift n], .single ?_⟩
    rw [after, found]
    exact .shift (mem_of_shift? found)
  | g, w, .unit mem reads, s, below, rest, expects, has => by
    obtain ⟨expects', subset⟩ := expects_of_mem_units expects mem
    obtain ⟨xs, first⟩ :=
      Reads.run reads s below rest expects' (TokenSet.has_of_isSubset subset has)
    obtain ⟨ys, later⟩ := run_landing below (has_landing mem has)
    exact ⟨xs ++ ys, first.trans later⟩
  | g, w, .way mem reads, s, below, rest, expects, has => by
    obtain ⟨xs, states, length, top, first⟩ := ReadsAll.run reads s below rest _
      (canRead_of_mem_ways expects mem) (ne_sourceFile_of_mem_ways mem) has
    obtain ⟨ys, later⟩ := run_arrival (has_arrival mem has) length top
    exact ⟨xs ++ ys, first.trans later⟩

/-- The machine reads what goals can be read from in turn. -/
theorem ReadsAll.run : ∀ {gs : List Goal} {w : List Token}, ReadsAll gs w →
    ∀ (s : State) (below : List State) (rest : List Token) (m : TokenSet),
      s.canRead gs m = true → .rule .sourceFile ∉ gs → m.has (rest.headD .eof) = true →
      ∃ xs states, states.length = gs.length ∧
        (states ++ s :: below).head? = some (s.behind gs id) ∧
        Run ⟨s :: below, w ++ rest⟩ xs ⟨states ++ s :: below, rest⟩
  | [], _, .nil, s, below, rest, _, _, _, _ => ⟨[], [], rfl, rfl, .done⟩
  | g :: gs, _, .cons (v := v) (w := w) reads readsAll, s, below, rest, m, can, apart, has => by
    rw [canRead, workOut_eq, Bool.and_eq_true, Bool.and_eq_true] at can
    obtain ⟨⟨expects, subset⟩, can⟩ := can
    have apart' : .rule .sourceFile ∉ gs := fun mem => apart (List.mem_cons_of_mem _ mem)
    obtain ⟨xs, first⟩ := Reads.run reads s below (w ++ rest) expects
      (TokenSet.has_of_isSubset subset (has_beginning readsAll apart' has))
    obtain ⟨ys, states, length, top, later⟩ :=
      ReadsAll.run readsAll (s.after g) (s :: below) rest m can apart' has
    refine ⟨xs ++ ys, states ++ [s.after g], by simp [length], ?_, ?_⟩
    · rw [behind, workOut_eq, List.append_assoc]
      exact top
    · rw [List.append_assoc, List.append_assoc]
      exact first.trans later

end

end Goal

namespace Machine

/-- What the start symbol derives is accepted. -/
theorem accepts_of_derives {w : List Token} (h : (Phrase.rule .sourceFile).Derives w) :
    Accepts w := by
  have expects : State.expects startState (.rule .sourceFile) = true := by decide
  have has : (State.allowed startState (.rule .sourceFile)).has .eof = true := by decide
  obtain ⟨xs, run⟩ := (reads_of_derives h).run startState [] [] expects has
  rw [List.append_nil] at run
  refine ⟨xs, _, run, ?_⟩
  decide +kernel

/-- The machine of the table accepts just the token sequences that the start symbol derives. -/
theorem accepts_iff_derives (w : List Token) (plain : ∀ t ∈ w, t.isComment = false) :
    Accepts w ↔ (Phrase.rule .sourceFile).Derives w :=
  ⟨fun h => derives_of_accepts h plain, accepts_of_derives⟩

open Phrase in
/-- An empty module behind a line break is accepted, since the grammar derives it. -/
theorem accepts_emptyModule :
    (∀ t ∈ [Token.newline, .moduleKw, .identifier, .lbrace, .rbrace], t.isComment = false) ∧
      Accepts [.newline, .moduleKw, .identifier, .lbrace, .rbrace] := by
  have plain : ∀ t ∈ [Token.newline, .moduleKw, .identifier, .lbrace, .rbrace],
      t.isComment = false := by
    decide
  have block : (Phrase.rule .block).Derives ([.lbrace] ++ (([] ++ []) ++ [.rbrace])) :=
    .rule (.seq .token (.seq (.seq (.right .nothing) (.right .nothing)) .token))
  have module : (Phrase.rule .globalObject).Derives
      ([] ++ ([.moduleKw] ++ ([.identifier] ++ ([] ++ [.lbrace, .rbrace])))) :=
    .rule (.seq (.right .nothing) (.seq (.field (.left .token)) (.seq (.field .token)
      (.seq (.right .nothing) (.field block)))))
  have file : (Phrase.rule .sourceFile).Derives
      ([.newline] ++ (([.moduleKw, .identifier, .lbrace, .rbrace] ++ []) ++ [])) :=
    .rule (.seq (.left (.rule (.once .token)))
      (.left (.seq (.seq (.field module) (.right .nothing)) (.right .nothing))))
  exact ⟨plain, (accepts_iff_derives _ plain).mpr file⟩

end Machine

end SusSyntax.Grammar
