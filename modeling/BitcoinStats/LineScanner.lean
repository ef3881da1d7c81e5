-- The loop over a line, read as a scanner that goes through the characters once:
-- what it makes of each one, and that the loop of the source does the same.
import BitcoinStats.InParser

open cells

namespace bitcoinstats.inparser

open SeparatorType

/-! ## The scanner -/

/-- Between two arguments, behind hard separators, in an argument, and in quotes
that were found at the one place or at the other. -/
inductive Mode where
  | outer
  | afterHard
  | word
  | quoted
  | quotedAfterHard
deriving DecidableEq

/-- What becomes of a character: the mode behind it, or none where the scan ends,
what is written over it, and the arguments that are pushed. -/
structure Action where
  next : Option Mode
  written : UInt8
  pushed : List Argument

def wordAction (p : InPlaceParser) (c : UInt8) : Action :=
  match p.kind c with
  | ST_EOS => { next := none, written := c, pushed := [] }
  | ST_SOFT => { next := some .outer, written := 0, pushed := [] }
  | ST_HARD => { next := some .outer, written := 0, pushed := [hardString c] }
  | ST_DATA | ST_LINE_FEED => { next := some .word, written := c, pushed := [] }

theorem wordAction_data {p : InPlaceParser} {c : UInt8} (heos : p.kind c ≠ ST_EOS)
    (hsoft : p.kind c ≠ ST_SOFT) (hhard : p.kind c ≠ ST_HARD) :
    wordAction p c = { next := some .word, written := c, pushed := [] } := by
  unfold wordAction
  cases hkind : p.kind c with
  | ST_EOS => exact absurd hkind heos
  | ST_SOFT => exact absurd hkind hsoft
  | ST_HARD => exact absurd hkind hhard
  | ST_DATA | ST_LINE_FEED => rfl

/-- The action at the place `pos`. The loop does not get on from a zero that is
neither the end nor a separator. -/
def outerAction (p : InPlaceParser) (pos : Nat) (c : UInt8) : Option Action :=
  match p.kind c with
  | ST_EOS => some { next := none, written := c, pushed := [] }
  | ST_SOFT => some { next := some .outer, written := c, pushed := [] }
  | ST_HARD =>
    if c = p.mQuoteChar then
      some { next := some .quoted, written := c, pushed := [.line (pos + 1)] }
    else some { next := some .afterHard, written := c, pushed := [hardString c] }
  | ST_DATA | ST_LINE_FEED =>
    if c = p.mQuoteChar then
      some { next := some .quoted, written := c, pushed := [.line (pos + 1)] }
    else if c = 0 then none
    else some { next := some .word, written := c, pushed := [.line pos] }

def afterHardAction (p : InPlaceParser) (pos : Nat) (c : UInt8) : Option Action :=
  if p.kind c = ST_HARD then
    some { next := some .afterHard, written := c, pushed := [hardString c] }
  else if IsNonSeparator (p.kind c) c then
    if c = p.mQuoteChar then
      some { next := some .quotedAfterHard, written := c, pushed := [.line (pos + 1)] }
    else
      let action := wordAction p c
      some { action with pushed := .line pos :: action.pushed }
  else outerAction p pos c

def quotedAction (p : InPlaceParser) (c : UInt8) : Action :=
  if p.kind c = ST_EOS then { next := none, written := c, pushed := [] }
  else if c = p.mQuoteChar then { next := some .outer, written := 0, pushed := [] }
  else { next := some .quoted, written := c, pushed := [] }

/-- The closing quote is read again as a space. -/
def quotedAfterHardAction (p : InPlaceParser) (c : UInt8) : Action :=
  if c = 0 then wordAction p c
  else if c = p.mQuoteChar then wordAction p 32
  else { next := some .quotedAfterHard, written := c, pushed := [] }

def act (p : InPlaceParser) (mode : Mode) (pos : Nat) (c : UInt8) : Option Action :=
  match mode with
  | .outer => outerAction p pos c
  | .afterHard => afterHardAction p pos c
  | .word => some (wordAction p c)
  | .quoted => some (quotedAction p c)
  | .quotedAfterHard => some (quotedAfterHardAction p c)

/-- The memory of the line behind the scan, and the arguments. The characters
`done` lie behind the scanner; without an end it leaves the memory. -/
def scan (p : InPlaceParser) :
    Mode → List UInt8 → List Argument → List UInt8 → Option (List UInt8 × List Argument)
  | _, _, _, [] => none
  | mode, done, args, c :: rest => do
    let action ← act p mode done.length c
    match action.next with
    | none => some (done ++ action.written :: rest, args ++ action.pushed)
    | some mode => scan p mode (done ++ [action.written]) (args ++ action.pushed) rest

variable {p : InPlaceParser} {mode : Mode} {done rest : List UInt8} {args : List Argument} {c : UInt8}

theorem scan_go {action : Action} {next : Mode} (h : act p mode done.length c = some action)
    (hnext : action.next = some next) :
    scan p mode done args (c :: rest) =
      scan p next (done ++ [action.written]) (args ++ action.pushed) rest := by
  simp [scan, h, hnext]

theorem scan_stop {action : Action} (h : act p mode done.length c = some action)
    (hnext : action.next = none) :
    scan p mode done args (c :: rest) =
      some (done ++ action.written :: rest, args ++ action.pushed) := by
  simp [scan, h, hnext]

theorem scan_none (h : act p mode done.length c = none) : scan p mode done args (c :: rest) = none := by
  simp [scan, h]

/-- Where the actions are the same the scanner goes on alike. -/
theorem scan_congr {mode' : Mode} {c' : UInt8}
    (h : act p mode done.length c = act p mode' done.length c') :
    scan p mode done args (c :: rest) = scan p mode' done args (c' :: rest) := by
  simp [scan, h]

/-- The zero of the line is the end in every mode. -/
theorem act_zero (h : p.kind 0 = ST_EOS) (mode : Mode) (pos : Nat) :
    act p mode pos 0 = some { next := none, written := 0, pushed := [] } := by
  cases mode with
  | outer => simp [act, outerAction, h]
  | afterHard => simp [act, afterHardAction, outerAction, IsNonSeparator, h]
  | word => simp [act, wordAction, h]
  | quoted => simp [act, quotedAction, h]
  | quotedAfterHard => simp [act, quotedAfterHardAction, wordAction, h]

theorem scan_zero (h : p.kind 0 = ST_EOS) :
    scan p mode done args (0 :: rest) = some (done ++ 0 :: rest, args) := by
  rw [scan_stop (act_zero h mode done.length) rfl, List.append_nil]

/-! ## The state of the loop -/

/-- The variables of the loop, for the scanner behind `done` and before `rest`. -/
structure Shows (st : Progress) (done : List UInt8) (args : List Argument) (rest : List UInt8) :
    Prop where
  line : st.line = done ++ rest
  foo : st.foo = done.length
  argc : st.argc = args.length
  size : (st.mArgv.length : Int) = st.mMaxArgs
  pos : 0 < st.mMaxArgs
  le : st.argc ≤ st.mMaxArgs
  stored : st.mArgv.take args.length = args.map some

variable {st : Progress}

theorem Shows.load (h : Shows st done args (c :: rest)) : load st.line st.foo = some c := by
  rw [h.line]
  exact load_middle done rest c h.foo

theorem Shows.load_nil (h : Shows st done args []) : cells.load st.line st.foo = none := by
  rw [h.line, h.foo, cells.load, if_pos (Int.natCast_nonneg _)]
  simp

theorem Shows.next (h : Shows st done args (c :: rest)) :
    Shows { st with foo := st.foo + 1 } (done ++ [c]) args rest where
  line := by simp [h.line]
  foo := by simp [h.foo]
  argc := h.argc
  size := h.size
  pos := h.pos
  le := h.le
  stored := h.stored

/-- A store at the cursor. -/
theorem Shows.store (h : Shows st done args (c :: rest)) (written : UInt8) :
    ∃ line, store st.line st.foo written = some line ∧
      Shows { st with line } done args (written :: rest) := by
  refine ⟨done ++ written :: rest, ?_, ⟨rfl, h.foo, h.argc, h.size, h.pos, h.le, h.stored⟩⟩
  rw [h.line]
  exact store_middle done rest c written h.foo

/-- There is room for one more argument, once the array has grown. -/
theorem push_spec (h : Shows st done args rest) (argument : Argument) :
    ∃ st', push st argument = some st' ∧ st'.foo = st.foo ∧ st'.line = st.line ∧
      Shows st' done (args ++ [argument]) rest := by
  have hsize := h.size
  have hpos := h.pos
  have hle := h.le
  have hargc := h.argc
  obtain ⟨st1, hgrow, hshows, hlt, hfoo, hline⟩ : ∃ st1, growArgs st = some st1 ∧
      Shows st1 done args rest ∧ st1.argc < st1.mMaxArgs ∧ st1.foo = st.foo ∧
      st1.line = st.line := by
    unfold growArgs
    split
    · refine ⟨_, if_pos (by omega), ⟨h.line, h.foo, h.argc, ?_, ?_, ?_, ?_⟩, ?_, rfl, rfl⟩
      · simp only [List.length_append, List.length_take, List.length_replicate]
        omega
      · simp only
        omega
      · simp only
        omega
      · have hstored := h.stored
        simp only
        rw [hargc, Int.toNat_natCast, hstored, List.take_append_of_le_length (by simp)]
        simp
      · simp only
        omega
    · exact ⟨st, rfl, h, by omega, rfl, rfl⟩
  have hsize1 := hshows.size
  have hargc1 := hshows.argc
  refine ⟨{ st1 with mArgv := st1.mArgv.set args.length (some argument), argc := st1.argc + 1 },
    ?_, hfoo, hline, ⟨hshows.line, hshows.foo, ?_, ?_, hshows.pos, ?_, ?_⟩⟩
  · unfold push
    simp only [Option.bind_eq_bind]
    rw [hgrow, Option.bind_some, hargc1, store_within ⟨Int.natCast_nonneg _, by omega⟩]
    rfl
  · simp [hargc1]
  · simpa using hsize1
  · simp only
    omega
  · have hlen : args.length < st1.mArgv.length := by omega
    simp only [List.length_append, List.length_singleton, List.map_append, List.map_singleton]
    rw [← hshows.stored, List.take_succ_eq_append_getElem (by simpa using hlen),
      List.take_set_of_le (le_refl _), List.getElem_set_self]

/-! ## The inner loops -/

variable {fuel : ℕ}

/-- The loop moves over the characters that the scanner leaves as they are. -/
theorem advance_spec (goOn : UInt8 → SeparatorType → Bool) (mode : Mode)
    (hgo : ∀ pos c, goOn c (p.kind c) →
      act p mode pos c = some { next := some mode, written := c, pushed := [] })
    (h : Shows st done args rest) (hfuel : rest.length ≤ fuel) :
    (advance p goOn fuel st = none ∧ scan p mode done args rest = none) ∨
      ∃ st' done' c rest', advance p goOn fuel st = some st' ∧ Shows st' done' args (c :: rest') ∧
        (c :: rest').length ≤ rest.length ∧ goOn c (p.kind c) = false ∧
        scan p mode done args rest = scan p mode done' args (c :: rest') := by
  induction fuel generalizing st done rest with
  | zero =>
    rw [List.length_eq_zero_iff.mp (Nat.le_zero.mp hfuel)]
    exact Or.inl ⟨rfl, rfl⟩
  | succ fuel ih =>
    unfold advance
    simp only [Option.bind_eq_bind]
    cases rest with
    | nil =>
      rw [h.load_nil]
      exact Or.inl ⟨rfl, rfl⟩
    | cons c rest =>
      rw [List.length_cons] at hfuel
      rw [h.load, Option.bind_some, p.lookup_eq, Option.bind_some]
      by_cases hon : goOn c (p.kind c)
      · rw [if_pos hon, scan_go (hgo _ c hon) rfl, List.append_nil]
        rcases ih h.next (by omega) with hnone | ⟨st', done', c', rest', hrun, hshows, hle, hends, hscan⟩
        · exact Or.inl hnone
        · exact Or.inr ⟨st', done', c', rest', hrun, hshows, hle.trans (Nat.le_succ _), hends,
            hscan⟩
      · rw [if_neg hon]
        exact Or.inr ⟨st, done, c, rest, rfl, h, le_refl _, by simpa using hon, rfl⟩

theorem addHard_hard (h : Shows st done args (c :: rest)) (hkind : p.kind c = ST_HARD) (fuel : ℕ) :
    ∃ st', AddHard p (fuel + 1) st = AddHard p fuel st' ∧
      Shows st' (done ++ [c]) (args ++ [hardString c]) rest := by
  obtain ⟨st', hpush, hfoo, hline, hshows⟩ := push_spec h (hardString c)
  refine ⟨{ st' with foo := st'.foo + 1 }, ?_, hshows.next⟩
  rw [AddHard]
  simp only [Option.bind_eq_bind]
  rw [h.load, Option.bind_some, p.lookup_eq, Option.bind_some, if_pos hkind, hpush, Option.bind_some]

theorem addHard_end (h : Shows st done args (c :: rest)) (hkind : p.kind c ≠ ST_HARD) (fuel : ℕ) :
    AddHard p (fuel + 1) st = some st := by
  rw [AddHard]
  simp only [Option.bind_eq_bind]
  rw [h.load, Option.bind_some, p.lookup_eq, Option.bind_some, if_neg hkind]
  rfl

theorem addHard_spec (h : Shows st done args rest) (hfuel : rest.length ≤ fuel) :
    (AddHard p fuel st = none ∧ scan p .afterHard done args rest = none) ∨
      ∃ st' done' args' c rest', AddHard p fuel st = some st' ∧ Shows st' done' args' (c :: rest') ∧
        (c :: rest').length ≤ rest.length ∧ p.kind c ≠ ST_HARD ∧
        scan p .afterHard done args rest = scan p .afterHard done' args' (c :: rest') := by
  induction fuel generalizing st done args rest with
  | zero =>
    rw [List.length_eq_zero_iff.mp (Nat.le_zero.mp hfuel)]
    exact Or.inl ⟨rfl, rfl⟩
  | succ fuel ih =>
    cases rest with
    | nil =>
      rw [AddHard]
      simp only [Option.bind_eq_bind]
      rw [h.load_nil]
      exact Or.inl ⟨rfl, rfl⟩
    | cons c rest =>
      rw [List.length_cons] at hfuel
      by_cases hkind : p.kind c = ST_HARD
      · obtain ⟨st1, hrun1, hshows1⟩ := addHard_hard h hkind fuel
        have haction : act p .afterHard done.length c =
            some { next := some .afterHard, written := c, pushed := [hardString c] } := if_pos hkind
        rw [hrun1, scan_go haction rfl]
        rcases ih hshows1 (by omega) with
          hnone | ⟨st', done', args', c', rest', hrun, hshows, hle, hends, hscan⟩
        · exact Or.inl hnone
        · exact Or.inr ⟨st', done', args', c', rest', hrun, hshows, hle.trans (Nat.le_succ _),
            hends, hscan⟩
      · exact Or.inr ⟨st, done, args, c, rest, addHard_end h hkind fuel, h, le_refl _, hkind, rfl⟩

/-- At the end of the line the scanner stops between two arguments as in one. -/
theorem scan_outer_of_word (hkind : p.kind c = ST_EOS) :
    scan p .word done args (c :: rest) = scan p .outer done args (c :: rest) :=
  scan_congr (by simp [act, wordAction, outerAction, hkind])

theorem wordLoop_spec (h : Shows st done args rest) (hfuel : rest.length ≤ fuel) :
    (wordLoop p fuel st = none ∧ scan p .word done args rest = none) ∨
      ∃ st' done' args' rest', wordLoop p fuel st = some st' ∧ Shows st' done' args' rest' ∧
        rest'.length ≤ rest.length ∧
        (∀ c ∈ rest.head?, p.kind c ≠ ST_EOS → rest'.length < rest.length) ∧
        scan p .word done args rest = scan p .outer done' args' rest' := by
  induction fuel generalizing st done args rest with
  | zero =>
    rw [List.length_eq_zero_iff.mp (Nat.le_zero.mp hfuel)]
    exact Or.inl ⟨rfl, rfl⟩
  | succ fuel ih =>
    unfold wordLoop
    simp only [Option.bind_eq_bind]
    cases rest with
    | nil =>
      rw [h.load_nil]
      exact Or.inl ⟨rfl, rfl⟩
    | cons c rest =>
      rw [List.length_cons] at hfuel
      rw [h.load, Option.bind_some, p.lookup_eq, Option.bind_some]
      obtain ⟨line, hstore, hstored⟩ := h.store 0
      by_cases heos : p.kind c = ST_EOS
      · rw [if_pos heos]
        refine Or.inr ⟨st, done, args, c :: rest, rfl, h, le_refl _, ?_, scan_outer_of_word heos⟩
        intro c' hc' hkind
        obtain rfl : c = c' := by simpa using hc'
        exact absurd heos hkind
      · rw [if_neg heos]
        by_cases hsoft : p.kind c = ST_SOFT
        · have haction : act p .word done.length c =
              some { next := some .outer, written := 0, pushed := [] } := by
            simp [act, wordAction, hsoft]
          rw [if_pos hsoft, hstore, scan_go haction rfl, List.append_nil]
          exact Or.inr ⟨_, done ++ [0], args, rest, rfl, hstored.next, by simp, by simp, rfl⟩
        · rw [if_neg hsoft]
          by_cases hhard : p.kind c = ST_HARD
          · have haction : act p .word done.length c =
                some { next := some .outer, written := 0, pushed := [hardString c] } := by
              simp [act, wordAction, hhard]
            obtain ⟨st', hpush, -, -, hshows⟩ := push_spec hstored (hardString c)
            rw [if_pos hhard, hstore, scan_go haction rfl, Option.bind_some, hpush]
            exact Or.inr ⟨_, done ++ [0], args ++ [hardString c], rest, rfl, hshows.next, by simp,
              by simp, rfl⟩
          · have haction : act p .word done.length c =
                some { next := some .word, written := c, pushed := [] } := by
              rw [act, wordAction_data heos hsoft hhard]
            rw [if_neg hhard, scan_go haction rfl, List.append_nil]
            rcases ih h.next (by omega) with
              hnone | ⟨st', done', args', rest', hrun, hshows, hle, -, hscan⟩
            · exact Or.inl hnone
            · exact Or.inr ⟨st', done', args', rest', hrun, hshows, hle.trans (Nat.le_succ _),
                fun _ _ _ => Nat.lt_succ_of_le hle, hscan⟩

/-! ## The turns of the outer loop -/

theorem quotedArgument_spec (h : Shows st done args (c :: rest)) (hkind : p.kind c ≠ ST_EOS)
    (hsoft : p.kind c ≠ ST_SOFT) (hquote : c = p.mQuoteChar) (hfuel : rest.length ≤ fuel) :
    (quotedArgument p fuel st = none ∧ scan p .outer done args (c :: rest) = none) ∨
      ∃ st' done' args' rest', quotedArgument p fuel st = some st' ∧ Shows st' done' args' rest' ∧
        rest'.length ≤ rest.length ∧
        scan p .outer done args (c :: rest) = scan p .outer done' args' rest' := by
  have haction : act p .outer done.length c =
      some { next := some .quoted, written := c, pushed := [.line (done.length + 1)] } := by
    unfold act outerAction
    cases hk : p.kind c with
    | ST_EOS => exact absurd hk hkind
    | ST_SOFT => exact absurd hk hsoft
    | ST_HARD => exact if_pos hquote
    | ST_DATA | ST_LINE_FEED => exact if_pos hquote
  rw [← h.foo] at haction
  obtain ⟨st1, hpush, -, -, hshows1⟩ := push_spec h.next (.line (st.foo + 1))
  have hgo : ∀ pos c, decide (p.kind c ≠ ST_EOS ∧ c ≠ p.mQuoteChar) = true →
      act p .quoted pos c = some { next := some .quoted, written := c, pushed := [] } := by
    intro pos c hon
    obtain ⟨h1, h2⟩ := of_decide_eq_true hon
    simp [act, quotedAction, h1, h2]
  rw [scan_go haction rfl]
  unfold quotedArgument
  simp only [Option.bind_eq_bind]
  rw [hpush, Option.bind_some]
  rcases advance_spec (fun c kind => kind ≠ ST_EOS ∧ c ≠ p.mQuoteChar) .quoted hgo hshows1 hfuel with
    ⟨hrun, hscan⟩ | ⟨st2, done2, c2, rest2, hrun, hshows2, hle, hends, hscan⟩
  · rw [hrun]
    exact Or.inl ⟨rfl, hscan⟩
  · right
    rw [hrun, Option.bind_some, hshows2.load, Option.bind_some, p.lookup_eq, Option.bind_some, hscan]
    by_cases heos : p.kind c2 = ST_EOS
    · rw [if_neg (by simp [heos])]
      refine ⟨st2, done2, _, c2 :: rest2, rfl, hshows2, hle, ?_⟩
      exact scan_congr (by simp [act, quotedAction, outerAction, heos])
    · have hclose : c2 = p.mQuoteChar := by
        by_contra hne
        simp [heos, hne] at hends
      have haction2 : act p .quoted done2.length c2 =
          some { next := some .outer, written := 0, pushed := [] } := by
        rw [act, quotedAction, if_neg heos, if_pos hclose]
      obtain ⟨line, hstore, hstored⟩ := hshows2.store 0
      rw [if_pos heos, hstore, Option.bind_some, scan_go haction2 rfl, List.append_nil]
      exact ⟨_, done2 ++ [0], _, rest2, rfl, hstored.next, by simp at hle; omega, rfl⟩

/-- The closing quote is read again as a space, the end as what it is. -/
theorem close_spec (h : Shows st done args (c :: rest)) (hends : c = 0 ∨ c = p.mQuoteChar) :
    ∃ st' c', (∀ k : Progress → Option Progress,
        (if c ≠ 0 then
          (store st.line st.foo 32).bind fun line => (some { st with line }).bind k
          else (some st).bind k) = k st') ∧
      Shows st' done args (c' :: rest) ∧
      scan p .quotedAfterHard done args (c :: rest) = scan p .word done args (c' :: rest) := by
  by_cases hend : c = 0
  · refine ⟨st, c, ?_, h, scan_congr ?_⟩
    · intro k
      rw [if_neg (by simp [hend]), Option.bind_some]
    · simp [act, quotedAfterHardAction, hend]
  · have hclose : c = p.mQuoteChar := hends.resolve_left hend
    obtain ⟨line, hstore, hstored⟩ := h.store 32
    refine ⟨{ st with line }, 32, ?_, hstored, scan_congr ?_⟩
    · intro k
      rw [if_pos hend, hstore, Option.bind_some, Option.bind_some]
    · simp only [act]
      rw [quotedAfterHardAction, if_neg hend, if_pos hclose]

/-- An argument in quotes behind hard separators. -/
theorem nonHardArgument_quoted (h : Shows st done args (c :: rest))
    (hnon : IsNonSeparator (p.kind c) c = true) (hquote : c = p.mQuoteChar)
    (hfuel : rest.length < fuel) :
    (nonHardArgument p fuel c st = none ∧ scan p .afterHard done args (c :: rest) = none) ∨
      ∃ st' done' args' rest', nonHardArgument p fuel c st = some st' ∧
        Shows st' done' args' rest' ∧ rest'.length ≤ rest.length ∧
        scan p .afterHard done args (c :: rest) = scan p .outer done' args' rest' := by
  obtain ⟨hhard, -, -⟩ : p.kind c ≠ ST_HARD ∧ p.kind c ≠ ST_SOFT ∧ c ≠ 0 := by
    simpa [IsNonSeparator] using hnon
  have haction : act p .afterHard done.length c =
      some { next := some .quotedAfterHard, written := c
             pushed := [.line (done.length + 1)] } := by
    rw [act, afterHardAction, if_neg hhard, if_pos hnon, if_pos hquote]
  rw [← h.foo] at haction
  have hgo : ∀ pos c, decide (c ≠ 0 ∧ c ≠ p.mQuoteChar) = true →
      act p .quotedAfterHard pos c =
        some { next := some .quotedAfterHard, written := c, pushed := [] } := by
    intro pos c hon
    obtain ⟨h1, h2⟩ := of_decide_eq_true hon
    simp [act, quotedAfterHardAction, h1, h2]
  obtain ⟨st1, hpush, -, -, hshows1⟩ := push_spec h.next (.line (st.foo + 1))
  unfold nonHardArgument
  simp only [Option.bind_eq_bind]
  rw [if_pos hquote, scan_go haction rfl, hpush, Option.bind_some]
  rcases advance_spec (fun c _ => c ≠ 0 ∧ c ≠ p.mQuoteChar) .quotedAfterHard hgo hshows1
      (Nat.le_of_lt hfuel) with
    ⟨hrun, hscan⟩ | ⟨st2, done2, c2, rest2, hrun, hshows2, hle, hends, hscan⟩
  · rw [hrun]
    exact Or.inl ⟨rfl, hscan⟩
  · rw [List.length_cons] at hle
    have hstop : c2 = 0 ∨ c2 = p.mQuoteChar := by
      by_contra hne
      simp at hends hne
      exact hne.2 (hends hne.1)
    obtain ⟨st3, c3, hstep, hshows3, hscan3⟩ := close_spec hshows2 hstop
    rw [hrun, Option.bind_some, hshows2.load, Option.bind_some]
    simp only [Option.pure_def]
    rw [hstep (fun st => wordLoop p fuel st), hscan, hscan3]
    have hfuel3 : (c3 :: rest2).length ≤ fuel := hle.trans (Nat.le_of_lt hfuel)
    rcases wordLoop_spec hshows3 hfuel3 with
      hnone | ⟨st', done', args', rest', hrun', hshows', hle', -, hscan'⟩
    · exact Or.inl hnone
    · rw [List.length_cons] at hle'
      exact Or.inr ⟨st', done', args', rest', hrun', hshows', by omega, hscan'⟩

/-- At an argument without quotes the scanner goes on as in one. -/
theorem scan_word_of_afterHard (hnon : IsNonSeparator (p.kind c) c = true)
    (hquote : c ≠ p.mQuoteChar) :
    scan p .afterHard done args (c :: rest) =
      scan p .word done (args ++ [.line done.length]) (c :: rest) := by
  obtain ⟨hhard, -, -⟩ : p.kind c ≠ ST_HARD ∧ p.kind c ≠ ST_SOFT ∧ c ≠ 0 := by
    simpa [IsNonSeparator] using hnon
  have hact : act p .afterHard done.length c =
      some { wordAction p c with pushed := .line done.length :: (wordAction p c).pushed } := by
    rw [act, afterHardAction, if_neg hhard, if_pos hnon, if_neg hquote]
  have hword : act p .word done.length c = some (wordAction p c) := rfl
  cases hnext : (wordAction p c).next with
  | none =>
    rw [scan_stop hact hnext, scan_stop hword hnext]
    simp
  | some next =>
    rw [scan_go hact hnext, scan_go hword hnext]
    simp

/-- The argument behind hard separators, or without any before it. -/
theorem nonHardArgument_spec (h : Shows st done args (c :: rest))
    (hnon : IsNonSeparator (p.kind c) c = true) (hfuel : rest.length < fuel) :
    (nonHardArgument p fuel c st = none ∧ scan p .afterHard done args (c :: rest) = none) ∨
      ∃ st' done' args' rest', nonHardArgument p fuel c st = some st' ∧
        Shows st' done' args' rest' ∧ rest'.length ≤ rest.length + 1 ∧
        (p.kind c ≠ ST_EOS → rest'.length ≤ rest.length) ∧
        scan p .afterHard done args (c :: rest) = scan p .outer done' args' rest' := by
  by_cases hquote : c = p.mQuoteChar
  · rcases nonHardArgument_quoted h hnon hquote hfuel with
      hnone | ⟨st', done', args', rest', hrun, hshows, hle, hscan⟩
    · exact Or.inl hnone
    · exact Or.inr ⟨st', done', args', rest', hrun, hshows, Nat.le_succ_of_le hle, fun _ => hle,
        hscan⟩
  · obtain ⟨st1, hpush, -, -, hshows1⟩ := push_spec h (.line st.foo)
    unfold nonHardArgument
    simp only [Option.bind_eq_bind]
    rw [if_neg hquote, hpush, Option.bind_some, scan_word_of_afterHard hnon hquote, ← h.foo]
    have hfuel1 : (c :: rest).length ≤ fuel := hfuel
    rcases wordLoop_spec hshows1 hfuel1 with
      hnone | ⟨st', done', args', rest', hrun', hshows', hle', hlt', hscan'⟩
    · exact Or.inl hnone
    · exact Or.inr ⟨st', done', args', rest', hrun', hshows', hle',
        fun hkind => Nat.le_of_lt_succ (hlt' c rfl hkind), hscan'⟩

/-- A turn from a hard separator. -/
theorem turn_hard (h : Shows st done args (c :: rest)) (hhard : p.kind c = ST_HARD)
    (hquote : c ≠ p.mQuoteChar) (hfuel : rest.length < fuel) :
    (turn p fuel c st = none ∧ scan p .outer done args (c :: rest) = none) ∨
      ∃ st' done' args' rest', turn p fuel c st = some st' ∧ Shows st' done' args' rest' ∧
        rest'.length ≤ rest.length ∧
        scan p .outer done args (c :: rest) = scan p .outer done' args' rest' := by
  obtain ⟨fuel', hfuel'⟩ : ∃ k, fuel = k + 1 := ⟨fuel - 1, by omega⟩
  obtain ⟨st1, hrun1, hshows1⟩ := addHard_hard h hhard fuel'
  rw [← hfuel'] at hrun1
  have haction : act p .outer done.length c =
      some { next := some .afterHard, written := c, pushed := [hardString c] } := by
    simp [act, outerAction, hhard, hquote]
  unfold turn
  simp only [Option.bind_eq_bind]
  rw [if_neg hquote, hrun1, scan_go haction rfl]
  rcases addHard_spec hshows1 (show rest.length ≤ fuel' by omega) with
    ⟨hrun, hscan⟩ | ⟨st2, done2, args2, c2, rest2, hrun, hshows2, hle, hhard2, hscan⟩
  · rw [hrun]
    exact Or.inl ⟨rfl, hscan⟩
  · rw [List.length_cons] at hle
    rw [hrun, Option.bind_some, hshows2.load, Option.bind_some, p.lookup_eq, Option.bind_some,
      hscan]
    by_cases hnon : IsNonSeparator (p.kind c2) c2 = true
    · rw [if_pos hnon]
      rcases nonHardArgument_spec hshows2 hnon (show rest2.length < fuel by omega) with
        hnone | ⟨st', done', args', rest', hrun', hshows', hle', -, hscan'⟩
      · exact Or.inl hnone
      · exact Or.inr ⟨st', done', args', rest', hrun', hshows', by omega, hscan'⟩
    · rw [if_neg hnon]
      refine Or.inr ⟨st2, done2, args2, c2 :: rest2, rfl, hshows2, hle, scan_congr ?_⟩
      simp only [act]
      rw [afterHardAction, if_neg hhard2, if_neg hnon]

/-- Before an argument without quotes there is nothing between the two modes. -/
theorem act_outer_of_data (hkind : p.kind c ≠ ST_EOS) (hsoft : p.kind c ≠ ST_SOFT)
    (hhard : p.kind c ≠ ST_HARD) (hquote : c ≠ p.mQuoteChar) (hzero : c ≠ 0) (pos : ℕ) :
    act p .outer pos c = act p .afterHard pos c := by
  have hnon : IsNonSeparator (p.kind c) c = true := by
    simp [IsNonSeparator, hhard, hsoft, hzero]
  simp only [act]
  rw [afterHardAction, if_neg hhard, if_pos hnon, if_neg hquote,
    wordAction_data hkind hsoft hhard]
  unfold outerAction
  cases hk : p.kind c with
  | ST_EOS => exact absurd hk hkind
  | ST_SOFT => exact absurd hk hsoft
  | ST_HARD => exact absurd hk hhard
  | ST_DATA | ST_LINE_FEED => simp only [if_neg hquote, if_neg hzero]

theorem act_stuck (hkind : p.kind 0 ≠ ST_EOS) (hsoft : p.kind 0 ≠ ST_SOFT)
    (hhard : p.kind 0 ≠ ST_HARD) (hquote : 0 ≠ p.mQuoteChar) (pos : ℕ) :
    act p .outer pos 0 = none := by
  unfold act outerAction
  cases hk : p.kind 0 with
  | ST_EOS => exact absurd hk hkind
  | ST_SOFT => exact absurd hk hsoft
  | ST_HARD => exact absurd hk hhard
  | ST_DATA | ST_LINE_FEED => simp [hquote]

/-- A turn from a character that is neither the end nor a space: it gets on, but
for a zero that is neither of them. -/
theorem turn_spec (h : Shows st done args (c :: rest)) (hkind : p.kind c ≠ ST_EOS)
    (hsoft : p.kind c ≠ ST_SOFT) (hfuel : rest.length < fuel) :
    (turn p fuel c st = none ∧ scan p .outer done args (c :: rest) = none) ∨
      (turn p fuel c st = some st ∧ scan p .outer done args (c :: rest) = none) ∨
      ∃ st' done' args' rest', turn p fuel c st = some st' ∧ Shows st' done' args' rest' ∧
        rest'.length ≤ rest.length ∧
        scan p .outer done args (c :: rest) = scan p .outer done' args' rest' := by
  by_cases hquote : c = p.mQuoteChar
  · unfold turn
    rw [if_pos hquote]
    exact (quotedArgument_spec h hkind hsoft hquote (Nat.le_of_lt hfuel)).imp_right Or.inr
  · by_cases hhard : p.kind c = ST_HARD
    · exact (turn_hard h hhard hquote hfuel).imp_right Or.inr
    · obtain ⟨fuel', hfuel'⟩ : ∃ k, fuel = k + 1 := ⟨fuel - 1, by omega⟩
      have hend := addHard_end h hhard fuel'
      rw [← hfuel'] at hend
      unfold turn
      simp only [Option.bind_eq_bind]
      rw [if_neg hquote, hend, Option.bind_some, h.load, Option.bind_some, p.lookup_eq,
        Option.bind_some]
      by_cases hzero : c = 0
      · subst hzero
        rw [if_neg (by simp [IsNonSeparator])]
        exact Or.inr (Or.inl ⟨rfl, scan_none (act_stuck hkind hsoft hhard hquote done.length)⟩)
      · have hnon : IsNonSeparator (p.kind c) c = true := by
          simp [IsNonSeparator, hhard, hsoft, hzero]
        rw [if_pos hnon,
          scan_congr (act_outer_of_data hkind hsoft hhard hquote hzero done.length)]
        rcases nonHardArgument_spec h hnon hfuel with
          hnone | ⟨st', done', args', rest', hrun', hshows', -, hle', hscan'⟩
        · exact Or.inl hnone
        · exact Or.inr (Or.inr ⟨st', done', args', rest', hrun', hshows', hle' hkind, hscan'⟩)

/-! ## The whole loop -/

theorem skipSpaces_spec (h : Shows st done args rest) (hfuel : rest.length ≤ fuel) :
    (SkipSpaces p fuel st = none ∧ scan p .outer done args rest = none) ∨
      ∃ st' done' c rest', SkipSpaces p fuel st = some st' ∧ Shows st' done' args (c :: rest') ∧
        (c :: rest').length ≤ rest.length ∧ p.kind c ≠ ST_SOFT ∧
        scan p .outer done args rest = scan p .outer done' args (c :: rest') := by
  have hgo : ∀ pos c, decide (p.kind c ≠ ST_EOS ∧ p.kind c = ST_SOFT) = true →
      act p .outer pos c = some { next := some .outer, written := c, pushed := [] } := by
    intro pos c hon
    obtain ⟨-, hsoft⟩ := of_decide_eq_true hon
    simp [act, outerAction, hsoft]
  rcases advance_spec (fun _ kind => kind ≠ ST_EOS ∧ kind = ST_SOFT) .outer hgo h hfuel with
    hnone | ⟨st', done', c, rest', hrun, hshows, hle, hends, hscan⟩
  · exact Or.inl hnone
  · refine Or.inr ⟨st', done', c, rest', hrun, hshows, hle, ?_, hscan⟩
    intro hsoft
    simp [hsoft] at hends

/-- A turn that does not get on is taken again and again. -/
theorem splitLoop_stuck (h : Shows st done args (c :: rest)) (hkind : p.kind c ≠ ST_EOS)
    (hsoft : p.kind c ≠ ST_SOFT) (hturn : turn p st.line.length c st = some st) (fuel : ℕ) :
    splitLoop p fuel st = none := by
  have hskip : SkipSpaces p st.line.length st = some st := by
    obtain ⟨k, hk⟩ : ∃ k, st.line.length = k + 1 := by
      refine ⟨done.length + rest.length, ?_⟩
      rw [h.line, List.length_append, List.length_cons]
      omega
    rw [SkipSpaces, hk, advance]
    simp only [Option.bind_eq_bind]
    rw [h.load, Option.bind_some, p.lookup_eq, Option.bind_some, if_neg (by simp [hsoft])]
    rfl
  induction fuel with
  | zero => rfl
  | succ fuel ih =>
    unfold splitLoop
    simp only [Option.bind_eq_bind]
    rw [h.load, Option.bind_some, p.lookup_eq, Option.bind_some, if_neg hkind, hskip,
      Option.bind_some, h.load, Option.bind_some, p.lookup_eq, Option.bind_some, if_neg hkind, hturn,
      Option.bind_some, ih]

theorem scan_end (hkind : p.kind c = ST_EOS) :
    scan p .outer done args (c :: rest) = some (done ++ c :: rest, args) := by
  have haction : act p .outer done.length c = some { next := none, written := c, pushed := [] } := by
    simp [act, outerAction, hkind]
  rw [scan_stop haction rfl, List.append_nil]

/-- The loop leaves what the scanner leaves. -/
theorem splitLoop_spec (h : Shows st done args rest) (hfuel : rest.length < fuel) :
    (splitLoop p fuel st = none ∧ scan p .outer done args rest = none) ∨
      ∃ st' done' args' rest', splitLoop p fuel st = some st' ∧ Shows st' done' args' rest' ∧
        scan p .outer done args rest = some (st'.line, args') := by
  induction fuel generalizing st done args rest with
  | zero => omega
  | succ fuel ih =>
    have hline : rest.length ≤ st.line.length := by
      rw [h.line, List.length_append]
      omega
    unfold splitLoop
    simp only [Option.bind_eq_bind]
    cases rest with
    | nil =>
      rw [h.load_nil]
      exact Or.inl ⟨rfl, rfl⟩
    | cons c rest =>
      rw [List.length_cons] at hfuel
      rw [h.load, Option.bind_some, p.lookup_eq, Option.bind_some]
      by_cases heos : p.kind c = ST_EOS
      · rw [if_pos heos]
        exact Or.inr ⟨st, done, args, c :: rest, rfl, h, by rw [scan_end heos, h.line]⟩
      · rw [if_neg heos]
        rcases skipSpaces_spec h hline with
          ⟨hskip, hscan⟩ | ⟨st1, done1, c1, rest1, hskip, hshows1, hle1, hsoft1, hscan1⟩
        · rw [hskip]
          exact Or.inl ⟨rfl, hscan⟩
        · rw [List.length_cons, List.length_cons] at hle1
          have hline1 : rest1.length < st1.line.length := by
            rw [hshows1.line, List.length_append, List.length_cons]
            omega
          rw [hskip, Option.bind_some, hshows1.load, Option.bind_some, p.lookup_eq, Option.bind_some,
            hscan1]
          by_cases heos1 : p.kind c1 = ST_EOS
          · rw [if_pos heos1]
            exact Or.inr ⟨st1, done1, args, c1 :: rest1, rfl, hshows1,
              by rw [scan_end heos1, hshows1.line]⟩
          · rw [if_neg heos1]
            rcases turn_spec hshows1 heos1 hsoft1 hline1 with
              ⟨hturn, hscan⟩ | ⟨hturn, hscan⟩ | ⟨st2, done2, args2, rest2, hturn, hshows2, hle2, hscan2⟩
            · rw [hturn]
              exact Or.inl ⟨rfl, hscan⟩
            · rw [hturn, Option.bind_some, splitLoop_stuck hshows1 heos1 hsoft1 hturn fuel]
              exact Or.inl ⟨rfl, hscan⟩
            · rw [hturn, Option.bind_some, hscan2]
              exact ih hshows2 (by omega)

/-- `split` gives the arguments of the scan. -/
theorem split_eq (args : ArgumentArray) (before line : List UInt8) :
    (split p args (before ++ line) before.length = none ∧ scan p .outer before [] line = none) ∨
      ∃ st arguments, split p args (before ++ line) before.length = some st ∧
        scan p .outer before [] line = some (st.line, arguments) ∧ st.argc = arguments.length ∧
        st.mArgv.take st.argc.toNat = arguments.map some := by
  have hshows : Shows { line := before ++ line, foo := before.length, argc := 0
                        mArgv := args.mArgv, mMaxArgs := args.mMaxArgs } before [] line := by
    have hpos := args.pos
    exact ⟨rfl, rfl, rfl, args.length, hpos, by simp only; omega, rfl⟩
  rcases splitLoop_spec hshows (show line.length < (before ++ line).length + 1 by
    rw [List.length_append]; omega) with hnone | ⟨st, done, arguments, rest, hrun, hfinal, hscan⟩
  · exact Or.inl hnone
  · refine Or.inr ⟨st, arguments, hrun, hscan, hfinal.argc, ?_⟩
    rw [hfinal.argc, Int.toNat_natCast]
    exact hfinal.stored

/-- What a caller gets for the arguments: the array, or none where there are none. -/
def givenArray (arguments : List Argument) : Option (List (Option Argument)) :=
  if arguments = [] then none else some (arguments.map some)

theorem given_array {st : Progress} {arguments : List Argument} (hargc : st.argc = arguments.length)
    (hstored : st.mArgv.take st.argc.toNat = arguments.map some) :
    (if st.argc ≠ 0 then some (st.mArgv.take st.argc.toNat) else none) = givenArray arguments := by
  rw [hstored, hargc, givenArray]
  by_cases hempty : arguments = []
  · simp [hempty]
  · rw [if_pos (by simpa using hempty), if_neg hempty]

theorem ProcessLine_eq (args : ArgumentArray) (before line : List UInt8) :
    ProcessLine p args (before ++ line) before.length =
      (scan p .outer before [] line).map (fun result => (givenArray result.2, result.1)) := by
  unfold ProcessLine
  simp only [Option.bind_eq_bind]
  rcases split_eq args before line with ⟨hrun, hscan⟩ | ⟨st, arguments, hrun, hscan, hargc, hstored⟩
  · rw [hrun, hscan]
    rfl
  · rw [hrun, hscan, Option.bind_some, given_array hargc hstored]
    rfl

theorem GetArglist_eq (args : ArgumentArray) (line : List UInt8) :
    GetArglist p args line =
      (scan p .outer [] [] line).map
        (fun result => (givenArray result.2, (result.2.length : Int), result.1)) := by
  have hsplit := split_eq (p := p) args [] line
  rw [List.nil_append] at hsplit
  unfold GetArglist
  simp only [Option.bind_eq_bind]
  rcases hsplit with ⟨hrun, hscan⟩ | ⟨st, arguments, hrun, hscan, hargc, hstored⟩
  · rw [List.length_nil, Int.natCast_zero] at hrun
    rw [hrun, hscan]
    rfl
  · rw [List.length_nil, Int.natCast_zero] at hrun
    rw [hrun, hscan, Option.bind_some, given_array hargc hstored, hargc]
    rfl

end bitcoinstats.inparser
