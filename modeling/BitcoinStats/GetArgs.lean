-- The split of a command line, `getArgs` in `GetArgs.h`: its two tables, of which
-- only the one for the characters has a test against its end.
import BitcoinStats.Library.CStrings

open cells

namespace bitcoinstats.getargs

/-! ## The function -/

def MAX_ARGS : Nat := 4096
def MAX_ARG_STRING : Nat := 16384

/-- What `mArgv` holds: the literal `""`, or a place in `mArgString`. -/
inductive Pointer where
  | literal
  | place (dest : Int)
deriving DecidableEq

/-- The two tables, and the variables of the function. An access outside of a
table or of the string fails. -/
structure Splitting where
  str : Int
  dest : Int
  argc : Int
  mArgv : List (Option Pointer)
  mArgString : List UInt8
deriving DecidableEq

def stop : Int := MAX_ARG_STRING - 1

def isWhiteSpace (c : UInt8) : Bool := c = 32 ∨ c = 9
def isQuote (c : UInt8) : Bool := c = 34

def skipSpaces (input : List UInt8) : Nat → Int → Option Int
  | 0, _ => none
  | fuel + 1, str => do
    let c ← load input str
    if isWhiteSpace c then skipSpaces input fuel (str + 1) else return str

/-- The two copy loops, which differ in the characters that end an argument. -/
def copyLoop (input : List UInt8) (ends : UInt8 → Bool) :
    Nat → Int → Int → List UInt8 → Option (Int × Int × List UInt8)
  | 0, _, _, _ => none
  | fuel + 1, str, dest, mArgString => do
    let c ← load input str
    if c ≠ 0 ∧ !ends c ∧ dest < stop then
      let mArgString ← store mArgString dest c
      copyLoop input ends fuel (str + 1) (dest + 1) mArgString
    else return (str, dest, mArgString)

/-- The pointer to the argument, its characters and the zero behind them. -/
def copyArgument (input : List UInt8) (ends : UInt8 → Bool) (st : Splitting) :
    Option Splitting := do
  let mArgv ← store st.mArgv st.argc (some (Pointer.place st.dest))
  let (str, dest, mArgString) ← copyLoop input ends input.length st.str st.dest st.mArgString
  let mArgString ← store mArgString dest 0
  return { str, dest := dest + 1, argc := st.argc + 1, mArgv, mArgString }

/-- One turn of the outer loop. -/
def turn (input : List UInt8) (st : Splitting) : Option Splitting := do
  let c ← load input st.str
  if c = 34 then
    let st := { st with str := st.str + 1 }
    let c ← load input st.str
    let st ←
      if c = 34 then do
        let mArgv ← store st.mArgv st.argc (some Pointer.literal)
        pure { st with argc := st.argc + 1, mArgv }
      else copyArgument input isQuote st
    let c ← load input st.str
    let str ← skipSpaces input input.length (if c = 34 then st.str + 1 else st.str)
    return { st with str }
  else
    let st ← copyArgument input isWhiteSpace st
    let str ← skipSpaces input input.length st.str
    return { st with str }

def getArgsLoop (input : List UInt8) : Nat → Splitting → Option Splitting
  | 0, _ => none
  | fuel + 1, st => do
    let c ← load input st.str
    if c ≠ 0 ∧ st.dest < stop then
      let st ← turn input st
      getArgsLoop input fuel st
    else return st

/-- `getArgs` over the tables as they are before the call; `none` for `str` is
the null pointer. -/
def getArgs (mArgv : List (Option Pointer)) (mArgString : List UInt8) (str : Option (List UInt8)) :
    Option Splitting :=
  match str with
  | none => some { str := 0, dest := 0, argc := 0, mArgv, mArgString }
  | some input => do
    let str ← skipSpaces input input.length 0
    getArgsLoop input input.length { str, dest := 0, argc := 0, mArgv, mArgString }

/-! ## The arguments of a line -/

/-- An argument as it stands in the line: its characters, what it puts into
`mArgString`, and the line behind it and the spaces after it. -/
structure Argument where
  text : List UInt8
  places : List UInt8
  rest : List UInt8
deriving DecidableEq

/-- The argument that begins with the character `c`. -/
def nextArgument (c : UInt8) (line : List UInt8) : Argument :=
  if c = 34 then
    if line.head? = some 34 then
      { text := [], places := [], rest := line.tail.dropWhile isWhiteSpace }
    else
      let text := line.takeWhile (fun c => !isQuote c)
      { text, places := text ++ [0]
        rest := (line.dropWhile (fun c => !isQuote c)).tail.dropWhile isWhiteSpace }
  else
    let text := c :: line.takeWhile (fun c => !isWhiteSpace c)
    { text, places := text ++ [0]
      rest := (line.dropWhile (fun c => !isWhiteSpace c)).dropWhile isWhiteSpace }

theorem nextArgument_rest_sublist (c : UInt8) (line : List UInt8) :
    (nextArgument c line).rest.Sublist line := by
  have hskip : ∀ l : List UInt8, (l.dropWhile isWhiteSpace).Sublist l :=
    fun l => List.dropWhile_sublist _
  unfold nextArgument
  split
  · split
    · exact (hskip _).trans (List.tail_sublist line)
    · exact (hskip _).trans ((List.tail_sublist _).trans (List.dropWhile_sublist _))
  · exact (hskip _).trans (List.dropWhile_sublist _)

/-- The arguments of a line that does not begin with a space. -/
def arguments : List UInt8 → List Argument
  | [] => []
  | c :: line => nextArgument c line :: arguments (nextArgument c line).rest
termination_by line => line.length
decreasing_by
  have hle := (nextArgument_rest_sublist c line).length_le
  simp
  omega

/-! ## The loops -/

variable {input rest : List UInt8} {str : Int}

theorem skipSpaces_spec {fuel : ℕ} (h : At input str rest) (hfuel : rest.length < fuel) :
    ∃ str', skipSpaces input fuel str = some str' ∧ At input str' (rest.dropWhile isWhiteSpace) := by
  induction fuel generalizing str rest with
  | zero => omega
  | succ fuel ih =>
    unfold skipSpaces
    simp only [Option.bind_eq_bind]
    rw [h.load, Option.bind_some]
    cases rest with
    | nil => exact ⟨str, rfl, h⟩
    | cons c rest =>
      rw [List.length_cons] at hfuel
      rw [List.headD_cons, List.dropWhile_cons]
      by_cases hspace : isWhiteSpace c
      · rw [if_pos hspace, if_pos hspace]
        exact ih h.next (by omega)
      · rw [if_neg hspace, if_neg hspace]
        exact ⟨str, rfl, h⟩

/-- The loop copies up to an end of the argument, or until the table is full. -/
theorem copyLoop_spec (ends : UInt8 → Bool) {fuel p : ℕ} {dest : Int} {mArgString copied : List UInt8}
    (h : At input str rest) (hzero : 0 ∉ rest) (hfuel : rest.length < fuel)
    (hlen : mArgString.length = MAX_ARG_STRING) (hdest : dest = (p + copied.length : ℕ))
    (hle : p + copied.length ≤ 16383) :
    ∃ str' text left, copyLoop input ends fuel str dest (overwrite mArgString p copied) =
        some (str', ((p + (copied ++ text).length : ℕ) : Int),
          overwrite mArgString p (copied ++ text)) ∧
      At input str' left ∧ p + (copied ++ text).length ≤ 16383 ∧
      (text = rest.takeWhile (fun c => !ends c) ∧ left = rest.dropWhile (fun c => !ends c) ∨
        p + (copied ++ text).length = 16383 ∧
          text.length < (rest.takeWhile (fun c => !ends c)).length) := by
  induction fuel generalizing str rest dest copied with
  | zero => omega
  | succ fuel ih =>
    unfold copyLoop
    simp only [Option.bind_eq_bind]
    rw [h.load, Option.bind_some]
    have hstop : ∀ str', (pure (str', dest, overwrite mArgString p copied) :
        Option (Int × Int × List UInt8)) =
          some (str', ((p + (copied ++ []).length : ℕ) : Int),
            overwrite mArgString p (copied ++ [])) := by
      intro str'
      rw [List.append_nil, ← hdest]
      rfl
    cases rest with
    | nil =>
      rw [if_neg (by simp)]
      exact ⟨str, [], [], hstop str, h, by simpa using hle, Or.inl ⟨rfl, rfl⟩⟩
    | cons c rest =>
      obtain ⟨hc, hrest⟩ : (0 : UInt8) ≠ c ∧ 0 ∉ rest := by simpa using hzero
      rw [List.length_cons] at hfuel
      rw [List.headD_cons]
      by_cases hends : ends c
      · rw [if_neg (by simp [hends])]
        exact ⟨str, [], c :: rest, hstop str, h, by simpa using hle,
          Or.inl ⟨by simp [hends], by simp [hends]⟩⟩
      · by_cases hroom : dest < stop
        · have hlt : p + copied.length < 16383 := by
            unfold stop MAX_ARG_STRING at hroom
            omega
          rw [if_pos ⟨Ne.symm hc, by simpa using hends, hroom⟩,
            store_overwrite copied (by rw [hlen, MAX_ARG_STRING]; omega) hdest, Option.bind_some]
          have hlength : (copied ++ [c]).length = copied.length + 1 := by
            rw [List.length_append, List.length_singleton]
          have hdest' : dest + 1 = (p + (copied ++ [c]).length : ℕ) := by omega
          obtain ⟨str', text, left, hrun, hat, hfull, hcases⟩ :=
            ih h.next hrest (by omega) hdest' (by omega)
          rw [List.append_assoc, List.singleton_append] at hrun hfull hcases
          refine ⟨str', c :: text, left, hrun, hat, hfull, ?_⟩
          rcases hcases with ⟨htext, hleft'⟩ | ⟨hend, hshort⟩
          · exact Or.inl ⟨by simp [hends, htext], by simp [hends, hleft']⟩
          · exact Or.inr ⟨hend, by simpa [hends] using hshort⟩
        · have hfull : p + copied.length = 16383 := by
            unfold stop MAX_ARG_STRING at hroom
            omega
          rw [if_neg (by simp [hroom])]
          exact ⟨str, [], c :: rest, hstop str, h, by simpa using hle,
            Or.inr ⟨by simpa using hfull, by simp [hends]⟩⟩

/-! ## One argument -/

/-- The tables have their sizes, of which the one for the pointers is `n`, and
the counters are numbers. -/
structure Sized (st : Splitting) (n argc dest : ℕ) : Prop where
  mArgv : st.mArgv.length = n
  mArgString : st.mArgString.length = MAX_ARG_STRING
  argc : st.argc = argc
  dest : st.dest = dest

/-- What a turn leaves: the argument is stored, or the table of the characters is
full. -/
structure Stored (input : List UInt8) (st st' : Splitting) (argument : Argument) (n argc dest : ℕ) :
    Prop where
  whole : dest + argument.places.length ≤ 16383
  sized : Sized st' n (argc + 1) (dest + argument.places.length)
  str : At input st'.str argument.rest
  mArgv : st'.mArgv = st.mArgv.set argc
    (some (if argument.places = [] then .literal else .place dest))
  mArgString : st'.mArgString = overwrite st.mArgString dest argument.places

structure Full (input : List UInt8) (st' : Splitting) (argument : Argument) (n argc dest : ℕ) :
    Prop where
  tooLong : 16383 < dest + argument.places.length
  sized : Sized st' n (argc + 1) 16384
  str : ∃ left, At input st'.str left

variable {st : Splitting} {n argc dest : ℕ} {c : UInt8} {line : List UInt8}

theorem Sized.withStr (h : Sized st n argc dest) (str : Int) : Sized { st with str } n argc dest :=
  ⟨h.mArgv, h.mArgString, h.argc, h.dest⟩

theorem Sized.store_argv (h : Sized st n argc dest) (hargc : argc < n) (pointer : Option Pointer) :
    store st.mArgv st.argc pointer = some (st.mArgv.set argc pointer) := by
  have hlen := h.mArgv
  rw [h.argc, store_within ⟨Int.natCast_nonneg argc, by omega⟩, Int.toNat_natCast]

theorem Sized.store_full (h : Sized st n n dest) (pointer : Option Pointer) :
    store st.mArgv st.argc pointer = none := by
  have hlen := h.mArgv
  rw [h.argc, store, if_neg (by omega)]

/-- The characters of the argument and a zero are stored, or as many as there is
room for. -/
theorem copyArgument_spec (ends : UInt8 → Bool) (h : Sized st n argc dest)
    (hat : At input st.str rest) (hzero : 0 ∉ rest) (hargc : argc < n) (hdest : dest < 16383) :
    ∃ st' left, copyArgument input ends st = some st' ∧ At input st'.str left ∧
      (let text := rest.takeWhile (fun c => !ends c)
      (dest + text.length + 1 ≤ 16383 ∧ Sized st' n (argc + 1) (dest + text.length + 1) ∧
        left = rest.dropWhile (fun c => !ends c) ∧
        st'.mArgv = st.mArgv.set argc (some (.place dest)) ∧
        st'.mArgString = overwrite st.mArgString dest (text ++ [0])) ∨
      (16383 < dest + text.length + 1 ∧ Sized st' n (argc + 1) 16384)) := by
  obtain ⟨str', text, left, hrun, hat', hle, hcases⟩ :=
    copyLoop_spec ends hat hzero hat.length_lt h.mArgString
      (show (dest : Int) = (dest + ([] : List UInt8).length : ℕ) by simp) (by simp; omega)
  rw [overwrite_nil, List.nil_append] at hrun
  rw [List.nil_append] at hle hcases
  have hlen := h.mArgString
  have hlenv := h.mArgv
  unfold MAX_ARG_STRING at hlen
  obtain ⟨st', hst'⟩ : ∃ st' : Splitting, st' =
      { str := str', dest := ((dest + text.length : ℕ) : Int) + 1, argc := (argc : Int) + 1
        mArgv := st.mArgv.set argc (some (.place dest))
        mArgString := overwrite st.mArgString dest (text ++ [0]) } := ⟨_, rfl⟩
  have hat'' : At input st'.str left := by
    rw [hst']
    exact hat'
  refine ⟨st', left, ?_, hat'', ?_⟩
  · rw [hst']
    unfold copyArgument
    simp only [Option.bind_eq_bind]
    rw [h.store_argv hargc, Option.bind_some, h.dest, hrun, Option.bind_some]
    simp only
    rw [store_overwrite text (by omega) rfl, Option.bind_some, h.argc]
    rfl
  · simp only
    have hsized : ∀ d : ℕ, dest + text.length + 1 = d → Sized st' n (argc + 1) d := by
      intro d hd
      rw [hst']
      constructor
      · simpa using hlenv
      · simp only
        rw [overwrite_length (by rw [List.length_append, List.length_singleton]; omega)]
        exact h.mArgString
      · simp
      · simp only
        omega
    rcases hcases with ⟨htext, hdrop⟩ | ⟨hfull, hshort⟩
    · rw [← htext]
      by_cases hroom : dest + text.length + 1 ≤ 16383
      · exact Or.inl ⟨hroom, hsized _ rfl, hdrop, by rw [hst'], by rw [hst']⟩
      · exact Or.inr ⟨by omega, hsized _ (by omega)⟩
    · exact Or.inr ⟨by omega, hsized _ (by omega)⟩

/-- The test for the closing quote. -/
theorem skipQuote {left : List UInt8} (h : At input str left) :
    At input (if left.headD 0 = 34 then str + 1 else str)
      (if left.headD 0 = 34 then left.tail else left) := by
  split
  · rename_i hquote
    cases left with
    | nil => exact absurd hquote (by decide)
    | cons c left => exact h.next
  · exact h

/-- What the dropped part stops at is the closing quote. -/
theorem tail_of_dropWhile_quote (line : List UInt8) :
    (if (line.dropWhile (fun c => !isQuote c)).headD 0 = 34 then
      (line.dropWhile (fun c => !isQuote c)).tail
      else line.dropWhile (fun c => !isQuote c)) =
    (line.dropWhile (fun c => !isQuote c)).tail := by
  have hhead := List.head?_dropWhile_not (fun c => !isQuote c) line
  cases hdrop : line.dropWhile (fun c => !isQuote c) with
  | nil => rfl
  | cons c left =>
    rw [hdrop] at hhead
    rw [if_pos (by simpa [isQuote] using hhead)]

/-- The two quotes of an empty argument: nothing is stored in `mArgString`. -/
theorem turn_empty (h : Sized st n argc dest) (hat : At input st.str (34 :: 34 :: line))
    (hargc : argc < n) (hdest : dest < 16383) :
    ∃ st', turn input st = some st' ∧
      Stored input st st' (nextArgument 34 (34 :: line)) n argc dest := by
  have hmArgv := h.mArgv
  obtain ⟨str', hskip, hat'⟩ := skipSpaces_spec hat.next.next hat.next.next.length_lt
  refine ⟨{ st with str := str', argc := st.argc + 1, mArgv := st.mArgv.set argc (some .literal) },
    ?_, ⟨by simp [nextArgument]; omega, ⟨?_, h.mArgString, ?_, ?_⟩, ?_, ?_, ?_⟩⟩
  · unfold turn
    simp only [Option.bind_eq_bind]
    rw [hat.load, Option.bind_some, List.headD_cons, if_pos rfl, hat.next.load, Option.bind_some,
      List.headD_cons, if_pos rfl, h.store_argv hargc]
    simp only [Option.bind_some, Option.pure_def]
    rw [hat.next.load, Option.bind_some, List.headD_cons, if_pos rfl, hskip, Option.bind_some]
  · simpa using hmArgv
  · simp [h.argc]
  · simp [nextArgument, h.dest]
  · simpa [nextArgument] using hat'
  · simp [nextArgument]
  · simp [nextArgument]

theorem turn_quoted (h : Sized st n argc dest) (hat : At input st.str (34 :: line))
    (hempty : line.headD 0 ≠ 34) (hzero : 0 ∉ line) (hargc : argc < n) (hdest : dest < 16383) :
    ∃ st', turn input st = some st' ∧ (Stored input st st' (nextArgument 34 line) n argc dest ∨
      Full input st' (nextArgument 34 line) n argc dest) := by
  have hhead : line.head? ≠ some 34 := by
    intro hhead
    exact hempty (by rw [List.headD_eq_head?_getD, hhead]; rfl)
  have hnext : nextArgument 34 line =
      { text := line.takeWhile (fun c => !isQuote c)
        places := line.takeWhile (fun c => !isQuote c) ++ [0]
        rest := (line.dropWhile (fun c => !isQuote c)).tail.dropWhile isWhiteSpace } := by
    rw [nextArgument, if_pos rfl, if_neg hhead]
  obtain ⟨st', left, hcopy, hleft, hcases⟩ :=
    copyArgument_spec isQuote (h.withStr (st.str + 1)) hat.next hzero hargc hdest
  obtain ⟨str', hskip, hat'⟩ := skipSpaces_spec (skipQuote hleft) (skipQuote hleft).length_lt
  refine ⟨{ st' with str := str' }, ?_, ?_⟩
  · unfold turn
    simp only [Option.bind_eq_bind]
    rw [hat.load, Option.bind_some, List.headD_cons, if_pos rfl, hat.next.load, Option.bind_some,
      if_neg hempty, hcopy, Option.bind_some, hleft.load, Option.bind_some, hskip, Option.bind_some]
    rfl
  · rw [hnext]
    rcases hcases with ⟨hroom, hsized, hdrop, hmArgv, hmArgString⟩ | ⟨hfull, hsized⟩
    · left
      rw [hdrop, tail_of_dropWhile_quote] at hat'
      exact ⟨by simpa [Nat.add_assoc] using hroom, by simpa [Nat.add_assoc] using hsized.withStr str',
        hat', by simpa using hmArgv, hmArgString⟩
    · right
      exact ⟨by simpa [Nat.add_assoc] using hfull, hsized.withStr str', _, hat'⟩

theorem turn_bare (h : Sized st n argc dest) (hat : At input st.str (c :: line)) (hquote : c ≠ 34)
    (hspace : isWhiteSpace c = false) (hzero : 0 ∉ c :: line) (hargc : argc < n)
    (hdest : dest < 16383) :
    ∃ st', turn input st = some st' ∧ (Stored input st st' (nextArgument c line) n argc dest ∨
      Full input st' (nextArgument c line) n argc dest) := by
  have hnext : nextArgument c line =
      { text := (c :: line).takeWhile (fun c => !isWhiteSpace c)
        places := (c :: line).takeWhile (fun c => !isWhiteSpace c) ++ [0]
        rest := ((c :: line).dropWhile (fun c => !isWhiteSpace c)).dropWhile isWhiteSpace } := by
    simp [nextArgument, hquote, hspace]
  obtain ⟨st', left, hcopy, hleft, hcases⟩ :=
    copyArgument_spec isWhiteSpace h hat hzero hargc hdest
  obtain ⟨str', hskip, hat'⟩ := skipSpaces_spec hleft hleft.length_lt
  refine ⟨{ st' with str := str' }, ?_, ?_⟩
  · unfold turn
    simp only [Option.bind_eq_bind]
    rw [hat.load, Option.bind_some, List.headD_cons, if_neg hquote, hcopy, Option.bind_some, hskip,
      Option.bind_some]
    rfl
  · rw [hnext]
    rcases hcases with ⟨hroom, hsized, hdrop, hmArgv, hmArgString⟩ | ⟨hfull, hsized⟩
    · left
      rw [hdrop] at hat'
      exact ⟨by simpa [Nat.add_assoc] using hroom, by simpa [Nat.add_assoc] using hsized.withStr str',
        hat', by simpa using hmArgv, hmArgString⟩
    · right
      exact ⟨by simpa [Nat.add_assoc] using hfull, hsized.withStr str', _, hat'⟩

/-- One turn of the loop takes one argument, or fills the table of the characters. -/
theorem turn_spec (h : Sized st n argc dest) (hat : At input st.str (c :: line))
    (hspace : isWhiteSpace c = false) (hzero : 0 ∉ c :: line) (hargc : argc < n)
    (hdest : dest < 16383) :
    ∃ st', turn input st = some st' ∧ (Stored input st st' (nextArgument c line) n argc dest ∨
      Full input st' (nextArgument c line) n argc dest) := by
  by_cases hquote : c = 34
  · subst hquote
    by_cases hempty : line.headD 0 = 34
    · obtain ⟨line', rfl⟩ : ∃ line', line = 34 :: line' := by
        cases line with
        | nil => exact absurd hempty (by decide)
        | cons c' line' => exact ⟨line', by rw [show c' = 34 from hempty]⟩
      obtain ⟨st', hrun, hstored⟩ := turn_empty h hat hargc hdest
      exact ⟨st', hrun, Or.inl hstored⟩
    · exact turn_quoted h hat hempty (fun hmem => hzero (List.mem_cons_of_mem _ hmem)) hargc hdest
  · exact turn_bare h hat hquote hspace hzero hargc hdest

/-- With the table of the pointers full there is no further turn. -/
theorem turn_none (h : Sized st n n dest) (hat : At input st.str (c :: line)) :
    turn input st = none := by
  have hargument : ∀ str ends, copyArgument input ends { st with str } = none := by
    intro str ends
    unfold copyArgument
    simp only [Option.bind_eq_bind]
    rw [(h.withStr str).store_full, Option.bind_none]
  unfold turn
  simp only [Option.bind_eq_bind]
  rw [hat.load, Option.bind_some, List.headD_cons]
  by_cases hquote : c = 34
  · rw [if_pos hquote, hat.next.load, Option.bind_some]
    split
    · rw [h.store_full]
      rfl
    · rw [hargument]
      rfl
  · rw [if_neg hquote, hargument st.str isWhiteSpace]
    rfl

end bitcoinstats.getargs
