-- How far `getArgs` goes into its two tables: the characters always end in time,
-- and the pointers where the line has few arguments or long ones.
import BitcoinStats.GetArgs

open cells

namespace bitcoinstats.getargs

/-! ## The number of the pointers -/

/-- How many of the arguments are stored, with the characters from `dest` on free. -/
def storedFrom (dest : ℕ) : List Argument → ℕ
  | [] => 0
  | argument :: rest =>
    if dest < 16383 then storedFrom (dest + argument.places.length) rest + 1 else 0

/-- Where the characters of so many arguments end. -/
def placesOf (args : List Argument) : ℕ := (args.map (fun a => a.places.length)).sum

theorem storedFrom_full {dest : ℕ} (h : 16383 ≤ dest) (args : List Argument) :
    storedFrom dest args = 0 := by
  cases args with
  | nil => rfl
  | cons a args => rw [storedFrom, if_neg (by omega)]

theorem storedFrom_le (dest : ℕ) (args : List Argument) : storedFrom dest args ≤ args.length := by
  induction args generalizing dest with
  | nil => exact le_refl 0
  | cons a args ih =>
    have hle := ih (dest + a.places.length)
    rw [storedFrom, List.length_cons]
    split
    · omega
    · omega

/-- More than `n` pointers are stored when there are as many arguments, and the
first `n` leave room for a character. -/
theorem lt_storedFrom_iff {n dest : ℕ} {args : List Argument} :
    n < storedFrom dest args ↔ n < args.length ∧ dest + placesOf (args.take n) < 16383 := by
  induction args generalizing n dest with
  | nil => simp [storedFrom]
  | cons a args ih =>
    rw [storedFrom, List.length_cons]
    cases n with
    | zero =>
      by_cases hroom : dest < 16383
      · simp [placesOf, hroom]
      · simp [placesOf, hroom]
    | succ n =>
      have hstep := @ih n (dest + a.places.length)
      have hsum : placesOf ((a :: args).take (n + 1)) = a.places.length + placesOf (args.take n) := by
        simp [placesOf]
      rw [hsum]
      split
      · omega
      · omega

/-! ## The run -/

variable {input rest line : List UInt8} {st : Splitting} {n argc dest : ℕ}

/-- The cursor stands at the end of the line or at an argument. -/
def Ready (rest : List UInt8) : Prop := ∀ c ∈ rest.head?, isWhiteSpace c = false

theorem ready_dropWhile (line : List UInt8) : Ready (line.dropWhile isWhiteSpace) := by
  intro c hc
  have hhead := List.head?_dropWhile_not isWhiteSpace line
  rw [Option.mem_def.mp hc] at hhead
  simpa using hhead

theorem nextArgument_rest_ready (c : UInt8) (line : List UInt8) :
    Ready (nextArgument c line).rest := by
  unfold nextArgument
  split
  · split
    · exact ready_dropWhile _
    · exact ready_dropWhile _
  · exact ready_dropWhile _

/-- The loop fails exactly where it runs out of pointers. -/
theorem getArgsLoop_eq_none_iff {fuel : ℕ} (h : Sized st n argc dest) (hat : At input st.str rest)
    (hready : Ready rest) (hzero : 0 ∉ rest) (hargc : argc ≤ n) (hfuel : rest.length < fuel) :
    getArgsLoop input fuel st = none ↔ n < argc + storedFrom dest (arguments rest) := by
  induction fuel generalizing st rest argc dest with
  | zero => omega
  | succ fuel ih =>
    have hdest := h.dest
    unfold getArgsLoop
    simp only [Option.bind_eq_bind]
    rw [hat.load, Option.bind_some]
    cases rest with
    | nil =>
      rw [arguments, storedFrom, if_neg (by simp)]
      simp
      omega
    | cons c line =>
      obtain ⟨hc, hline⟩ : (0 : UInt8) ≠ c ∧ 0 ∉ line := by simpa using hzero
      have hspace := hready c rfl
      rw [List.length_cons] at hfuel
      rw [List.headD_cons, arguments, storedFrom]
      by_cases hroom : dest < 16383
      · rw [if_pos hroom, if_pos ⟨Ne.symm hc, by unfold stop MAX_ARG_STRING; omega⟩]
        rcases hargc.eq_or_lt with rfl | hlt
        · rw [turn_none h hat]
          simp
        · obtain ⟨st', hturn, hstored | hfull⟩ := turn_spec h hat hspace hzero hlt hroom
          · have hsub := nextArgument_rest_sublist c line
            have hloop := ih hstored.sized hstored.str (nextArgument_rest_ready c line)
              (fun hmem => hline (hsub.subset hmem)) (by omega)
              (by have hle := hsub.length_le; omega)
            rw [hturn, Option.bind_some, hloop]
            omega
          · -- the next test of `dest` ends the loop
            obtain ⟨left, hleft⟩ := hfull.str
            obtain ⟨fuel', rfl⟩ : ∃ k, fuel = k + 1 := ⟨fuel - 1, by omega⟩
            have hlong := hfull.tooLong
            rw [hturn, Option.bind_some, getArgsLoop, storedFrom_full (by omega)]
            simp only [Option.bind_eq_bind]
            rw [hleft.load, Option.bind_some, if_neg]
            · simp
              omega
            · rw [hfull.sized.dest]
              unfold stop MAX_ARG_STRING
              omega
      · rw [if_neg hroom, if_neg (by unfold stop MAX_ARG_STRING; omega)]
        simp
        omega

/-! ## When the tables are long enough -/

/-- The arguments of a line are as many as there are pointers at most, or the
first of them fill the table of the characters. -/
def FitsTables (line : List UInt8) : Prop :=
  let args := arguments (line.dropWhile isWhiteSpace)
  args.length ≤ MAX_ARGS ∨ 16383 ≤ placesOf (args.take MAX_ARGS)

theorem arguments_length_le (line : List UInt8) : (arguments line).length ≤ line.length := by
  induction hlength : line.length using Nat.strong_induction_on generalizing line with
  | _ k ih =>
    cases line with
    | nil =>
      rw [arguments]
      exact Nat.zero_le _
    | cons c line =>
      have hle := (nextArgument_rest_sublist c line).length_le
      rw [List.length_cons] at hlength
      have hrest := ih _ (by omega) (nextArgument c line).rest rfl
      rw [arguments, List.length_cons]
      omega

theorem getArgs_eq_none_iff (mArgv : List (Option Pointer)) {mArgString : List UInt8}
    (hsize : mArgString.length = MAX_ARG_STRING) (hzero : 0 ∉ line) :
    getArgs mArgv mArgString (some (line ++ [0])) = none ↔
      mArgv.length < storedFrom 0 (arguments (line.dropWhile isWhiteSpace)) := by
  have hstart := at_start line
  obtain ⟨str, hskip, hat⟩ := skipSpaces_spec hstart hstart.length_lt
  have hsub : (line.dropWhile isWhiteSpace).Sublist line := List.dropWhile_sublist _
  have hsized : Sized { str, dest := 0, argc := 0, mArgv, mArgString } mArgv.length 0 0 :=
    ⟨rfl, hsize, rfl, rfl⟩
  have hloop := getArgsLoop_eq_none_iff hsized hat (ready_dropWhile line)
    (fun hmem => hzero (hsub.subset hmem)) (Nat.zero_le _) hat.length_lt
  rw [Nat.zero_add] at hloop
  unfold getArgs
  simp only [Option.bind_eq_bind]
  rw [hskip, Option.bind_some]
  exact hloop

/-- The two tables of an object, with what was in them before. -/
structure GetArgs where
  mArgv : List (Option Pointer)
  mArgString : List UInt8
  mArgv_length : mArgv.length = MAX_ARGS
  mArgString_length : mArgString.length = MAX_ARG_STRING

def GetArgs.fresh : GetArgs :=
  { mArgv := List.replicate MAX_ARGS none, mArgString := List.replicate MAX_ARG_STRING 0
    mArgv_length := List.length_replicate, mArgString_length := List.length_replicate }

/-- All accesses are inside of the tables and of the string exactly for the lines
that fit. With pointers enough they are so for every line. -/
theorem getArgs_stays_inside_iff (g : GetArgs) (line : List UInt8) (hzero : 0 ∉ line) :
    ((∃ st, getArgs g.mArgv g.mArgString (some (line ++ [0])) = some st) ↔ FitsTables line) ∧
      ∀ mArgv : List (Option Pointer), line.length ≤ mArgv.length →
        ∃ st, getArgs mArgv g.mArgString (some (line ++ [0])) = some st := by
  have hnone := fun mArgv => getArgs_eq_none_iff mArgv g.mArgString_length hzero
  constructor
  · rw [← Option.ne_none_iff_exists', ne_eq, hnone, lt_storedFrom_iff, g.mArgv_length]
    unfold FitsTables
    omega
  · intro mArgv hlen
    rw [← Option.ne_none_iff_exists', ne_eq, hnone]
    have hstored := storedFrom_le 0 (arguments (line.dropWhile isWhiteSpace))
    have hargs := arguments_length_le (line.dropWhile isWhiteSpace)
    have hdrop := (List.dropWhile_sublist isWhiteSpace (l := line)).length_le
    omega

theorem one_letter_inside :
    ((∃ st, getArgs GetArgs.fresh.mArgv GetArgs.fresh.mArgString (some ([97] ++ [0])) = some st) ↔
        FitsTables [97]) ∧
      ∀ mArgv : List (Option Pointer), [(97 : UInt8)].length ≤ mArgv.length →
        ∃ st, getArgs mArgv GetArgs.fresh.mArgString (some ([97] ++ [0])) = some st :=
  getArgs_stays_inside_iff GetArgs.fresh [97] (by decide)

theorem storedFrom_empties (k : ℕ) :
    storedFrom 0 (arguments (List.replicate (2 * k) 34)) = k := by
  induction k with
  | zero => rw [Nat.mul_zero, List.replicate_zero, arguments, storedFrom]
  | succ k ih =>
    have hnext : nextArgument 34 (34 :: List.replicate (2 * k) 34) =
        { text := [], places := [], rest := List.replicate (2 * k) 34 } := by
      have hskip : (List.replicate (2 * k) (34 : UInt8)).dropWhile isWhiteSpace =
          List.replicate (2 * k) 34 := by
        rw [List.dropWhile_replicate]
        rfl
      simp [nextArgument, hskip]
    rw [show 2 * (k + 1) = 2 * k + 1 + 1 by omega, List.replicate_succ, List.replicate_succ,
      arguments, hnext, storedFrom, if_pos (by omega)]
    simpa using ih

/-- One empty argument more than there are pointers. -/
theorem empty_arguments_overflow :
    ¬ ∃ st, getArgs GetArgs.fresh.mArgv GetArgs.fresh.mArgString
      (some (List.replicate (2 * 4097) 34 ++ [0])) = some st := by
  have hskip : (List.replicate (2 * 4097) (34 : UInt8)).dropWhile isWhiteSpace =
      List.replicate (2 * 4097) 34 := by
    rw [List.dropWhile_replicate]
    rfl
  have hzero : 0 ∉ List.replicate (2 * 4097) (34 : UInt8) :=
    fun hmem => absurd (List.eq_of_mem_replicate hmem) (by decide)
  have hnone := getArgs_eq_none_iff GetArgs.fresh.mArgv GetArgs.fresh.mArgString_length hzero
  rw [hskip, storedFrom_empties, GetArgs.fresh.mArgv_length] at hnone
  rw [← Option.ne_none_iff_exists', ne_eq, not_not, hnone]
  decide

end bitcoinstats.getargs
