-- The two functions `formatNumber`, of `logging.cpp` and `sutil.cpp`: the commas
-- that they place, and the pool of strings that each of them hands out in turn.
import BitcoinStats.Library.CStrings
import BitcoinStats.Library.Decimal

open cells decimal_text

namespace bitcoinstats.format_number

/-! ## The two functions -/

def MAXNUMERIC : Int := 32
def MAXFNUM : Int := 16

/-- The two static variables, of which each file has its own. -/
structure Statics where
  gFormat : List UInt8
  gIndex : Int
deriving DecidableEq

def Statics.start : Statics := { gFormat := List.replicate 512 0, gIndex := 0 }

/-- The macros of the build: `LINUX` is for any of the three that `sutil.cpp`
looks for. -/
structure Macros where
  MSC_VER : Bool
  LINUX : Bool
deriving DecidableEq

/-- The text of a number, as `itoa` and `%d` have it. -/
def itoa (number : Int32) : List UInt8 :=
  if number.toInt < 0 then 45 :: decimal number.toInt.natAbs else decimal number.toInt.natAbs

/-- What `snprintf` keeps of a text, with its zero, in `size` characters. -/
def snprintf (size : Nat) (text : List UInt8) : List UInt8 := text.take (size - 1)

/-- The loop over the characters of `source`: `place` is the number of the
characters behind the one that is stored. -/
def commaLoop : List UInt8 → List UInt8 → Int → Option (List UInt8 × Int)
  | [], gFormat, str => some (gFormat, str)
  | c :: source, gFormat, str => do
    let place := source.length
    let gFormat ← store gFormat str c
    let str := str + 1
    if place ≠ 0 ∧ place % 3 = 0 then
      let gFormat ← store gFormat str 44
      commaLoop source gFormat (str + 1)
    else commaLoop source gFormat str

/-- The next string of the pool. -/
def Statics.nextIndex (s : Statics) : Int :=
  let gIndex := s.gIndex + 1
  if gIndex = MAXFNUM then 0 else gIndex

/-- `formatNumber` of `logging.cpp`: where the string begins, and the pool. -/
def logging.formatNumber (m : Macros) (s : Statics) (number : Int32) : Option (Int × Statics) := do
  let dest := s.gIndex * MAXNUMERIC
  let scratch := if m.MSC_VER then itoa number else snprintf 10 (itoa number)
  let (source, gFormat, str) ←
    if scratch.head? = some 45 then do
      let gFormat ← store s.gFormat dest 45
      pure (scratch.tail, gFormat, dest + 1)
    else pure (scratch, s.gFormat, dest)
  let (gFormat, str) ← commaLoop source gFormat str
  let gFormat ← store gFormat str 0
  return (dest, { gFormat, gIndex := s.nextIndex })

/-- `sutil::formatNumber`, which places its commas in the whole text. -/
def sutil.formatNumber (m : Macros) (s : Statics) (number : Int32) : Option (Int × Statics) := do
  let dest := s.gIndex * MAXNUMERIC
  let scratch := if m.LINUX then snprintf 10 (itoa number) else itoa number
  let (gFormat, str) ← commaLoop scratch s.gFormat dest
  let gFormat ← store gFormat str 0
  return (dest, { gFormat, gIndex := s.nextIndex })

/-! ## The commas -/

/-- What the loop stores. -/
def withCommas : List UInt8 → List UInt8
  | [] => []
  | c :: source =>
    if source.length ≠ 0 ∧ source.length % 3 = 0 then c :: 44 :: withCommas source
    else c :: withCommas source

/-- A comma before every group of three digits, counted from the right. -/
def grouped (digits : List UInt8) : List UInt8 :=
  if digits.length ≤ 3 then digits
  else grouped (digits.take (digits.length - 3)) ++ 44 :: digits.drop (digits.length - 3)
termination_by digits.length
decreasing_by
  rw [List.length_take]
  omega

/-- The number with its sign, and the commas between its digits. -/
def commaText (number : Int32) : List UInt8 :=
  if number.toInt < 0 then 45 :: grouped (decimal number.toInt.natAbs)
  else grouped (decimal number.toInt.natAbs)

variable {source : List UInt8}

theorem withCommas_of_le (h : source.length ≤ 3) : withCommas source = source := by
  induction source with
  | nil => rfl
  | cons c source ih =>
    rw [List.length_cons] at h
    rw [withCommas, if_neg (by omega), ih (by omega)]

/-- The last group stands behind its comma. -/
theorem withCommas_append {last : List UInt8} (hlast : last.length = 3) (h : source ≠ []) :
    withCommas (source ++ last) = withCommas source ++ 44 :: last := by
  induction source with
  | nil => exact absurd rfl h
  | cons c source ih =>
    rw [List.cons_append, withCommas, withCommas, List.length_append, hlast]
    cases source with
    | nil =>
      rw [if_pos (by simp), if_neg (by simp), List.nil_append, withCommas_of_le (by omega)]
      rfl
    | cons c' source =>
      rw [ih (by simp)]
      by_cases hmod : (c' :: source).length % 3 = 0
      · rw [if_pos (by omega), if_pos ⟨by simp, hmod⟩]
        rfl
      · rw [if_neg (by omega), if_neg (by tauto)]
        rfl

theorem withCommas_eq_grouped (digits : List UInt8) : withCommas digits = grouped digits := by
  induction hlength : digits.length using Nat.strong_induction_on generalizing digits with
  | _ n ih =>
    unfold grouped
    split
    · rename_i hle
      exact withCommas_of_le hle
    · rename_i hgt
      have htake : (digits.take (digits.length - 3)).length = digits.length - 3 := by
        rw [List.length_take]
        omega
      have hlast : (digits.drop (digits.length - 3)).length = 3 := by
        rw [List.length_drop]
        omega
      have hne : digits.take (digits.length - 3) ≠ [] := by
        rw [ne_eq, ← List.length_eq_zero_iff, htake]
        omega
      have hsplit := withCommas_append hlast hne
      rw [List.take_append_drop] at hsplit
      rw [hsplit, ih _ (by omega) _ htake]

/-- Without the commas the digits are left. -/
theorem filter_withCommas (h : 44 ∉ source) : (withCommas source).filter (· ≠ 44) = source := by
  induction source with
  | nil => rfl
  | cons c source ih =>
    obtain ⟨hc, hsource⟩ : (44 : UInt8) ≠ c ∧ 44 ∉ source := by simpa using h
    rw [withCommas]
    split
    · simpa [Ne.symm hc] using ih hsource
    · simpa [Ne.symm hc] using ih hsource

theorem mem_withCommas {c : UInt8} (h : c ∈ withCommas source) : c ∈ source ∨ c = 44 := by
  induction source with
  | nil => simp [withCommas] at h
  | cons c' source ih =>
    rw [withCommas] at h
    split at h
    · rcases List.mem_cons.mp h with rfl | h
      · simp
      · rcases List.mem_cons.mp h with rfl | h
        · simp
        · exact (ih h).imp_left (List.mem_cons_of_mem _)
    · rcases List.mem_cons.mp h with rfl | h
      · simp
      · exact (ih h).imp_left (List.mem_cons_of_mem _)

theorem withCommas_length_le (source : List UInt8) :
    (withCommas source).length ≤ 2 * source.length := by
  induction source with
  | nil => simp [withCommas]
  | cons c source ih =>
    rw [withCommas]
    split
    · simp only [List.length_cons]
      omega
    · simp only [List.length_cons]
      omega

/-- The stores of the loop are in a row. -/
theorem commaLoop_eq (new : List UInt8) {gFormat : List UInt8} {p : ℕ} {str : Int}
    (h : p + new.length + (withCommas source).length ≤ gFormat.length)
    (hstr : str = (p + new.length : ℕ)) :
    commaLoop source (overwrite gFormat p new) str =
      some (overwrite gFormat p (new ++ withCommas source),
        ((p + (new ++ withCommas source).length : ℕ) : Int)) := by
  induction source generalizing new str with
  | nil => simp [commaLoop, withCommas, hstr]
  | cons c source ih =>
    unfold commaLoop
    rw [withCommas] at h ⊢
    simp only [Option.bind_eq_bind]
    by_cases hcomma : source.length ≠ 0 ∧ source.length % 3 = 0
    · rw [if_pos hcomma] at h ⊢
      simp only [List.length_cons] at h
      rw [store_overwrite new (by omega) hstr, Option.bind_some, if_pos hcomma,
        store_overwrite (new ++ [c]) (by simp; omega) (by simp; omega), Option.bind_some,
        ih (new ++ [c] ++ [44]) (by simp; omega) (by simp; omega)]
      simp
    · rw [if_neg hcomma] at h ⊢
      simp only [List.length_cons] at h
      rw [store_overwrite new (by omega) hstr, Option.bind_some, if_neg hcomma,
        ih (new ++ [c]) (by simp; omega) (by simp; omega)]
      simp

/-! ## The texts -/

def logging.scratch (m : Macros) (number : Int32) : List UInt8 :=
  if m.MSC_VER then itoa number else snprintf 10 (itoa number)

def sutil.scratch (m : Macros) (number : Int32) : List UInt8 :=
  if m.LINUX then snprintf 10 (itoa number) else itoa number

/-- What `formatNumber` of `logging.cpp` stores before the zero. -/
def logging.text (m : Macros) (number : Int32) : List UInt8 :=
  if (logging.scratch m number).head? = some 45 then
    45 :: withCommas (logging.scratch m number).tail
  else withCommas (logging.scratch m number)

def sutil.text (m : Macros) (number : Int32) : List UInt8 := withCommas (sutil.scratch m number)

variable {m : Macros} {number : Int32}

theorem not_mem_decimal {c : UInt8} (hc : ¬ IsDigit c) (n : Nat) : c ∉ decimal n :=
  fun hmem => hc (isDigit_decimal n c hmem)

/-- A text of digits and a sign at the front. -/
theorem not_mem_itoa {c : UInt8} (hc : ¬ IsDigit c) (hsign : c ≠ 45) (number : Int32) :
    c ∉ itoa number := by
  unfold itoa
  split
  · simp [hsign, not_mem_decimal hc]
  · exact not_mem_decimal hc _

theorem decimal_length_le_ten (number : Int32) : (decimal number.toInt.natAbs).length ≤ 10 := by
  have hlow := number.le_toInt
  have hhigh := number.toInt_lt
  rw [decimal_length_le_iff (by omega)]
  omega

theorem itoa_length_le (number : Int32) : (itoa number).length ≤ 11 := by
  have hle := decimal_length_le_ten number
  unfold itoa
  split
  · rw [List.length_cons]
    omega
  · omega

theorem snprintf_sublist (size : Nat) (text : List UInt8) :
    (snprintf size text).Sublist text := List.take_sublist _ _

theorem logging.scratch_sublist (m : Macros) (number : Int32) :
    (logging.scratch m number).Sublist (itoa number) := by
  unfold logging.scratch
  split
  · exact List.Sublist.refl _
  · exact snprintf_sublist _ _

theorem sutil.scratch_sublist (m : Macros) (number : Int32) :
    (sutil.scratch m number).Sublist (itoa number) := by
  unfold sutil.scratch
  split
  · exact snprintf_sublist _ _
  · exact List.Sublist.refl _

theorem not_mem_withCommas_of_sublist (h : source.Sublist (itoa number)) :
    0 ∉ withCommas source := by
  intro hmem
  rcases mem_withCommas hmem with hmem | hcomma
  · exact not_mem_itoa (by decide) (by decide) number (h.subset hmem)
  · exact absurd hcomma (by decide)

theorem withCommas_short (h : source.Sublist (itoa number)) : (withCommas source).length ≤ 22 := by
  have hle := withCommas_length_le source
  have hsub := h.length_le
  have hitoa := itoa_length_le number
  omega

/-! ## The pool of strings -/

structure Statics.Valid (s : Statics) : Prop where
  length : s.gFormat.length = 512
  nonneg : 0 ≤ s.gIndex
  lt : s.gIndex < 16

/-- The function stores a text and a zero in the next string of the pool. -/
structure Formats (f : Statics → Int32 → Option (Int × Statics)) (text : Int32 → List UInt8) :
    Prop where
  runs : ∀ s number, s.Valid → f s number =
    some (s.gIndex * MAXNUMERIC,
      { gFormat := overwrite s.gFormat (s.gIndex * MAXNUMERIC).toNat (text number ++ [0])
        gIndex := s.nextIndex })
  short : ∀ number, (text number).length ≤ 31
  noZero : ∀ number, 0 ∉ text number

/-- The string that is next lies in the pool. -/
theorem Statics.Valid.place {s : Statics} (h : s.Valid) :
    ∃ p : ℕ, s.gIndex * MAXNUMERIC = p ∧ p + 32 ≤ s.gFormat.length := by
  have hlen := h.length
  have hnonneg := h.nonneg
  have hlt := h.lt
  refine ⟨s.gIndex.toNat * 32, ?_, by omega⟩
  unfold MAXNUMERIC
  omega

/-- The loop and the zero, behind what is stored already. -/
theorem commaLoop_zero (source gFormat new : List UInt8) {p : ℕ} {str : Int}
    (hstr : str = (p + new.length : ℕ))
    (h : p + new.length + (withCommas source).length < gFormat.length) :
    ∃ r, commaLoop source (overwrite gFormat p new) str = some r ∧
      store r.1 r.2 0 = some (overwrite gFormat p (new ++ withCommas source ++ [0])) :=
  ⟨_, commaLoop_eq new (by omega) hstr,
    store_overwrite (new ++ withCommas source) (by rw [List.length_append]; omega) rfl 0⟩

theorem logging.text_length_le (m : Macros) (number : Int32) : (logging.text m number).length ≤ 31 := by
  unfold logging.text
  split
  · have hshort := withCommas_short ((List.tail_sublist _).trans
      (logging.scratch_sublist m number))
    rw [List.length_cons]
    omega
  · have hshort := withCommas_short (logging.scratch_sublist m number)
    omega

theorem logging.formats (m : Macros) : Formats (logging.formatNumber m) (logging.text m) := by
  constructor
  · intro s number hs
    obtain ⟨p, hp, hlen⟩ := hs.place
    have hscratch : (if m.MSC_VER then itoa number else snprintf 10 (itoa number)) =
        logging.scratch m number := rfl
    have hshort := logging.text_length_le m number
    unfold logging.formatNumber
    unfold logging.text at hshort ⊢
    simp only [Option.bind_eq_bind, hscratch, hp, Int.toNat_natCast]
    generalize logging.scratch m number = scratch at hshort ⊢
    by_cases hsign : scratch.head? = some 45
    · rw [if_pos hsign, List.length_cons] at hshort
      obtain ⟨r, hloop, hzero⟩ := commaLoop_zero scratch.tail s.gFormat [45]
        (show (p : Int) + 1 = (p + ([45] : List UInt8).length : ℕ) by simp) (by simp; omega)
      have hstore := store_overwrite [] (show p + 0 < s.gFormat.length by omega)
        (show (p : Int) = (p + ([] : List UInt8).length : ℕ) by simp) 45
      rw [overwrite_nil, List.nil_append] at hstore
      rw [if_pos hsign, if_pos hsign, hstore]
      simp only [Option.bind_some, Option.pure_def, hloop, hzero]
      rfl
    · rw [if_neg hsign] at hshort
      obtain ⟨r, hloop, hzero⟩ := commaLoop_zero scratch s.gFormat []
        (show (p : Int) = (p + ([] : List UInt8).length : ℕ) by simp) (by simp; omega)
      rw [overwrite_nil] at hloop
      rw [List.nil_append] at hzero
      rw [if_neg hsign, if_neg hsign]
      simp only [Option.bind_some, Option.pure_def, hloop, hzero]
  · exact logging.text_length_le m
  · intro number
    unfold logging.text
    split
    · have hzero := not_mem_withCommas_of_sublist ((List.tail_sublist _).trans
        (logging.scratch_sublist m number))
      simp [hzero]
    · exact not_mem_withCommas_of_sublist (logging.scratch_sublist m number)

theorem sutil.formats (m : Macros) : Formats (sutil.formatNumber m) (sutil.text m) := by
  have hshort : ∀ number, (sutil.text m number).length ≤ 31 := by
    intro number
    have hle := withCommas_short (sutil.scratch_sublist m number)
    unfold sutil.text
    omega
  constructor
  · intro s number hs
    obtain ⟨p, hp, hlen⟩ := hs.place
    have hscratch : (if m.LINUX then snprintf 10 (itoa number) else itoa number) =
        sutil.scratch m number := rfl
    have hle := hshort number
    unfold sutil.text at hle
    obtain ⟨r, hloop, hzero⟩ := commaLoop_zero (sutil.scratch m number) s.gFormat []
      (show (p : Int) = (p + ([] : List UInt8).length : ℕ) by simp) (by simp; omega)
    rw [overwrite_nil] at hloop
    rw [List.nil_append] at hzero
    unfold sutil.formatNumber sutil.text
    simp only [Option.bind_eq_bind, hscratch, hp, Int.toNat_natCast, Option.bind_some,
      Option.pure_def, hloop, hzero]
  · exact hshort
  · intro number
    exact not_mem_withCommas_of_sublist (sutil.scratch_sublist m number)

variable {f : Statics → Int32 → Option (Int × Statics)} {text : Int32 → List UInt8} {s : Statics}

/-- Calls of one of the functions, one after the other. -/
def calls (f : Statics → Int32 → Option (Int × Statics)) : Statics → List Int32 → Option Statics
  | s, [] => some s
  | s, number :: numbers => do
    let (_, s) ← f s number
    calls f s numbers

/-- The string that a call has returned, once the further calls are made. -/
def returned (f : Statics → Int32 → Option (Int × Statics)) (before : List Int32) (number : Int32)
    (further : List Int32) : Option (List UInt8) := do
  let s ← calls f Statics.start before
  let (dest, s) ← f s number
  let s ← calls f s further
  stringAt s.gFormat dest

theorem start_valid : Statics.start.Valid := ⟨List.length_replicate, by decide, by decide⟩

/-- The state that a call leaves. -/
theorem Formats.call (hf : Formats f text) (h : s.Valid) (number : Int32) :
    ∃ s', f s number = some (s.gIndex * MAXNUMERIC, s') ∧ s'.Valid ∧
      s'.gIndex = (s.gIndex + 1) % 16 ∧
      s'.gFormat =
        overwrite s.gFormat (s.gIndex * MAXNUMERIC).toNat (text number ++ [0]) := by
  have hshort := hf.short number
  have hnonneg := h.nonneg
  have hlt := h.lt
  obtain ⟨p, hp, hlen⟩ := h.place
  have hnext : s.nextIndex = (s.gIndex + 1) % 16 := by
    unfold Statics.nextIndex MAXFNUM
    simp only
    split
    · omega
    · omega
  refine ⟨_, hf.runs s number h, ⟨?_, ?_, ?_⟩, hnext, rfl⟩
  · simp only
    rw [hp, Int.toNat_natCast, overwrite_length (by rw [List.length_append, List.length_singleton]; omega)]
    exact h.length
  · simp only [hnext]
    omega
  · simp only [hnext]
    omega

/-- As long as its turn has not come again, a string of the pool stays. -/
theorem Formats.stays (hf : Formats f text) {i j : ℕ} (numbers : List Int32) (h : s.Valid)
    (hj : 1 ≤ j) (hindex : s.gIndex = ((i + j) % 16 : ℕ))
    (hcalls : j + numbers.length ≤ 16) :
    ∃ s', calls f s numbers = some s' ∧ s'.Valid ∧
      (s'.gFormat.drop (i * 32)).take 32 = (s.gFormat.drop (i * 32)).take 32 := by
  induction numbers generalizing s j with
  | nil => exact ⟨s, rfl, h, rfl⟩
  | cons number numbers ih =>
    rw [List.length_cons] at hcalls
    obtain ⟨s1, hrun, hvalid, hnext, hformat⟩ := hf.call h number
    have hshort := hf.short number
    have hlen := h.length
    obtain ⟨s', hcalls', hvalid', hslice⟩ := ih (s := s1) (j := j + 1) hvalid (by omega)
      (by rw [hnext, hindex]; omega) (by omega)
    refine ⟨s', ?_, hvalid', ?_⟩
    · rw [calls]
      simp only [Option.bind_eq_bind]
      rw [hrun, Option.bind_some]
      exact hcalls'
    · rw [hslice, hformat]
      apply slice_overwrite
      · rw [List.length_append, List.length_singleton]
        unfold MAXNUMERIC
        omega
      · rw [List.length_append, List.length_singleton]
        unfold MAXNUMERIC
        omega

theorem Formats.calls_valid (hf : Formats f text) (numbers : List Int32) (h : s.Valid) :
    ∃ s', calls f s numbers = some s' ∧ s'.Valid := by
  induction numbers generalizing s with
  | nil => exact ⟨s, rfl, h⟩
  | cons number numbers ih =>
    obtain ⟨s1, hrun, hvalid, -, -⟩ := hf.call h number
    obtain ⟨s', hcalls, hvalid'⟩ := ih hvalid
    refine ⟨s', ?_, hvalid'⟩
    rw [calls]
    simp only [Option.bind_eq_bind]
    rw [hrun, Option.bind_some]
    exact hcalls

/-- The text of a call is there until 16 further calls are made. -/
theorem Formats.returned_eq (hf : Formats f text) (before : List Int32) (number : Int32)
    {further : List Int32} (h : further.length < 16) :
    returned f before number further = some (text number) := by
  obtain ⟨s, hbefore, hvalid⟩ := hf.calls_valid before start_valid
  obtain ⟨s1, hrun, hvalid1, hnext, hformat⟩ := hf.call hvalid number
  have hshort := hf.short number
  have hlen := hvalid.length
  have hlt := hvalid.lt
  have hnonneg := hvalid.nonneg
  have hplace : (s.gIndex * MAXNUMERIC).toNat = s.gIndex.toNat * 32 := by
    unfold MAXNUMERIC
    omega
  obtain ⟨s2, hfurther, -, hslice⟩ := hf.stays (i := s.gIndex.toNat) (j := 1) further hvalid1
    (le_refl 1) (by rw [hnext]; omega) (by omega)
  rw [hplace] at hformat
  unfold returned
  simp only [Option.bind_eq_bind]
  rw [hbefore, Option.bind_some, hrun, Option.bind_some, hfurther, Option.bind_some]
  rw [hformat, drop_overwrite (by omega), List.append_assoc, List.take_append,
    List.take_of_length_le (l := text number) (by omega), List.take_append,
    List.take_of_length_le (l := [(0 : UInt8)]) (by rw [List.length_singleton]; omega),
    List.singleton_append, ← hplace] at hslice
  exact stringAt_of_take (by unfold MAXNUMERIC; omega) (hf.noZero number) hslice

/-! ## When the two functions are right -/

/-- The text is that of the number, with its commas, and stays until 16 further
calls are made. -/
def FormatsFaithfully (m : Macros) (number : Int32) : Prop :=
  (∀ before further, further.length < 16 →
    returned (logging.formatNumber m) before number further = some (commaText number) ∧
      returned (sutil.formatNumber m) before number further = some (commaText number)) ∧
  (commaText number).filter (· ≠ 44) = itoa number

/-- `sutil.cpp` takes the sign for a digit, and `snprintf` leaves room for nine
characters. -/
def Formattable (m : Macros) (number : Int32) : Prop :=
  (number.toInt < 0 → (decimal number.toInt.natAbs).length % 3 ≠ 0) ∧
    (m.MSC_VER = false ∨ m.LINUX = true →
      -99999999 ≤ number.toInt ∧ number.toInt ≤ 999999999)

theorem filter_commaText (number : Int32) : (commaText number).filter (· ≠ 44) = itoa number := by
  have hcomma := not_mem_decimal (c := 44) (by decide) number.toInt.natAbs
  unfold commaText itoa
  rw [← withCommas_eq_grouped]
  split
  · rw [List.filter_cons_of_pos (by decide), filter_withCommas hcomma]
  · rw [filter_withCommas hcomma]

theorem logging.filter_text (m : Macros) (number : Int32) :
    (logging.text m number).filter (· ≠ 44) = logging.scratch m number := by
  have hcomma : 44 ∉ logging.scratch m number := fun hmem =>
    not_mem_itoa (by decide) (by decide) number ((logging.scratch_sublist m number).subset hmem)
  unfold logging.text
  generalize logging.scratch m number = scratch at hcomma ⊢
  split
  · rename_i hsign
    obtain ⟨rest, rfl⟩ := List.head?_eq_some_iff.mp hsign
    rw [List.filter_cons_of_pos (by decide), List.tail_cons,
      filter_withCommas (fun hmem => hcomma (List.mem_cons_of_mem _ hmem))]
  · exact filter_withCommas hcomma

theorem sutil.filter_text (m : Macros) (number : Int32) :
    (sutil.text m number).filter (· ≠ 44) = sutil.scratch m number :=
  filter_withCommas (fun hmem =>
    not_mem_itoa (by decide) (by decide) number ((sutil.scratch_sublist m number).subset hmem))

/-- Nothing is lost in the buffer of the digits. -/
theorem logging.text_eq_iff :
    logging.text m number = commaText number ↔ logging.scratch m number = itoa number := by
  constructor
  · intro h
    rw [← logging.filter_text, h, filter_commaText]
  · intro h
    unfold logging.text commaText
    rw [h, itoa, withCommas_eq_grouped, withCommas_eq_grouped]
    by_cases hneg : number.toInt < 0
    · simp [hneg]
    · have hdigit : (decimal number.toInt.natAbs).head? ≠ some 45 := by
        intro hhead
        exact not_mem_decimal (by decide) _ (List.mem_of_mem_head? hhead)
      simp [hneg, hdigit]

/-- And the sign is not taken for a digit before a full group. -/
theorem sutil.text_eq_iff :
    sutil.text m number = commaText number ↔ sutil.scratch m number = itoa number ∧
      (number.toInt < 0 → (decimal number.toInt.natAbs).length % 3 ≠ 0) := by
  have hpos : (decimal number.toInt.natAbs).length ≠ 0 := by
    rw [decimal_eq]
    simp
  have hwhole : withCommas (itoa number) = commaText number ↔
      (number.toInt < 0 → (decimal number.toInt.natAbs).length % 3 ≠ 0) := by
    unfold itoa commaText
    rw [← withCommas_eq_grouped]
    by_cases hneg : number.toInt < 0
    · rw [if_pos hneg, if_pos hneg, withCommas]
      simp only [hneg, true_imp_iff]
      by_cases hfull : (decimal number.toInt.natAbs).length % 3 = 0
      · rw [if_pos ⟨hpos, hfull⟩]
        simp only [hfull, ne_eq, not_true_eq_false, iff_false]
        intro heq
        have hlen := congrArg List.length heq
        simp at hlen
      · rw [if_neg (fun h => hfull h.2)]
        simp [hfull]
    · simp [hneg]
  constructor
  · intro h
    have hscratch : sutil.scratch m number = itoa number := by
      rw [← sutil.filter_text, h, filter_commaText]
    rw [sutil.text, hscratch] at h
    exact ⟨hscratch, hwhole.mp h⟩
  · rintro ⟨hscratch, hgroups⟩
    rw [sutil.text, hscratch]
    exact hwhole.mpr hgroups

theorem snprintf_eq_iff (number : Int32) : snprintf 10 (itoa number) = itoa number ↔
    -99999999 ≤ number.toInt ∧ number.toInt ≤ 999999999 := by
  unfold snprintf
  rw [List.take_eq_self_iff]
  unfold itoa
  split
  · rename_i hneg
    have hle := decimal_length_le_iff (n := number.toInt.natAbs) (show 0 < 8 by omega)
    rw [List.length_cons]
    omega
  · rename_i hneg
    have hle := decimal_length_le_iff (n := number.toInt.natAbs) (show 0 < 9 by omega)
    omega

theorem scratches_eq_iff : logging.scratch m number = itoa number ∧
      sutil.scratch m number = itoa number ↔
    (m.MSC_VER = false ∨ m.LINUX = true →
      -99999999 ≤ number.toInt ∧ number.toInt ≤ 999999999) := by
  rw [← snprintf_eq_iff]
  unfold logging.scratch sutil.scratch
  cases m.MSC_VER with
  | false =>
    cases m.LINUX with
    | false => simp
    | true => simp
  | true =>
    cases m.LINUX with
    | false => simp
    | true => simp

theorem formatsFaithfully_iff_texts : FormatsFaithfully m number ↔
    logging.text m number = commaText number ∧ sutil.text m number = commaText number := by
  constructor
  · rintro ⟨h, -⟩
    have hnow := h [] [] (by decide)
    rw [(logging.formats m).returned_eq [] number (by decide),
      (sutil.formats m).returned_eq [] number (by decide)] at hnow
    exact ⟨Option.some.inj hnow.1, Option.some.inj hnow.2⟩
  · rintro ⟨hlogging, hsutil⟩
    refine ⟨?_, filter_commaText number⟩
    intro before further hfurther
    rw [(logging.formats m).returned_eq before number hfurther,
      (sutil.formats m).returned_eq before number hfurther, hlogging, hsutil]
    exact ⟨rfl, rfl⟩

/-- The numbers that both functions write as they should. -/
theorem formatsFaithfully_iff (m : Macros) (number : Int32) :
    FormatsFaithfully m number ↔ Formattable m number := by
  rw [formatsFaithfully_iff_texts, logging.text_eq_iff, sutil.text_eq_iff, ← and_assoc,
    scratches_eq_iff, and_comm]
  rfl

/-- A comma behind the sign, and a digit too few. -/
theorem minus_123_and_a_billion :
    returned (sutil.formatNumber ⟨false, true⟩) [] (-123) [] = some [45, 44, 49, 50, 51] ∧
      returned (logging.formatNumber ⟨false, true⟩) [] (-123) [] = some [45, 49, 50, 51] ∧
      returned (logging.formatNumber ⟨false, true⟩) [] 1000000000 [] =
        some [49, 48, 48, 44, 48, 48, 48, 44, 48, 48, 48] ∧
      ¬ ∀ m number, FormatsFaithfully m number := by
  rw [(logging.formats _).returned_eq _ _ (by decide), (logging.formats _).returned_eq _ _ (by decide),
    (sutil.formats _).returned_eq _ _ (by decide)]
  refine ⟨by decide, by decide, by decide, ?_⟩
  intro h
  have htexts := formatsFaithfully_iff_texts.mp (h ⟨false, true⟩ (-123))
  exact absurd (htexts.1.trans htexts.2.symm) (by decide)

end bitcoinstats.format_number
