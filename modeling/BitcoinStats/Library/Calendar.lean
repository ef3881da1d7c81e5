-- The Gregorian calendar: the date of a day that is counted from 1 January 1970
-- on, and the day of a date.
import Mathlib.Tactic
import Mathlib.Algebra.BigOperators.Intervals

namespace calendar

open Finset

/-! ## Spans of days in a row -/

/-- The span in which a day lies, from the span `i` on, and its place in it. -/
def locate (length : Nat → Nat) : Nat → Nat → Nat → Nat × Nat
  | 0, i, rest => (i, rest)
  | fuel + 1, i, rest =>
    if length i ≤ rest then locate length fuel (i + 1) (rest - length i) else (i, rest)

variable {length : Nat → Nat}

/-- Fuel for each day is enough: the day lies in the span that is found. -/
theorem locate_spec (hpos : ∀ k, 0 < length k) (fuel i rest : Nat) (hfuel : rest ≤ fuel) :
    i ≤ (locate length fuel i rest).1 ∧
    (locate length fuel i rest).2 < length (locate length fuel i rest).1 ∧
    ∑ k ∈ Ico i (locate length fuel i rest).1, length k + (locate length fuel i rest).2 = rest := by
  induction fuel generalizing i rest with
  | zero =>
    obtain rfl : rest = 0 := by omega
    simp [locate, hpos]
  | succ fuel ih =>
    unfold locate
    by_cases h : length i ≤ rest
    · have hi := hpos i
      obtain ⟨hle, hlt, hsum⟩ := ih (i + 1) (rest - length i) (by omega)
      rw [if_pos h]
      refine ⟨by omega, hlt, ?_⟩
      rw [Finset.sum_eq_sum_Ico_succ_bot (by omega), add_assoc, hsum]
      omega
    · rw [if_neg h]
      simp
      omega

/-- A later day lies in a later span, or later in the same span. -/
theorem locate_lt (hpos : ∀ k, 0 < length k) {i m n fuel fuel' : Nat} (hm : m ≤ fuel)
    (hn : n ≤ fuel') (hlt : m < n) :
    (locate length fuel i m).1 < (locate length fuel' i n).1 ∨
      (locate length fuel i m).1 = (locate length fuel' i n).1 ∧
        (locate length fuel i m).2 < (locate length fuel' i n).2 := by
  obtain ⟨hle, hin, hsum⟩ := locate_spec hpos fuel i m hm
  obtain ⟨hle', hin', hsum'⟩ := locate_spec hpos fuel' i n hn
  rcases Nat.lt_trichotomy (locate length fuel i m).1 (locate length fuel' i n).1 with h | h | h
  · exact Or.inl h
  · rw [h] at hsum
    exact Or.inr ⟨h, by omega⟩
  · -- the whole span of `n` is over before `m`
    have hsplit := Finset.sum_Ico_consecutive length hle' h.le
    have hspan := Finset.sum_eq_sum_Ico_succ_bot h length
    omega

/-! ## Dates -/

def isLeapYear (year : Nat) : Prop := year % 4 = 0 ∧ (year % 100 ≠ 0 ∨ year % 400 = 0)

instance (year : Nat) : Decidable (isLeapYear year) := inferInstanceAs (Decidable (_ ∧ _))

def daysInYear (year : Nat) : Nat := if isLeapYear year then 366 else 365

/-- The months count from 0 on. -/
def daysInMonth (year month : Nat) : Nat :=
  if month = 1 then if isLeapYear year then 29 else 28
  else if month = 3 ∨ month = 5 ∨ month = 8 ∨ month = 10 then 30
  else 31

/-- Month and day count from 1 on. -/
structure Date where
  year : Nat
  month : Nat
  day : Nat
deriving DecidableEq

def dateOfDay (n : Nat) : Date :=
  let year := locate daysInYear n 1970 n
  let month := locate (daysInMonth year.1) year.2 0 year.2
  { year := year.1, month := month.1 + 1, day := month.2 + 1 }

def dayOfDate (d : Date) : Nat :=
  ∑ y ∈ Ico 1970 d.year, daysInYear y + (∑ m ∈ Ico 0 (d.month - 1), daysInMonth d.year m + (d.day - 1))

theorem daysInYear_pos (year : Nat) : 0 < daysInYear year := by
  unfold daysInYear
  split <;> omega

theorem daysInMonth_pos (year month : Nat) : 0 < daysInMonth year month := by
  unfold daysInMonth
  split
  · split <;> omega
  · split <;> omega

/-- A date is the date of one day only. -/
theorem dayOfDate_dateOfDay (n : Nat) : dayOfDate (dateOfDay n) = n := by
  obtain ⟨-, -, hyears⟩ := locate_spec daysInYear_pos n 1970 n le_rfl
  obtain ⟨-, -, hmonths⟩ := locate_spec (daysInMonth_pos (locate daysInYear n 1970 n).1)
    (locate daysInYear n 1970 n).2 0 (locate daysInYear n 1970 n).2 le_rfl
  unfold dayOfDate dateOfDay
  simp only [Nat.add_sub_cancel]
  rw [hmonths, hyears]

/-! ## The order of the dates -/

/-- The date is earlier in the calendar. -/
def Date.Before (d d' : Date) : Prop :=
  d.year < d'.year ∨ d.year = d'.year ∧ (d.month < d'.month ∨ d.month = d'.month ∧ d.day < d'.day)

theorem dateOfDay_before {m n : Nat} (h : m < n) : (dateOfDay m).Before (dateOfDay n) := by
  unfold Date.Before dateOfDay
  rcases locate_lt daysInYear_pos (le_refl m) (le_refl n) h with hyear | ⟨hyear, hrest⟩
  · exact Or.inl hyear
  · refine Or.inr ⟨hyear, ?_⟩
    simp only
    rw [hyear]
    rcases locate_lt (daysInMonth_pos _) (le_refl _) (le_refl _) hrest with hmonth | ⟨hmonth, hday⟩
    · exact Or.inl (Nat.succ_lt_succ hmonth)
    · exact Or.inr ⟨congrArg Nat.succ hmonth, Nat.succ_lt_succ hday⟩

theorem daysInYear_bounds (year : Nat) : 365 ≤ daysInYear year ∧ daysInYear year ≤ 366 := by
  unfold daysInYear
  split <;> omega

theorem daysInMonth_bounds (year month : Nat) :
    28 ≤ daysInMonth year month ∧ daysInMonth year month ≤ 31 := by
  unfold daysInMonth
  split
  · split <;> omega
  · split <;> omega

/-- A date of the first eight thousand years fits in the fields `%4d-%02d-%02d`. -/
theorem dateOfDay_fits {n : Nat} (h : n < 365 * 8000) :
    1970 ≤ (dateOfDay n).year ∧ (dateOfDay n).year < 10000 ∧ (dateOfDay n).month < 100 ∧
      (dateOfDay n).day < 100 := by
  obtain ⟨hyear, hinYear, hyears⟩ := locate_spec daysInYear_pos n 1970 n le_rfl
  unfold dateOfDay
  simp only
  obtain ⟨year, hy⟩ : ∃ year, year = (locate daysInYear n 1970 n).1 := ⟨_, rfl⟩
  obtain ⟨rest, hr⟩ : ∃ rest, rest = (locate daysInYear n 1970 n).2 := ⟨_, rfl⟩
  rw [← hy] at hyear hinYear hyears ⊢
  rw [← hr] at hinYear hyears ⊢
  obtain ⟨-, hinMonth, hmonths⟩ := locate_spec (daysInMonth_pos year) rest 0 rest le_rfl
  have hyearSum : (year - 1970) * 365 ≤ ∑ k ∈ Ico 1970 year, daysInYear k := by
    rw [← Nat.card_Ico, ← smul_eq_mul]
    exact Finset.card_nsmul_le_sum _ _ _ (fun y _ => (daysInYear_bounds y).1)
  obtain ⟨month, hm⟩ : ∃ month, month = (locate (daysInMonth year) rest 0 rest).1 := ⟨_, rfl⟩
  rw [← hm] at hinMonth hmonths ⊢
  have hmonthSum : (month - 0) * 28 ≤ ∑ k ∈ Ico 0 month, daysInMonth year k := by
    rw [← Nat.card_Ico, ← smul_eq_mul]
    exact Finset.card_nsmul_le_sum _ _ _ (fun m _ => (daysInMonth_bounds year m).1)
  have hlong := (daysInYear_bounds year).2
  have hshort := (daysInMonth_bounds year month).2
  omega

example : dateOfDay 14247 = { year := 2009, month := 1, day := 3 } := by decide +kernel

end calendar
