-- Numbers in decimal, as the bytes of their digits, and padded to a width.
import Mathlib.Tactic

namespace decimal_text

def IsDigit (c : UInt8) : Prop := 48 ≤ c.toNat ∧ c.toNat ≤ 57

instance (c : UInt8) : Decidable (IsDigit c) := inferInstanceAs (Decidable (_ ∧ _))

/-- The digits of a number, one zero for zero. -/
def decimal (n : Nat) : List UInt8 := (Nat.toDigits 10 n).map (fun c => UInt8.ofNat c.toNat)

/-- The value of a row of digits behind the value of the digits before. -/
def digitsValue (value : Nat) (s : List UInt8) : Nat :=
  s.foldl (fun value c => value * 10 + (c.toNat - 48)) value

/-- `s` at the right end of a field of the width. -/
def pad (fill : UInt8) (width : Nat) (s : List UInt8) : List UInt8 :=
  List.replicate (width - s.length) fill ++ s

theorem digit_toNat {d : Nat} (h : d < 10) : (UInt8.ofNat (48 + d)).toNat = 48 + d := by
  rw [UInt8.toNat_ofNat']
  omega

theorem isDigit_ofNat {d : Nat} (h : d < 10) : IsDigit (UInt8.ofNat (48 + d)) := by
  unfold IsDigit
  rw [digit_toNat h]
  omega

theorem digitChar_eq {d : Nat} (h : d < 10) :
    UInt8.ofNat (Nat.digitChar d).toNat = UInt8.ofNat (48 + d) := by
  interval_cases d <;> rfl

/-- The last digit behind the digits of the tens. -/
theorem decimal_eq (n : Nat) :
    decimal n = (if n < 10 then [] else decimal (n / 10)) ++ [UInt8.ofNat (48 + n % 10)] := by
  unfold decimal
  rw [Nat.toDigits_eq_if (by omega)]
  split
  · rename_i h
    simp [digitChar_eq h, Nat.mod_eq_of_lt h]
  · simp [digitChar_eq (Nat.mod_lt n (by omega : 10 > 0))]

theorem isDigit_decimal (n : Nat) : ∀ c ∈ decimal n, IsDigit c := by
  induction n using Nat.strongRecOn with
  | ind n ih =>
    rw [decimal_eq]
    intro c hc
    rcases List.mem_append.mp hc with hc | hc
    · split at hc
      · cases hc
      · exact ih (n / 10) (by omega) c hc
    · rw [List.mem_singleton.mp hc]
      exact isDigit_ofNat (Nat.mod_lt _ (by omega))

theorem digitsValue_concat (value : Nat) (s : List UInt8) (c : UInt8) :
    digitsValue value (s ++ [c]) = digitsValue value s * 10 + (c.toNat - 48) := by
  simp [digitsValue]

theorem digitsValue_decimal (n : Nat) : digitsValue 0 (decimal n) = n := by
  induction n using Nat.strongRecOn with
  | ind n ih =>
    rw [decimal_eq, digitsValue_concat, digit_toNat (Nat.mod_lt n (by omega : 10 > 0))]
    split
    · simp [digitsValue]
      omega
    · rw [ih (n / 10) (by omega)]
      omega

theorem decimal_inj {m n : Nat} (h : decimal m = decimal n) : m = n := by
  rw [← digitsValue_decimal m, h, digitsValue_decimal]

/-! ## Fields -/

/-- The digits behind the padding. -/
theorem dropWhile_pad {fill : UInt8} {width : Nat} {s : List UInt8} (h : ∀ c ∈ s, c ≠ fill) :
    (pad fill width s).dropWhile (· = fill) = s := by
  unfold pad
  induction width - s.length with
  | zero =>
    cases s with
    | nil => rfl
    | cons c s =>
      have hc := h c List.mem_cons_self
      simp [hc]
  | succ k ih => simpa [List.replicate_succ] using ih

/-- Zeros before the digits do not change the value. -/
theorem digitsValue_pad (width : Nat) (s : List UInt8) :
    digitsValue 0 (pad 48 width s) = digitsValue 0 s := by
  unfold pad
  induction width - s.length with
  | zero => rfl
  | succ k ih =>
    rw [List.replicate_succ, List.cons_append, digitsValue, List.foldl_cons]
    exact ih

/-! ## The order of the texts -/

/-- Fields of the same width are compared one behind the other. -/
theorem compare_append {s t : List UInt8} (h : s.length = t.length) (u v : List UInt8) :
    compare (s ++ u) (t ++ v) = (compare s t).then (compare u v) := by
  induction s generalizing t with
  | nil =>
    rw [List.length_eq_zero_iff.mp h.symm]
    rfl
  | cons c s ih =>
    cases t with
    | nil => cases h
    | cons d t =>
      rw [List.length_cons, List.length_cons] at h
      rw [List.cons_append, List.cons_append, List.compare_cons_cons, List.compare_cons_cons,
        ih (by omega)]
      cases compare c d <;> rfl

theorem digitsValue_cons (value : Nat) (c : UInt8) (s : List UInt8) :
    digitsValue value (c :: s) = digitsValue (value * 10 + (c.toNat - 48)) s := by
  rw [digitsValue, List.foldl_cons, digitsValue]

/-- The value before the digits counts more than the digits. -/
theorem digitsValue_lt {value value' : Nat} (hvalue : value < value') {s t : List UInt8}
    (hs : ∀ c ∈ s, IsDigit c) (h : s.length = t.length) :
    digitsValue value s < digitsValue value' t := by
  induction s generalizing t value value' with
  | nil =>
    rw [List.length_eq_zero_iff.mp h.symm]
    exact hvalue
  | cons c s ih =>
    cases t with
    | nil => cases h
    | cons d t =>
      rw [List.length_cons, List.length_cons] at h
      have hc := (hs c List.mem_cons_self).2
      rw [digitsValue_cons, digitsValue_cons]
      exact ih (by omega) (fun x hx => hs x (List.mem_cons_of_mem c hx)) (by omega)

/-- Of two rows of as many digits the one with the smaller value comes first. -/
theorem compare_of_digitsValue_lt {value : Nat} {s t : List UInt8} (hs : ∀ c ∈ s, IsDigit c)
    (ht : ∀ c ∈ t, IsDigit c) (h : s.length = t.length)
    (hlt : digitsValue value s < digitsValue value t) : compare s t = .lt := by
  induction s generalizing t value with
  | nil =>
    rw [List.length_eq_zero_iff.mp h.symm] at hlt
    exact absurd hlt (Nat.lt_irrefl _)
  | cons c s ih =>
    cases t with
    | nil => cases h
    | cons d t =>
      rw [List.length_cons, List.length_cons] at h
      have hc := hs c List.mem_cons_self
      have hd := ht d List.mem_cons_self
      unfold IsDigit at hc hd
      rw [digitsValue_cons, digitsValue_cons] at hlt
      rw [List.compare_cons_cons]
      rcases Nat.lt_trichotomy c.toNat d.toNat with hcd | hcd | hcd
      · have hfirst : compare c d = .lt := Std.compare_eq_lt.mpr (UInt8.lt_iff_toNat_lt.mpr hcd)
        rw [hfirst]
        rfl
      · obtain rfl : c = d := UInt8.toNat_inj.mp hcd
        have hself : compare c c = .eq := Std.ReflCmp.compare_self
        rw [hself]
        exact ih (fun x hx => hs x (List.mem_cons_of_mem c hx))
          (fun x hx => ht x (List.mem_cons_of_mem c hx)) (by omega) hlt
      · have hgt : digitsValue (value * 10 + (d.toNat - 48)) t <
            digitsValue (value * 10 + (c.toNat - 48)) s :=
          digitsValue_lt (by omega) (fun x hx => ht x (List.mem_cons_of_mem d hx)) (by omega)
        omega

theorem decimal_length {n k : Nat} (hlow : k = 0 ∨ 10 ^ k ≤ n) (hhigh : n < 10 ^ (k + 1)) :
    (decimal n).length = k + 1 := by
  induction k generalizing n with
  | zero =>
    rw [decimal_eq, if_pos (by omega)]
    rfl
  | succ k ih =>
    have hn : 10 ^ (k + 1) ≤ n := by omega
    rw [Nat.pow_succ] at hn hhigh
    have hpos : 0 < 10 ^ k := Nat.pow_pos (by omega)
    rw [decimal_eq, if_neg (by omega), List.length_append, ih (Or.inr (by omega)) (by omega)]
    rfl

theorem decimal_length_le_iff {n k : Nat} (hk : 0 < k) : (decimal n).length ≤ k ↔ n < 10 ^ k := by
  rw [decimal, List.length_map]
  exact Nat.length_toDigits_le_iff (by omega) hk

/-- A number below 100 in a field of two digits. -/
theorem pad_two {n : Nat} (h : n < 100) :
    (pad 48 2 (decimal n)).length = 2 ∧ ∀ c ∈ pad 48 2 (decimal n), IsDigit c := by
  have hlen : (decimal n).length ≤ 2 := by
    rcases Nat.lt_or_ge n 10 with h10 | h10
    · rw [decimal_length (k := 0) (Or.inl rfl) (by omega)]
      omega
    · rw [decimal_length (k := 1) (Or.inr (by omega)) (by omega)]
  refine ⟨by simp [pad]; omega, ?_⟩
  intro c hc
  rcases List.mem_append.mp hc with hfill | hdigit
  · rw [List.eq_of_mem_replicate hfill]
    decide
  · exact isDigit_decimal n c hdigit

/-- A number of four digits fills the field. -/
theorem pad_four {n : Nat} (hlow : 1000 ≤ n) (hhigh : n < 10000) :
    pad 32 4 (decimal n) = decimal n ∧ (decimal n).length = 4 := by
  have hlen := decimal_length (k := 3) (Or.inr (by omega)) (by omega : n < 10 ^ (3 + 1))
  refine ⟨?_, hlen⟩
  unfold pad
  rw [hlen]
  rfl

end decimal_text
