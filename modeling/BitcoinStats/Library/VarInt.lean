-- Variable-length integers in base 128, most significant digit first, where
-- every byte but the last has its high bit set and counts one more. So each
-- number has one form only.
import Mathlib.Tactic

namespace var_int

/-! ## The format -/

/-- The bytes before the last one. -/
def varIntHead (n : Nat) : List UInt8 :=
  if n < 128 then []
  else varIntHead (n / 128 - 1) ++ [UInt8.ofNat ((n / 128 - 1) % 128 + 128)]
termination_by n
decreasing_by omega

def varInt (n : Nat) : List UInt8 := varIntHead n ++ [UInt8.ofNat (n % 128)]

/-- A byte with its high bit set is followed by another one. -/
def Continues (b : UInt8) : Prop := 128 ≤ b.toNat

instance (b : UInt8) : Decidable (Continues b) := inferInstanceAs (Decidable (128 ≤ b.toNat))

/-- The value after one more byte. -/
def digit (value : Nat) (b : UInt8) : Nat :=
  value * 128 + b.toNat % 128 + if Continues b then 1 else 0

/-- The value that bytes spell, as a number without bound. -/
def value (bytes : List UInt8) : Nat := bytes.foldl digit 0

/-- Every byte but the last one is followed by another. -/
structure Terminated (bytes : List UInt8) : Prop where
  ends : ∃ head last, bytes = head ++ [last] ∧ (∀ b ∈ head, Continues b) ∧ ¬ Continues last

/-! ## The format is undone digit by digit -/

theorem varIntHead_continues (n : Nat) : ∀ b ∈ varIntHead n, Continues b := by
  induction n using varIntHead.induct with
  | case1 n h =>
    intro b hb
    rw [varIntHead, if_pos h] at hb
    exact absurd hb List.not_mem_nil
  | case2 n h ih =>
    intro b hb
    rw [varIntHead, if_neg h, List.mem_append, List.mem_singleton] at hb
    rcases hb with hhead | hlast
    · exact ih b hhead
    · subst hlast
      unfold Continues
      rw [UInt8.toNat_ofNat']
      omega

theorem varIntHead_value (n : Nat) : (varIntHead n).foldl digit 0 = n / 128 := by
  induction n using varIntHead.induct with
  | case1 n h =>
    rw [varIntHead, if_pos h, List.foldl_nil]
    omega
  | case2 n h ih =>
    have hbyte : (UInt8.ofNat ((n / 128 - 1) % 128 + 128)).toNat = (n / 128 - 1) % 128 + 128 := by
      rw [UInt8.toNat_ofNat']
      omega
    have hcont : Continues (UInt8.ofNat ((n / 128 - 1) % 128 + 128)) := by
      unfold Continues
      omega
    rw [varIntHead, if_neg h, List.foldl_append, ih, List.foldl_cons, List.foldl_nil, digit,
      if_pos hcont, hbyte]
    omega

theorem varInt_last (n : Nat) : ¬ Continues (UInt8.ofNat (n % 128)) := by
  unfold Continues
  rw [UInt8.toNat_ofNat']
  omega

/-- The digits of a number give the number. -/
theorem varInt_value (n : Nat) : digit ((varIntHead n).foldl digit 0) (UInt8.ofNat (n % 128)) = n := by
  have hbyte : (UInt8.ofNat (n % 128)).toNat = n % 128 := by
    rw [UInt8.toNat_ofNat']
    omega
  rw [varIntHead_value, digit, if_neg (varInt_last n), hbyte]
  omega

/-! ## Each number has one form -/

theorem value_append_last (head : List UInt8) (last : UInt8) :
    value (head ++ [last]) = digit (head.foldl digit 0) last := by
  rw [value, List.foldl_append, List.foldl_cons, List.foldl_nil]

theorem varInt_terminated (n : Nat) : Terminated (varInt n) :=
  ⟨varIntHead n, UInt8.ofNat (n % 128), rfl, varIntHead_continues n, varInt_last n⟩

theorem value_varInt (n : Nat) : value (varInt n) = n := by
  rw [varInt, value_append_last, varInt_value]

/-- Bytes that continue are the head of every number that they lead to. -/
theorem varIntHead_of_value (head : List UInt8) (hhead : ∀ b ∈ head, Continues b) {n : Nat}
    (h : n / 128 = head.foldl digit 0) : varIntHead n = head := by
  induction head using List.reverseRecOn generalizing n with
  | nil =>
    rw [List.foldl_nil] at h
    rw [varIntHead, if_pos (by omega)]
  | append_singleton head b ih =>
    have hb : Continues b := hhead b (by simp)
    have hlt : b.toNat < 256 := b.toNat_lt
    rw [List.foldl_append, List.foldl_cons, List.foldl_nil, digit, if_pos hb] at h
    have hrest : (n / 128 - 1) / 128 = head.foldl digit 0 := by omega
    have hbyte : (n / 128 - 1) % 128 + 128 = b.toNat := by
      unfold Continues at hb
      omega
    rw [varIntHead, if_neg (by omega), ih (fun c hc => hhead c (by simp [hc])) hrest, hbyte,
      UInt8.ofNat_toNat]

/-- A string of bytes that ends is the form of the number it spells. -/
theorem varInt_of_value {bytes : List UInt8} (h : Terminated bytes) :
    varInt (value bytes) = bytes := by
  rcases h.ends with ⟨head, last, rfl, hhead, hlast⟩
  rw [value_append_last, digit, if_neg hlast, varInt]
  unfold Continues at hlast
  have hquot : (head.foldl digit 0 * 128 + last.toNat % 128 + 0) / 128 = head.foldl digit 0 := by
    omega
  have hrem : (head.foldl digit 0 * 128 + last.toNat % 128 + 0) % 128 = last.toNat := by omega
  rw [varIntHead_of_value head hhead hquot, hrem, UInt8.ofNat_toNat]

/-- More bytes do not make the value smaller. -/
theorem le_foldl_digit (n : Nat) (bytes : List UInt8) : n ≤ bytes.foldl digit n := by
  induction bytes generalizing n with
  | nil => simp
  | cons b bytes ih =>
    have hdigit : n ≤ digit n b := by
      unfold digit
      omega
    exact le_trans hdigit (ih (digit n b))

end var_int
