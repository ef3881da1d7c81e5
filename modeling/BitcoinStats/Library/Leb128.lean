-- Numbers in groups of seven bits, lowest group first, each byte but the last
-- with its top bit set: the encoding, the value of some bytes, and the scan.
import Mathlib.Tactic

namespace leb128

def encode (n : ℕ) : List UInt8 :=
  if n < 128 then [UInt8.ofNat n] else UInt8.ofNat (n % 128 + 128) :: encode (n / 128)
termination_by n

/-- The number that the low seven bits of some bytes spell. -/
def value : List UInt8 → ℕ
  | [] => 0
  | b :: bytes => b.toNat % 128 + 128 * value bytes

/-- The bytes of one number: the top bit is set in all but the last. -/
def IsNumber (bytes : List UInt8) : Prop :=
  ∃ front last, bytes = front ++ [last] ∧ (∀ b ∈ front, 128 ≤ b.toNat) ∧ last.toNat < 128

theorem isNumber_singleton {b : UInt8} (h : b.toNat < 128) : IsNumber [b] :=
  ⟨[], b, rfl, by simp, h⟩

theorem isNumber_cons {b : UInt8} (h : 128 ≤ b.toNat) {bytes : List UInt8} :
    IsNumber (b :: bytes) ↔ IsNumber bytes := by
  constructor
  · rintro ⟨front, last, heq, hfront, hlast⟩
    cases front with
    | nil =>
      simp only [List.nil_append, List.cons.injEq] at heq
      rw [heq.1] at h
      omega
    | cons c front =>
      simp only [List.cons_append, List.cons.injEq] at heq
      exact ⟨front, last, heq.2, fun x hx => hfront x (List.mem_cons_of_mem _ hx), hlast⟩
  · rintro ⟨front, last, rfl, hfront, hlast⟩
    refine ⟨b :: front, last, rfl, ?_, hlast⟩
    intro x hx
    rcases List.mem_cons.mp hx with rfl | hx
    · exact h
    · exact hfront x hx

theorem isNumber_cons_last {b : UInt8} (h : b.toNat < 128) {bytes : List UInt8} :
    IsNumber (b :: bytes) ↔ bytes = [] := by
  constructor
  · rintro ⟨front, last, heq, hfront, -⟩
    cases front with
    | nil => simpa using congrArg List.tail heq
    | cons c front =>
      simp only [List.cons_append, List.cons.injEq] at heq
      have := hfront c List.mem_cons_self
      rw [← heq.1] at this
      omega
  · rintro rfl
    exact isNumber_singleton h

/-! ## The encoding -/

theorem encode_of_lt {n : ℕ} (h : n < 128) : encode n = [UInt8.ofNat n] := by
  rw [encode, if_pos h]

theorem encode_of_le {n : ℕ} (h : 128 ≤ n) :
    encode n = UInt8.ofNat (n % 128 + 128) :: encode (n / 128) := by
  rw [encode, if_neg (by omega)]

theorem isNumber_encode (n : ℕ) : IsNumber (encode n) := by
  induction n using encode.induct with
  | case1 n h =>
    rw [encode_of_lt h]
    apply isNumber_singleton
    rw [UInt8.toNat_ofNat']
    omega
  | case2 n h ih =>
    rw [encode_of_le (by omega), isNumber_cons]
    · exact ih
    · rw [UInt8.toNat_ofNat']
      omega

theorem value_encode (n : ℕ) : value (encode n) = n := by
  induction n using encode.induct with
  | case1 n h =>
    rw [encode_of_lt h, value, value, UInt8.toNat_ofNat']
    omega
  | case2 n h ih =>
    rw [encode_of_le (by omega), value, ih, UInt8.toNat_ofNat']
    omega

/-- A number below `2 ^ (7 * k)` takes at most `k` bytes. -/
theorem length_encode_le {n k : ℕ} (h : n < 128 ^ k) (hk : 0 < k) : (encode n).length ≤ k := by
  induction n using encode.induct generalizing k with
  | case1 n hsmall =>
    rw [encode_of_lt hsmall]
    exact hk
  | case2 n hlarge ih =>
    cases k with
    | zero => omega
    | succ k =>
      have hk' : 0 < k := by
        by_contra h0
        have : k = 0 := by omega
        subst this
        simp at h
        omega
      have := ih (k := k) (by rw [Nat.pow_succ] at h; omega) hk'
      rw [encode_of_le (by omega), List.length_cons]
      omega

/-! ## The scan -/

/-- The bytes of the first number within `k` bytes, and what stands behind them. -/
def scan : ℕ → List UInt8 → Option (List UInt8 × List UInt8)
  | 0, _ => none
  | _ + 1, [] => none
  | k + 1, b :: input =>
    if b.toNat < 128 then some ([b], input)
    else (scan k input).map (fun r => (b :: r.1, r.2))

theorem scan_eq_some {k : ℕ} {input bytes rest : List UInt8} :
    scan k input = some (bytes, rest) ↔ input = bytes ++ rest ∧ IsNumber bytes ∧ bytes.length ≤ k := by
  induction k generalizing input bytes with
  | zero =>
    simp only [scan, reduceCtorEq, false_iff, not_and]
    rintro - ⟨front, last, rfl, -, -⟩
    simp
  | succ k ih =>
    cases input with
    | nil =>
      simp only [scan, reduceCtorEq, false_iff, not_and]
      rintro hnil ⟨front, last, heq, -, -⟩
      simp [heq] at hnil
    | cons b input =>
      rw [scan]
      split
      · rename_i hb
        rw [Option.some_inj, Prod.mk.injEq]
        constructor
        · rintro ⟨rfl, rfl⟩
          exact ⟨rfl, isNumber_singleton hb, by simp⟩
        · rintro ⟨heq, hnum, -⟩
          cases bytes with
          | nil => obtain ⟨front, last, hnil, -, -⟩ := hnum; simp at hnil
          | cons c bytes =>
            simp only [List.cons_append, List.cons.injEq] at heq
            obtain ⟨rfl, rfl⟩ := heq
            rw [isNumber_cons_last hb] at hnum
            subst hnum
            exact ⟨rfl, rfl⟩
      · rename_i hb
        rw [Option.map_eq_some_iff]
        constructor
        · rintro ⟨⟨bytes', rest'⟩, hscan, heq⟩
          obtain ⟨rfl, rfl⟩ := Prod.mk.inj heq
          obtain ⟨rfl, hnum, hlen⟩ := ih.mp hscan
          exact ⟨rfl, (isNumber_cons (by omega)).mpr hnum, by simpa using hlen⟩
        · rintro ⟨heq, hnum, hlen⟩
          cases bytes with
          | nil => obtain ⟨front, last, hnil, -, -⟩ := hnum; simp at hnil
          | cons c bytes =>
            simp only [List.cons_append, List.cons.injEq] at heq
            obtain ⟨rfl, rfl⟩ := heq
            exact ⟨(bytes, rest), ih.mpr ⟨rfl, (isNumber_cons (by omega)).mp hnum, by simpa using hlen⟩, rfl⟩

/-- No part of a number but the whole of it is a number. -/
theorem IsNumber.not_of_earlier {bytes front : List UInt8} (h : IsNumber bytes) (hpre : front <+: bytes)
    (hne : front ≠ bytes) : ¬ IsNumber front := by
  rintro ⟨front', last', rfl, -, hlast'⟩
  obtain ⟨front'', last, rfl, hfront, -⟩ := h
  obtain ⟨rest, hrest⟩ := hpre
  cases rest using List.reverseRecOn with
  | nil => exact hne (by simpa using hrest)
  | append_singleton rest x =>
    rw [← List.append_assoc] at hrest
    have hinit := (List.append_inj' hrest rfl).1
    have hmem : last' ∈ front'' := by
      rw [← hinit]
      simp
    have := hfront last' hmem
    omega

theorem scan_encode {n k : ℕ} (h : n < 128 ^ k) (hk : 0 < k) (rest : List UInt8) :
    scan k (encode n ++ rest) = some (encode n, rest) :=
  scan_eq_some.mpr ⟨rfl, isNumber_encode n, length_encode_le h hk⟩

theorem scan_of_earlier {k : ℕ} {bytes front : List UInt8} (h : IsNumber bytes)
    (hpre : front <+: bytes) (hne : front ≠ bytes) : scan k front = none := by
  by_contra hsome
  obtain ⟨⟨bytes', rest⟩, hscan⟩ := Option.ne_none_iff_exists'.mp hsome
  obtain ⟨rfl, hnum, -⟩ := scan_eq_some.mp hscan
  have hpre' : bytes' <+: bytes := (List.prefix_append bytes' rest).trans hpre
  by_cases hall : bytes' = bytes
  · subst hall
    have hlen := hpre.length_le
    rw [List.length_append] at hlen
    have hrest : rest = [] := List.length_eq_zero_iff.mp (by omega)
    exact hne (by rw [hrest, List.append_nil])
  · exact h.not_of_earlier hpre' hall hnum

/-! ## Groups in a register -/

/-- A group goes above the bits that are there. -/
theorem or_shiftLeft {w s : ℕ} {r : BitVec w} (x : BitVec w) (hr : r.toNat < 2 ^ s) (hs : s ≤ w) :
    r ||| (x <<< s) = BitVec.ofNat w (r.toNat + 2 ^ s * x.toNat) := by
  apply BitVec.eq_of_toNat_eq
  have hpow : 2 ^ w = 2 ^ s * 2 ^ (w - s) := by rw [← Nat.pow_add, Nat.add_sub_cancel' hs]
  have hmul : x.toNat * 2 ^ s % 2 ^ w = 2 ^ s * (x.toNat % 2 ^ (w - s)) := by
    rw [Nat.mul_comm, hpow, Nat.mul_mod_mul_left]
  have hsum : (r.toNat + 2 ^ s * x.toNat) % 2 ^ w = r.toNat + 2 ^ s * (x.toNat % 2 ^ (w - s)) := by
    have hlt : r.toNat + 2 ^ s * (x.toNat % 2 ^ (w - s)) < 2 ^ w := by
      have hx : x.toNat % 2 ^ (w - s) + 1 ≤ 2 ^ (w - s) := Nat.mod_lt _ (by positivity)
      have hle := Nat.mul_le_mul_left (2 ^ s) hx
      rw [hpow]
      rw [Nat.mul_add] at hle
      omega
    rw [Nat.add_mod, ← Nat.mul_comm x.toNat, hmul, Nat.mod_eq_of_lt r.isLt, Nat.mod_eq_of_lt hlt]
  rw [BitVec.toNat_or, BitVec.toNat_shiftLeft, Nat.shiftLeft_eq, hmul, BitVec.toNat_ofNat, hsum,
    Nat.or_comm, ← Nat.two_pow_add_eq_or_of_lt hr, Nat.add_comm]

theorem and_128_ne_zero {n : ℕ} (h : n < 256) : n &&& 128 ≠ 0 ↔ 128 ≤ n := by
  have hall : ∀ n < 256, (n &&& 128 ≠ 0 ↔ 128 ≤ n) := by decide +kernel
  exact hall n h

theorem or_128_mod (n : ℕ) : (n ||| 128) % 256 = n % 128 + 128 := by
  have hall : ∀ n < 256, (n ||| 128) = n % 128 + 128 := by decide +kernel
  have hor := Nat.or_mod_two_pow (n := 8) (a := n) (b := 128)
  rw [show (256 : ℕ) = 2 ^ 8 by rfl, hor, show 128 % 2 ^ 8 = 128 by rfl,
    hall _ (Nat.mod_lt _ (by decide))]
  omega

end leb128
