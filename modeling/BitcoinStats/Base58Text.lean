-- What the base 58 decoder makes of any text: the number that its characters
-- spell, and one zero byte more for each `1` at its start.
import BitcoinStats.Base58Value
import Mathlib.Data.Nat.Digits.Lemmas

open byte_memory

namespace bitcoinstats.base58

/-! ## The number that a text spells -/

/-- `digit` gives the value of each character. -/
def spelled (digit : UInt8 → Nat) (s : List UInt8) : Nat := Nat.ofDigits 58 (s.reverse.map digit)

/-- The count of the `1` at the start. -/
def ones (s : List UInt8) : Nat := (s.takeWhile (· = 49)).length

/-- The value that the decoder gives a character, also one outside of the alphabet. -/
def charIndex (c : UInt8) : Nat := (alphaIndexOf c).toNat

theorem charIndex_eq_zero (c : UInt8) : charIndex c = 0 ↔ c = 49 := by
  have hall : ∀ n < 256, charIndex (UInt8.ofNat n) = 0 ↔ n = 49 := by decide +kernel
  have hc := hall c.toNat c.toNat_lt
  rw [UInt8.ofNat_toNat] at hc
  rw [hc, ← UInt8.toNat_inj]
  rfl

theorem spelled_cons (digit : UInt8 → Nat) (c : UInt8) (s : List UInt8) :
    spelled digit (c :: s) = spelled digit s + 58 ^ s.length * digit c := by
  rw [spelled, List.reverse_cons, List.map_append, Nat.ofDigits_append, List.length_map,
    List.length_reverse]
  simp [spelled]

theorem spelled_lt {digit : UInt8 → Nat} (h : ∀ c, digit c < 256) (s : List UInt8) :
    spelled digit s < 256 ^ s.length := by
  have hdigits : ∀ d ∈ s.reverse.map digit, d < 256 := by
    intro d hd
    obtain ⟨c, -, rfl⟩ := List.mem_map.mp hd
    exact h c
  have hlt := Nat.ofDigits_lt_base_pow_length (b := 256) (by omega) hdigits
  rw [List.length_map, List.length_reverse] at hlt
  exact Nat.lt_of_le_of_lt (Nat.ofDigits_monotone _ (by omega)) hlt

theorem charIndex_lt (c : UInt8) : charIndex c < 256 := (alphaIndexOf c).toNat_lt

theorem ones_cons_one (s : List UInt8) : ones (49 :: s) = ones s + 1 := by
  simp [ones]

theorem ones_le (s : List UInt8) : ones s ≤ s.length := (List.takeWhile_prefix _).length_le

/-- The ones at the start add nothing to the number. -/
theorem spelled_drop_ones (s : List UInt8) :
    spelled charIndex (s.drop (ones s)) = spelled charIndex s := by
  induction s with
  | nil => rfl
  | cons c s ih =>
    by_cases hc : c = 49
    · subst hc
      rw [ones_cons_one, List.drop_succ_cons, ih, spelled_cons, (charIndex_eq_zero 49).mpr rfl,
        Nat.mul_zero, Nat.add_zero]
    · have hz : ones (c :: s) = 0 := by simp [ones, hc]
      rw [hz, List.drop_zero]

/-- The number that the decoder makes of a text: its exponents are `uint8_t`. -/
def wrappedNumber : List UInt8 → Nat
  | [] => 0
  | c :: s => wrappedNumber s + 58 ^ (s.length % 256) * charIndex c

/-- No exponent wraps in the first 256 characters from the end. -/
theorem wrappedNumber_eq_spelled {s : List UInt8} (h : s.length ≤ 256) :
    wrappedNumber s = spelled charIndex s := by
  induction s with
  | nil => rfl
  | cons c s ih =>
    rw [List.length_cons] at h
    rw [wrappedNumber, ih (by omega), spelled_cons, Nat.mod_eq_of_lt (by omega)]

theorem pow_exponent_le (j : Nat) : 58 ^ (j % 256) ≤ 58 ^ 255 :=
  Nat.pow_le_pow_right (by omega) (by omega)

theorem wrappedNumber_le (s : List UInt8) : wrappedNumber s ≤ s.length * (58 ^ 255 * 255) := by
  induction s with
  | nil => simp [wrappedNumber]
  | cons c s ih =>
    have hc := charIndex_lt c
    have hterm : 58 ^ (s.length % 256) * charIndex c ≤ 58 ^ 255 * 255 :=
      Nat.mul_le_mul (pow_exponent_le s.length) (by omega)
    rw [wrappedNumber, List.length_cons, Nat.add_mul, Nat.one_mul]
    omega

/-- The number of a text of any length that the decoder can see leaves room in the block. -/
theorem wrappedNumber_lt {s : List UInt8} (h : s.length ≤ 2 ^ 32) :
    wrappedNumber s < 256 ^ 254 := by
  calc wrappedNumber s ≤ s.length * (58 ^ 255 * 255) := wrappedNumber_le s
    _ ≤ 2 ^ 32 * (58 ^ 255 * 255) := Nat.mul_le_mul_right _ h
    _ < 256 ^ 254 := by norm_num

/-! ## The loops of the decoder -/

/-- One turn adds the term of a character other than `1`. -/
theorem decodeTerm_canonical {bi : BigNumber} (bi2 : BigNumber) {n : Nat} {c : UInt8} (j : Nat)
    (h : Canonical bi n) (hc : c ≠ 49) (hn : n < 256 ^ 254) :
    ∃ b1 b2 b3, bi2.fromPowUInt8 58 (UInt8.ofNat j) = some b1 ∧
      b1.equalsMultiplicationByUInt8 (alphaIndexOf c) = some b2 ∧
      bi.equalsAdditionByBigInt b2 = some b3 ∧
      Canonical b3 (n + 58 ^ (j % 256) * charIndex c) := by
  have hindex : 0 < charIndex c := Nat.pos_of_ne_zero (fun h0 => hc ((charIndex_eq_zero c).mp h0))
  have hlt := charIndex_lt c
  have hexp : (UInt8.ofNat j).toNat = j % 256 := by simp
  have hle := pow_exponent_le j
  have hfit : (58 : Nat) ^ 255 < 256 ^ 254 := by norm_num
  obtain ⟨b1, hpow, h1⟩ := fromPow_canonical bi2 (a := 58) (b := UInt8.ofNat j) (by decide)
    (by rw [hexp]; exact Nat.lt_of_le_of_lt hle hfit)
  rw [hexp, show (58 : UInt8).toNat = 58 from rfl] at h1
  have hlen1 := h1.length_le (Nat.lt_of_le_of_lt hle hfit)
  obtain ⟨b2, hmul, h2⟩ := multiplication_canonical (b := alphaIndexOf c) h1
    (Nat.pow_pos (by omega)) hindex (by omega)
  have hterm : 58 ^ (j % 256) * charIndex c < 256 ^ 255 := by
    calc 58 ^ (j % 256) * charIndex c ≤ 58 ^ 255 * 255 := Nat.mul_le_mul hle (by omega)
      _ < 256 ^ 255 := by norm_num
  have hlen2 := h2.length_le (k := 255) hterm
  have hlen0 := h.length_le (k := 254) hn
  obtain ⟨b3, hadd, h3⟩ := addition_canonical h h2
    (Nat.mul_pos (Nat.pow_pos (by omega)) hindex) (by omega) (by omega)
  exact ⟨b1, b2, b3, hpow, hmul, hadd, h3⟩

/-- Before the turn `x` the number is that of the characters from `x` to the last. -/
theorem decodeLoop_number {s : List UInt8} {last : Nat} (hlast : last < s.length)
    (h32 : last < 2 ^ 32) (x : Nat) (hx : x ≤ last + 1) (bi bi2 : BigNumber)
    (h : Canonical bi (wrappedNumber ((s.take (last + 1)).drop x))) :
    ∃ bi', decodeLoop s last x bi bi2 = some bi' ∧
      Canonical bi' (wrappedNumber (s.take (last + 1))) := by
  induction x generalizing bi bi2 with
  | zero => exact ⟨bi, rfl, by simpa using h⟩
  | succ x ih =>
    obtain ⟨t, ht⟩ : ∃ t, t = s.take (last + 1) := ⟨_, rfl⟩
    rw [← ht] at h ih ⊢
    have htlen : t.length = last + 1 := by
      rw [ht, List.length_take]
      omega
    obtain ⟨c, hc⟩ : ∃ c, c = t[x] := ⟨_, rfl⟩
    have hget : s[x]? = some c := by
      have htake : t[x]? = s[x]? := by rw [ht, List.getElem?_take_of_lt (by omega)]
      rw [← htake, hc, List.getElem?_eq_getElem]
    have hsum : wrappedNumber (t.drop x) =
        wrappedNumber (t.drop (x + 1)) + 58 ^ ((last - x) % 256) * charIndex c := by
      rw [List.drop_eq_getElem_cons (by omega : x < t.length), ← hc, wrappedNumber,
        List.length_drop, htlen, Nat.add_sub_add_right]
    unfold decodeLoop
    simp only [Option.bind_eq_bind, hget, Option.bind_some]
    by_cases hone : c = 49
    · rw [if_neg (by simp [hone])]
      rw [(charIndex_eq_zero c).mpr hone, Nat.mul_zero, Nat.add_zero] at hsum
      exact ih (by omega) bi bi2 (by rw [hsum]; exact h)
    · have hlt : wrappedNumber (t.drop (x + 1)) < 256 ^ 254 :=
        wrappedNumber_lt (by rw [List.length_drop]; omega)
      obtain ⟨b1, b2, b3, hpow, hmul, hadd, h3⟩ := decodeTerm_canonical bi2 (last - x) h hone hlt
      rw [if_pos hone]
      simp only [hpow, Option.bind_some, hmul, hadd]
      exact ih (by omega) b3 b2 (by rw [hsum]; exact h3)

/-- The counter counts the ones from `n` on, as long as it does not wrap. -/
theorem zerosLoop_ones {s : List UInt8} {slen : Nat} (hslen : slen ≤ s.length) (n fuel : Nat)
    (hn : n + ones ((s.take slen).drop n) ≤ 255) (hfuel : ones ((s.take slen).drop n) < fuel) :
    zerosLoop s slen fuel (UInt8.ofNat n) (UInt8.ofNat n) =
      some (UInt8.ofNat (n + ones ((s.take slen).drop n))) := by
  induction fuel generalizing n with
  | zero => omega
  | succ fuel ih =>
    obtain ⟨t, ht⟩ : ∃ t, t = s.take slen := ⟨_, rfl⟩
    rw [← ht] at hn hfuel ih ⊢
    have htlen : t.length = slen := by
      rw [ht, List.length_take]
      omega
    have hx : (UInt8.ofNat n).toNat = n := by
      simp
      omega
    unfold zerosLoop
    rw [hx]
    rcases Nat.lt_or_ge n slen with h | h
    · obtain ⟨c, hc⟩ : ∃ c, c = t[n] := ⟨_, rfl⟩
      have hget : s[n]? = some c := by
        have htake : t[n]? = s[n]? := by rw [ht, List.getElem?_take_of_lt h]
        rw [← htake, hc, List.getElem?_eq_getElem]
      rw [List.drop_eq_getElem_cons (by omega : n < t.length), ← hc] at hn hfuel ⊢
      rw [if_pos h]
      simp only [Option.bind_eq_bind, hget, Option.bind_some]
      by_cases hone : c = 49
      · rw [hone, ones_cons_one] at hn hfuel
        obtain ⟨hnext, -⟩ := counter_succ (k := n) (by omega)
        rw [if_pos hone, hnext, ih (n + 1) (by omega) (by omega), hone, ones_cons_one]
        congr 2
        omega
      · rw [if_neg hone]
        simp [ones, hone]
    · rw [if_neg (by omega), List.drop_eq_nil_of_le (by omega)]
      rfl

/-! ## The decoder -/

theorem lastIndex_lt {s : List UInt8} (hne : s ≠ []) : lastIndex s < s.length := by
  have hpos := List.length_pos_of_ne_nil hne
  unfold lastIndex strlen32
  omega

theorem lastIndex_lt_32 (s : List UInt8) : lastIndex s < 2 ^ 32 :=
  Nat.mod_lt _ (by omega)

/-- The loop over the characters, from the empty number. -/
theorem decodeLoop_whole {s : List UInt8} (hne : s ≠ []) :
    ∃ bi, decodeLoop s (lastIndex s) (lastIndex s + 1) (BigNumber.zeroed 0) (BigNumber.zeroed 1) =
      some bi ∧ Canonical bi (wrappedNumber (s.take (lastIndex s + 1))) := by
  have hlast := lastIndex_lt hne
  apply decodeLoop_number hlast (lastIndex_lt_32 s) _ (le_refl _)
  rw [List.drop_eq_nil_of_le (by rw [List.length_take]; omega)]
  refine ⟨?_, ?_⟩
  · simp [BigNumber.value, BigNumber.zeroed, BigNumber.ofBytes, readLe, wrappedNumber]
  · simp [BigNumber.zeroed, BigNumber.ofBytes]

/-- The number has the least length `k` that it fits in, and its zero bytes behind. -/
theorem cbDecodeBase58_spelled {s : List UInt8} (hne : s ≠ []) (hlen : s.length ≤ 255) :
    ∃ bi k, cbDecodeBase58 (BigNumber.zeroed 0) s = some bi ∧ bi.length = k + ones s ∧
      readLe bi.data 0 (k + ones s) = spelled charIndex s ∧
      spelled charIndex s < 256 ^ k ∧ (0 < k → 256 ^ (k - 1) ≤ spelled charIndex s) := by
  have hpos := List.length_pos_of_ne_nil hne
  have hle := ones_le s
  have hstr : strlen32 s = s.length := Nat.mod_eq_of_lt (by omega)
  have hlast : lastIndex s + 1 = s.length := by
    unfold lastIndex
    rw [hstr]
    omega
  obtain ⟨bi, hloop, hcan⟩ := decodeLoop_whole hne
  rw [hlast, List.take_length, wrappedNumber_eq_spelled (by omega)] at hcan
  have hfit : bi.length ≤ s.length - ones s := by
    have hlt := spelled_lt charIndex_lt (s.drop (ones s))
    rw [spelled_drop_ones, List.length_drop] at hlt
    exact hcan.length_le hlt
  have hcount := zerosLoop_ones (le_refl s.length) 0 257
    (by rw [List.drop_zero, List.take_length]; omega)
    (by rw [List.drop_zero, List.take_length]; omega)
  rw [Nat.zero_add, List.drop_zero, List.take_length] at hcount
  have hz : (UInt8.ofNat (ones s)).toNat = ones s := by
    simp
    omega
  unfold cbDecodeBase58
  rw [hloop, hstr]
  simp only [Option.bind_eq_bind, Option.bind_some]
  rw [show (0 : UInt8) = UInt8.ofNat 0 from rfl, hcount, Option.bind_some]
  by_cases hz0 : UInt8.ofNat (ones s) = UInt8.ofNat 0
  · have h0 : ones s = 0 := by
      rw [← hz, hz0]
      rfl
    rw [if_pos hz0, h0]
    exact ⟨bi, bi.length, rfl, rfl, hcan.value, hcan.lt, hcan.top⟩
  · rw [if_neg hz0, hz, if_pos (by rw [MAX_BIG_NUMBER]; omega)]
    refine ⟨_, bi.length, rfl, rfl, ?_, hcan.lt, hcan.top⟩
    exact (readLe_cleared bi.data bi.length (ones s)).trans hcan.value

end bitcoinstats.base58
