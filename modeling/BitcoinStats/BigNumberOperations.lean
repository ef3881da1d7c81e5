-- The operations on big numbers, each for every number: the values they leave, and
-- the subtraction of one number from another, whose borrow goes one byte far.
import BitcoinStats.Base58Value

open byte_memory

namespace bitcoinstats.base58

/-! ## The operations of the codec -/

/-- What the operations of the codec do to `a`. -/
structure OperationsExact (a b : BigNumber) (byte : UInt8) : Prop where
  addition : ∃ a', a.equalsAdditionByBigInt b = some a' ∧ Leaves a a' (a.value + b.value) ∧
    (Normal a → Normal b → Normal a')
  multiplication : 0 < a.length → ∃ a', a.equalsMultiplicationByUInt8 byte = some a' ∧
    Leaves a a' (a.value * byte.toNat) ∧ (Normal a → Normal a')
  modulo : 0 < a.length → ∃ r, a.moduloWith58 = some r ∧ r.toNat = a.value % 58
  subtraction : 0 < a.length → byte.toNat ≤ a.value →
    ∃ a', a.equalsSubtractionByUInt8 byte = some a' ∧ Leaves a a' (a.value - byte.toNat) ∧
      (Normal a → Normal a')
  division : 0 < a.length → 58 ∣ a.value →
    ∃ a', a.equalsDivisionBy58 = some a' ∧ Leaves a a' (a.value / 58) ∧ (Normal a → Normal a')

/-- Every operation is exact on all numbers of up to 254 bytes. -/
theorem operations_exact (a b : BigNumber) (byte : UInt8) (ha : a.length ≤ 254)
    (hpos : 0 < b.length) (hb : b.length ≤ 254) : OperationsExact a b byte where
  addition := addition_exact a b hpos (by omega) (by omega)
  multiplication := fun hposa => multiplication_exact a byte hposa (by omega)
  modulo := by
    intro hposa
    refine ⟨_, moduloWith58_value hposa (by omega), ?_⟩
    rw [UInt8.toNat_ofNat']
    omega
  subtraction := by
    intro hposa hle
    obtain ⟨a', hrun, hleaves, hnormal⟩ := subtraction_exact a byte hle hposa (by omega)
    exact ⟨a', hrun, hleaves, fun _ => hnormal⟩
  division := by
    intro hposa hdvd
    apply division_exact a hposa (by omega)
    omega

/-- 65536 and 255, with the byte 58. -/
theorem operations_exact_on_three_bytes :
    OperationsExact (BigNumber.ofBytes [0, 0, 1] 3) (BigNumber.ofBytes [255] 1) 58 :=
  operations_exact (BigNumber.ofBytes [0, 0, 1] 3) (BigNumber.ofBytes [255] 1) 58 (by decide)
    (by decide) (by decide)

/-! ## The subtraction of a big number -/

/-- One byte: 256 in `tmp` takes nothing off, and borrows. -/
theorem borrow_byte (a b : UInt8) (carry : Bool) :
    (a - (carry.toNat.toUInt16 + b.toUInt16).toUInt8).toNat + b.toNat + carry.toNat =
      a.toNat + 256 * (decide (a.toUInt16 < carry.toNat.toUInt16 + b.toUInt16)).toNat := by
  have ha := a.toNat_lt
  have hb := b.toNat_lt
  have hc := carry.toNat_lt
  obtain ⟨tmp, htmp⟩ : ∃ tmp, tmp = carry.toNat.toUInt16 + b.toUInt16 := ⟨_, rfl⟩
  have htmp' : tmp.toNat = carry.toNat + b.toNat := by
    simp [htmp, UInt16.toNat_add]
    omega
  have hv : (a - tmp.toUInt8).toNat = (256 - tmp.toNat % 256 + a.toNat) % 256 := by
    simp [UInt8.toNat_sub]
  rw [← htmp, hv]
  by_cases h : a.toUInt16 < tmp
  · have hlt : a.toNat < tmp.toNat := by simpa using UInt16.lt_iff_toNat_lt.mp h
    simp only [h, decide_true, Bool.toNat_true]
    omega
  · have hge : tmp.toNat ≤ a.toNat := by
      simpa using UInt16.le_iff_toNat_le.mp (UInt16.not_lt.mp h)
    simp only [h, decide_false, Bool.toNat_false]
    omega

/-- The loop takes the bytes of `b` from `x` on, and what is borrowed so far. -/
theorem bigIntLoop_value (b a : BigNumber) (fuel x : Nat) (carry : Bool) (k : Nat)
    (hk : x + k = b.length) (hlen : b.length < 256) (hfuel : k < fuel) :
    ∃ carry' a', BigNumber.bigIntLoop b fuel (UInt8.ofNat x) carry a
        = some (UInt8.ofNat b.length, carry', a') ∧
      a'.length = a.length ∧ AgreeOutside x k a.data a'.data ∧
      readLe a'.data x k + readLe b.data x k + carry.toNat =
        readLe a.data x k + 256 ^ k * carry'.toNat := by
  induction k generalizing fuel x carry a with
  | zero =>
    obtain ⟨fuel, rfl⟩ : ∃ f, fuel = f + 1 := ⟨fuel - 1, by omega⟩
    have hx : (UInt8.ofNat x).toNat = x := by simp; omega
    refine ⟨carry, a, ?_, rfl, AgreeOutside.refl x 0 a.data, by simp [readLe]⟩
    unfold BigNumber.bigIntLoop
    rw [if_neg (by omega)]
    simp [← hk]
  | succ k ih =>
    obtain ⟨fuel, rfl⟩ : ∃ f, fuel = f + 1 := ⟨fuel - 1, by omega⟩
    obtain ⟨hnext, hx⟩ := counter_succ (k := x) (by omega)
    unfold BigNumber.bigIntLoop
    rw [if_pos (by omega)]
    simp only [hx, hnext]
    have hbyte := borrow_byte (a.data x) (b.data x) carry
    obtain ⟨tmp, htmp⟩ : ∃ tmp, tmp = carry.toNat.toUInt16 + (b.data x).toUInt16 := ⟨_, rfl⟩
    rw [← htmp] at hbyte ⊢
    obtain ⟨v, hv⟩ : ∃ v, v = a.data x - tmp.toUInt8 := ⟨_, rfl⟩
    obtain ⟨borrow, hborrow⟩ : ∃ borrow, borrow = decide ((a.data x).toUInt16 < tmp) := ⟨_, rfl⟩
    rw [← hv, ← hborrow] at hbyte ⊢
    obtain ⟨carry', a', hrun, hlen', hout, hval⟩ :=
      ih (a.put x v) fuel (x + 1) borrow (by omega) (by omega)
    refine ⟨carry', a', hrun, by rw [hlen', put_length], hout.store, ?_⟩
    rw [put_data, readLe_update (by omega)] at hval
    rw [readLe_succ, readLe_succ, readLe_succ, hout.stored, Nat.pow_succ']
    linarith

/-- The bytes behind the loop, and the borrow that is taken from the first of them. -/
theorem bigInt_normalised {a b a1 : BigNumber} {carry : Bool}
    (hrun : BigNumber.bigIntLoop b 257 (UInt8.ofNat 0) false a =
      some (UInt8.ofNat b.length, carry, a1))
    (hb : b.length < 256) (ha : a1.length < 256) {a2 : BigNumber}
    (h2 : a2 = if carry then a1.put b.length (a1.data b.length - 1) else a1) :
    ∃ a', a.equalsSubtractionByBigInt b = some a' ∧ a'.value = a2.value ∧ Normal a' := by
  have hx : (UInt8.ofNat b.length).toNat = b.length := by simp; omega
  have hlen2 : a2.length = a1.length := by
    rw [h2]
    split
    · rfl
    · rfl
  obtain ⟨a', hnorm, hval, -, -, hnormal⟩ := normalise_exact (a := a2) (by omega)
  refine ⟨a', ?_, hval, hnormal⟩
  unfold BigNumber.equalsSubtractionByBigInt
  simp only [Option.bind_eq_bind]
  rw [show (0 : UInt8) = UInt8.ofNat 0 from rfl, hrun, Option.bind_some]
  simp only [hx]
  rw [← h2]
  exact hnorm

/-- A byte that lends to a lower one: 0 becomes 255. -/
theorem lend_value (v : UInt8) : (v - 1).toNat + 1 = v.toNat + (if v = 0 then 256 else 0) := by
  by_cases hzero : v = 0
  · simp [hzero]
  · have hpos : 0 < v.toNat := Nat.pos_of_ne_zero (fun h0 => hzero (UInt8.toNat_inj.mp h0))
    have hle : (1 : UInt8) ≤ v := UInt8.le_iff_toNat_le.mpr hpos
    rw [if_neg hzero, UInt8.toNat_sub_of_le _ _ hle]
    simp
    omega

/-- The byte behind the first `n` has lent to them. -/
theorem value_lent {a a1 : BigNumber} {n j : ℕ} (hk : a.length = n + (j + 1))
    (hlen1 : a1.length = a.length) (hout : AgreeOutside 0 n a.data a1.data) :
    BigNumber.value (a1.put n (a1.data n - 1)) + readLe a.data 0 n + 256 ^ n =
      a.value + readLe a1.data 0 n + (if a.data n = 0 then 256 ^ (n + 1) else 0) := by
  have hbyte : a1.data n = a.data n := hout n (Or.inr (by omega))
  have hrest : readLe a1.data (n + 1) j = readLe a.data (n + 1) j :=
    hout.readLe_eq (Or.inr (by omega))
  have hvalue : a.value =
      readLe a.data 0 n + 256 ^ n * ((a.data n).toNat + 256 * readLe a.data (n + 1) j) := by
    rw [BigNumber.value, hk, readLe_add, Nat.zero_add, readLe_succ]
  have hlent : BigNumber.value (a1.put n (a1.data n - 1)) =
      readLe a1.data 0 n + 256 ^ n * ((a.data n - 1).toNat + 256 * readLe a.data (n + 1) j) := by
    rw [BigNumber.value, put_length, put_data, hlen1, hk, readLe_add, Nat.zero_add,
      readLe_update (by omega), readLe_succ, readLe_update (by omega), Function.update_self, hbyte,
      hrest]
  have hmul := congrArg (256 ^ n * ·) (lend_value (a.data n))
  rw [hlent, hvalue]
  by_cases hzero : a.data n = 0
  · simp only [if_pos hzero, Nat.mul_add, Nat.pow_succ] at hmul ⊢
    linarith
  · simp only [if_neg hzero, Nat.mul_add] at hmul ⊢
    linarith

/-- Where the borrow finds a zero byte, the number is too large by the next power. -/
theorem bigInt_value {a b : BigNumber} (hle : b.length ≤ a.length) (ha : a.length < 256)
    (hb : b.length < 256) (hval : b.value ≤ a.value) :
    ∃ a', a.equalsSubtractionByBigInt b = some a' ∧ Normal a' ∧
      a'.value + b.value = a.value +
        (if b.value ≤ readLe a.data 0 b.length ∨ a.data b.length ≠ 0 then 0
          else 256 ^ (b.length + 1)) := by
  obtain ⟨carry, a1, hrun, hlen1, hout, hsum⟩ :=
    bigIntLoop_value b a 257 0 false b.length (by omega) hb (by omega)
  obtain ⟨k, hk⟩ := Nat.exists_eq_add_of_le hle
  have hlow1 := readLe_lt a1.data 0 b.length
  rw [Bool.toNat_false, Nat.add_zero, ← BigNumber.value] at hsum
  obtain ⟨a2, h2⟩ : ∃ a2, a2 = if carry then a1.put b.length (a1.data b.length - 1) else a1 :=
    ⟨_, rfl⟩
  obtain ⟨a', hsub, hval', hnormal⟩ := bigInt_normalised hrun hb (by omega) h2
  refine ⟨a', hsub, hnormal, ?_⟩
  rw [hval', h2]
  have hsplit : a.value = readLe a.data 0 b.length + 256 ^ b.length * readLe a.data b.length k := by
    rw [BigNumber.value, hk, readLe_add, Nat.zero_add]
  cases carry with
  | false =>
    have hhigh : readLe a1.data b.length k = readLe a.data b.length k :=
      hout.readLe_eq (Or.inr (by omega))
    rw [Bool.toNat_false, Nat.mul_zero, Nat.add_zero] at hsum
    rw [if_neg (by simp), if_pos (Or.inl (by omega)), BigNumber.value, hlen1, hk, readLe_add,
      Nat.zero_add, hhigh, hsplit]
    omega
  | true =>
    rw [Bool.toNat_true, Nat.mul_one] at hsum
    -- the number has a byte behind the last one of `b`
    have hpos : 0 < k := by
      by_contra hnone
      obtain rfl : k = 0 := by omega
      have hnothing : readLe a.data b.length 0 = 0 := rfl
      rw [hnothing, Nat.mul_zero] at hsplit
      omega
    obtain ⟨j, rfl⟩ : ∃ j, k = j + 1 := ⟨k - 1, by omega⟩
    have hlent := value_lent hk hlen1 hout
    rw [if_pos rfl]
    by_cases hzero : a.data b.length = 0
    · rw [if_pos hzero] at hlent
      rw [if_neg (by simp [hzero]; omega)]
      omega
    · rw [if_neg hzero] at hlent
      rw [if_pos (Or.inr hzero)]
      omega

/-- The call leaves the difference, without needless zero bytes. -/
def SubtractsExactly (a b : BigNumber) : Prop :=
  ∃ a', a.equalsSubtractionByBigInt b = some a' ∧ a'.value = a.value - b.value ∧ Normal a'

/-- The one number that is longer than `a` and not greater is a zero byte. -/
theorem zero_of_longer {a b : BigNumber} (hb : Normal b) (hlt : a.length < b.length)
    (hval : b.value ≤ a.value) : b.length = 1 ∧ a.length = 0 ∧ a.value = 0 := by
  have hone : b.length = 1 := by
    by_contra hne
    have htop := normal_iff.mp hb (by omega)
    have hpow : 256 ^ a.length ≤ 256 ^ (b.length - 1) :=
      Nat.pow_le_pow_right (by omega) (by omega)
    have hlta := readLe_lt a.data 0 a.length
    rw [← BigNumber.value] at hlta
    omega
  have hlen : a.length = 0 := by omega
  refine ⟨hone, hlen, ?_⟩
  rw [BigNumber.value, hlen]
  rfl

theorem subtractsExactly_of_longer {a b : BigNumber} (hb : Normal b) (hlt : a.length < b.length)
    (hval : b.value ≤ a.value) : SubtractsExactly a b := by
  obtain ⟨hone, hlen, hzero⟩ := zero_of_longer hb hlt hval
  obtain ⟨carry, a1, hrun, hlen1, -, hsum⟩ :=
    bigIntLoop_value b a 257 0 false b.length (by omega) (by omega) (by omega)
  have hcarry : carry = false := by
    have hlt1 := readLe_lt a1.data 0 b.length
    rw [← BigNumber.value, show b.value = 0 by omega] at hsum
    rw [hone] at hlt1 hsum
    rw [Bool.eq_false_iff]
    rintro rfl
    simp at hsum hlt1
    omega
  subst hcarry
  obtain ⟨a', hsub, hval', hnormal⟩ := bigInt_normalised hrun (by omega) (by omega) rfl
  refine ⟨a', hsub, ?_, hnormal⟩
  rw [hval', if_neg (by simp), BigNumber.value, show a1.length = 0 by omega, hzero, Nat.zero_sub]
  rfl

/-- The difference is exact when the bytes of `a` below the length of `b` need no
borrow, or the next byte can give one. -/
theorem subtractsExactly_iff (a b : BigNumber) (hb : Normal b) (hval : b.value ≤ a.value)
    (hla : a.length ≤ 254) (hlb : b.length ≤ 254) :
    SubtractsExactly a b ↔ b.value ≤ readLe a.data 0 b.length ∨ a.data b.length ≠ 0 := by
  rcases Nat.lt_or_ge a.length b.length with hlt | hle
  · obtain ⟨-, -, hzero⟩ := zero_of_longer hb hlt hval
    exact iff_of_true (subtractsExactly_of_longer hb hlt hval) (Or.inl (by omega))
  · obtain ⟨a', hrun, hnormal, hsum⟩ := bigInt_value hle (by omega) (Nat.lt_succ_of_le (hlb.trans (by decide))) hval
    constructor
    · rintro ⟨a'', hrun', hexact, -⟩
      rw [hrun] at hrun'
      obtain rfl := Option.some.inj hrun'
      by_contra hcond
      rw [if_neg hcond] at hsum
      have hpow : 0 < 256 ^ (b.length + 1) := by positivity
      omega
    · intro hcond
      rw [if_pos hcond] at hsum
      exact ⟨a', hrun, by omega, hnormal⟩

/-- 65536 - 65280: the borrow finds the highest byte. -/
theorem borrow_from_the_next_byte :
    SubtractsExactly (BigNumber.ofBytes [0, 0, 1] 3) (BigNumber.ofBytes [0, 255] 2) :=
  (subtractsExactly_iff (BigNumber.ofBytes [0, 0, 1] 3) (BigNumber.ofBytes [0, 255] 2) (by decide)
    (by decide) (by decide) (by decide)).mpr (Or.inr (by decide))

/-- 65536 - 1 is 131071: the borrow would have to go over a zero byte. -/
theorem borrow_lost :
    ¬ SubtractsExactly (BigNumber.ofBytes [0, 0, 1] 3) (BigNumber.ofBytes [1] 1) := by
  rintro ⟨a', hrun, hval, -⟩
  have hwrong : ((BigNumber.ofBytes [0, 0, 1] 3).equalsSubtractionByBigInt
      (BigNumber.ofBytes [1] 1)).map BigNumber.value = some 131071 := by decide
  rw [hrun, Option.map_some, hval] at hwrong
  revert hwrong
  decide

end bitcoinstats.base58
