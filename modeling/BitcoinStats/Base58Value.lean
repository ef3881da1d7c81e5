-- The numbers behind the byte loops of `Base58.cpp`: what each operation on a
-- big number does to its value, and to its length.
import BitcoinStats.Base58

open byte_memory

namespace bitcoinstats.base58

/-! ## The value of a big number -/

def BigNumber.value (a : BigNumber) : Nat := readLe a.data 0 a.length

/-- The number has the value `n` and no needless zero byte at its top. -/
structure Canonical (a : BigNumber) (n : Nat) : Prop where
  value : a.value = n
  top : 0 < a.length → 256 ^ (a.length - 1) ≤ n

theorem Canonical.lt {a : BigNumber} {n : Nat} (h : Canonical a n) : n < 256 ^ a.length := by
  rw [← h.value]
  exact readLe_lt a.data 0 a.length

theorem length_le_of_top {n j k : Nat} (htop : 0 < j → 256 ^ (j - 1) ≤ n) (hn : n < 256 ^ k) :
    j ≤ k := by
  by_contra hk
  have hle : 256 ^ k ≤ 256 ^ (j - 1) := Nat.pow_le_pow_right (by omega) (by omega)
  have h := htop (by omega)
  omega

theorem Canonical.length_le {a : BigNumber} {n k : Nat} (h : Canonical a n) (hn : n < 256 ^ k) :
    a.length ≤ k :=
  length_le_of_top h.top hn

theorem Canonical.length_pos {a : BigNumber} {n : Nat} (h : Canonical a n) (hn : 0 < n) :
    0 < a.length := by
  rcases Nat.eq_zero_or_pos a.length with h0 | h0
  · have hlt := h.lt
    rw [h0] at hlt
    omega
  · exact h0

theorem value_top {a : BigNumber} (h : 0 < a.length) :
    a.value = readLe a.data 0 (a.length - 1) +
      256 ^ (a.length - 1) * (a.data (a.length - 1)).toNat := by
  have hsplit := readLe_snoc a.data 0 (a.length - 1)
  rwa [Nat.sub_add_cancel h, Nat.zero_add] at hsplit

theorem data_zero_above {a : BigNumber} {k i : Nat} (h : a.value < 256 ^ k) (hk : k ≤ i)
    (hi : i < a.length) : a.data i = 0 := by
  have hzero := readLe_zero_above h hk hi
  rwa [Nat.zero_add] at hzero

theorem top_ne_zero_iff {a : BigNumber} (h : 0 < a.length) :
    a.data (a.length - 1) ≠ 0 ↔ 256 ^ (a.length - 1) ≤ a.value := by
  have htop := value_top h
  constructor
  · intro hne
    have hbyte : 0 < (a.data (a.length - 1)).toNat :=
      Nat.pos_of_ne_zero (fun h0 => hne (UInt8.toNat_inj.mp h0))
    have hmul : 256 ^ (a.length - 1) * 1 ≤ 256 ^ (a.length - 1) * (a.data (a.length - 1)).toNat :=
      Nat.mul_le_mul_left _ hbyte
    omega
  · intro hle hzero
    have hlow := readLe_lt a.data 0 (a.length - 1)
    rw [hzero] at htop
    simp at htop
    omega

/-- A number whose highest byte is not 0. -/
theorem canonical_of_top {a : BigNumber} (h : 0 < a.length → a.data (a.length - 1) ≠ 0) :
    Canonical a a.value where
  value := rfl
  top := fun hpos => (top_ne_zero_iff hpos).mp (h hpos)

/-- Only a number of one byte has a zero byte at its top. -/
def Normal (a : BigNumber) : Prop := 1 < a.length → a.data (a.length - 1) ≠ 0

instance (a : BigNumber) : Decidable (Normal a) :=
  inferInstanceAs (Decidable (1 < a.length → a.data (a.length - 1) ≠ 0))

theorem normal_iff {a : BigNumber} :
    Normal a ↔ (1 < a.length → 256 ^ (a.length - 1) ≤ a.value) :=
  imp_congr_right (fun hlen => top_ne_zero_iff (by omega))

theorem Canonical.normal {a : BigNumber} {n : Nat} (h : Canonical a n) : Normal a := by
  rw [normal_iff, h.value]
  intro hlen
  exact h.top (by omega)

theorem Normal.canonical {a : BigNumber} {n : Nat} (h : Normal a) (hvalue : a.value = n)
    (hn : 0 < n) : Canonical a n where
  value := hvalue
  top := by
    intro hpos
    rcases Nat.lt_or_ge 1 a.length with hlen | hlen
    · rw [← hvalue]
      exact normal_iff.mp h hlen
    · rw [show a.length - 1 = 0 by omega, Nat.pow_zero]
      exact hn

/-- An operation leaves the value `n`, and no byte behind the first one above the new
length is another one than before. -/
structure Leaves (a a' : BigNumber) (n : Nat) : Prop where
  value : a'.value = n
  pos : 0 < a'.length
  untouched : ∀ i, a'.length < i → a'.data i = a.data i

theorem canonical_one_byte {a : BigNumber} {n : Nat} (h : Canonical a n) (h1 : a.length = 1) :
    (a.data 0).toNat = n := by
  rw [← h.value, BigNumber.value, h1]
  simp [readLe, window]

@[simp] theorem put_length (a : BigNumber) (i : Nat) (v : UInt8) :
    (a.put i v).length = a.length := rfl

@[simp] theorem put_data (a : BigNumber) (i : Nat) (v : UInt8) :
    (a.put i v).data = Function.update a.data i v := rfl

/-- The `uint8_t` counters of the loops do not wrap below 256. -/
theorem counter_succ {k : Nat} (h : k < 255) :
    UInt8.ofNat k + 1 = UInt8.ofNat (k + 1) ∧ (UInt8.ofNat k).toNat = k := by
  refine ⟨?_, by simp; omega⟩
  apply UInt8.toNat_inj.mp
  simp

/-! ## Addition -/

/-- The byte that is stored, and the carry out of it. -/
theorem carry_byte (a b : UInt8) (overflow : Bool) :
    (a + (b + overflow.toNat.toUInt8)).toNat +
        256 * (decide ((a + (b + overflow.toNat.toUInt8)).toNat < b.toNat + overflow.toNat)).toNat =
      a.toNat + b.toNat + overflow.toNat := by
  have ha := a.toNat_lt
  have hb := b.toNat_lt
  have ho := overflow.toNat_lt
  have hv : (a + (b + overflow.toNat.toUInt8)).toNat =
      (a.toNat + b.toNat + overflow.toNat) % 256 := by
    simp [UInt8.toNat_add]
    omega
  rw [hv]
  by_cases h : (a.toNat + b.toNat + overflow.toNat) % 256 < b.toNat + overflow.toNat
  · simp only [h, decide_true, Bool.toNat_true]
    omega
  · simp only [h, decide_false, Bool.toNat_false]
    omega

/-- The loop adds the bytes of `b` from `x` on, with the carry so far. -/
theorem addLoop_value (b a : BigNumber) (fuel x : Nat) (overflow : Bool) (k : Nat)
    (hk : x + k = b.length) (hlen : b.length < 256) (hfuel : k < fuel) :
    ∃ overflow' a', BigNumber.addLoop b fuel (UInt8.ofNat x) overflow a
        = some (UInt8.ofNat b.length, overflow', a') ∧
      a'.length = a.length ∧ AgreeOutside x k a.data a'.data ∧
      readLe a'.data x k + 256 ^ k * overflow'.toNat =
        readLe a.data x k + readLe b.data x k + overflow.toNat := by
  induction k generalizing fuel x overflow a with
  | zero =>
    obtain ⟨fuel, rfl⟩ : ∃ f, fuel = f + 1 := ⟨fuel - 1, by omega⟩
    have hx : (UInt8.ofNat x).toNat = x := by simp; omega
    refine ⟨overflow, a, ?_, rfl, AgreeOutside.refl x 0 a.data, by simp [readLe]⟩
    unfold BigNumber.addLoop
    rw [if_neg (by omega)]
    simp [← hk]
  | succ k ih =>
    obtain ⟨fuel, rfl⟩ : ∃ f, fuel = f + 1 := ⟨fuel - 1, by omega⟩
    obtain ⟨hnext, hx⟩ := counter_succ (k := x) (by omega)
    unfold BigNumber.addLoop
    rw [if_pos (by omega)]
    simp only [hx, hnext]
    have hbyte := carry_byte (a.data x) (b.data x) overflow
    set v := a.data x + (b.data x + overflow.toNat.toUInt8) with hv
    set carry : Bool := decide (v.toNat < (b.data x).toNat + overflow.toNat) with hcarry
    obtain ⟨overflow', a', hrun, hlen', hout, hval⟩ :=
      ih (a.put x v) fuel (x + 1) carry (by omega) (by omega)
    refine ⟨overflow', a', hrun, by rw [hlen', put_length], hout.store, ?_⟩
    rw [put_data, readLe_update (by omega)] at hval
    rw [readLe_succ, readLe_succ, readLe_succ, hout.stored, Nat.pow_succ']
    linarith

theorem increment_byte (a : UInt8) :
    (a + 1).toNat + 256 * (decide (a + 1 = 0)).toNat = a.toNat + 1 := by
  have ha := a.toNat_lt
  have hv : (a + 1).toNat = (a.toNat + 1) % 256 := by simp [UInt8.toNat_add]
  by_cases h : a + 1 = 0
  · have h0 : (a + 1).toNat = 0 := by simp [h]
    simp only [h, decide_true, Bool.toNat_true]
    simp
    omega
  · have h0 : (a + 1).toNat ≠ 0 := fun h0 => h (UInt8.toNat_inj.mp h0)
    simp only [h, decide_false, Bool.toNat_false]
    omega

/-- The carry runs on over the rest of `a`. -/
theorem overflowLoop_value (a : BigNumber) (fuel x : Nat) (overflow : Bool) (k : Nat)
    (hk : x + k = a.length) (hlen : a.length < 256) (hfuel : k < fuel) :
    ∃ overflow' a', BigNumber.overflowLoop fuel (UInt8.ofNat x) overflow a
        = some (overflow', a') ∧
      a'.length = a.length ∧ AgreeOutside x k a.data a'.data ∧
      readLe a'.data x k + 256 ^ k * overflow'.toNat = readLe a.data x k + overflow.toNat := by
  induction k generalizing fuel x overflow a with
  | zero =>
    obtain ⟨fuel, rfl⟩ : ∃ f, fuel = f + 1 := ⟨fuel - 1, by omega⟩
    have hx : (UInt8.ofNat x).toNat = x := by simp; omega
    refine ⟨overflow, a, ?_, rfl, AgreeOutside.refl x 0 a.data, by simp [readLe]⟩
    unfold BigNumber.overflowLoop
    rw [if_neg (by omega)]
  | succ k ih =>
    obtain ⟨fuel, rfl⟩ : ∃ f, fuel = f + 1 := ⟨fuel - 1, by omega⟩
    obtain ⟨hnext, hx⟩ := counter_succ (k := x) (by omega)
    unfold BigNumber.overflowLoop
    cases overflow with
    | false =>
      refine ⟨false, a, by simp, rfl, AgreeOutside.refl x (k + 1) a.data, by simp⟩
    | true =>
      rw [if_pos ⟨rfl, by omega⟩]
      simp only [hx, hnext]
      have hbyte := increment_byte (a.data x)
      set v := a.data x + 1 with hv
      set carry : Bool := decide (v = 0) with hcarry
      obtain ⟨overflow', a', hrun, hlen', hout, hval⟩ :=
        ih (a.put x v) fuel (x + 1) carry (by simp; omega) (by simpa using hlen) (by omega)
      refine ⟨overflow', a', hrun, by rw [hlen', put_length], hout.store, ?_⟩
      rw [put_data, readLe_update (by omega)] at hval
      rw [readLe_succ, readLe_succ, hout.stored, Nat.pow_succ', Bool.toNat_true]
      linarith

/-- Bytes that are cleared behind a number do not count. -/
theorem readLe_cleared (data : Memory) (n k : Nat) :
    readLe (fun i => if n ≤ i ∧ i < n + k then 0 else data i) 0 (n + k) = readLe data 0 n := by
  have hlow : readLe (fun i => if n ≤ i ∧ i < n + k then 0 else data i) 0 n = readLe data 0 n := by
    apply readLe_congr
    intro i hi
    simp [hi]
  have hhigh : readLe (fun i => if n ≤ i ∧ i < n + k then 0 else data i) n k = 0 := by
    rw [← readLe_zero n k]
    apply readLe_congr
    intro i hi
    rw [if_pos ⟨by omega, by omega⟩]
  rw [readLe_add, Nat.zero_add, hlow, hhigh]
  simp

theorem expandTo_value (a : BigNumber) {length : Nat} (h : length < 256) :
    ∃ a', a.expandTo length = some a' ∧ a'.value = a.value ∧ a'.length = max a.length length ∧
      ∀ i, a'.length ≤ i → a'.data i = a.data i := by
  unfold BigNumber.expandTo
  by_cases hlt : a.length < length
  · obtain ⟨k, rfl⟩ := Nat.exists_eq_add_of_le hlt.le
    rw [if_pos hlt, if_pos (by rw [MAX_BIG_NUMBER]; omega)]
    refine ⟨_, rfl, readLe_cleared a.data a.length k, by simp, ?_⟩
    intro i hi
    exact if_neg (fun hin => Nat.not_lt.mpr hi hin.2)
  · rw [if_neg hlt]
    exact ⟨a, rfl, rfl, by omega, fun i _ => rfl⟩

/-- The number with one more byte at its top. -/
theorem value_lengthened (a : BigNumber) (v : UInt8) :
    BigNumber.value { a.put a.length v with length := a.length + 1 } =
      a.value + 256 ^ a.length * v.toNat := by
  rw [BigNumber.value, BigNumber.value]
  simp only [put_data]
  rw [readLe_snoc, readLe_update (by omega), Nat.zero_add, Function.update_self]

theorem normal_lengthened (a : BigNumber) {v : UInt8} (hv : v ≠ 0) :
    Normal { a.put a.length v with length := a.length + 1 } := by
  intro _
  simpa using hv

theorem leaves_lengthened {a a1 : BigNumber} {v : UInt8} {n : ℕ}
    (hvalue : a1.value + 256 ^ a1.length * v.toNat = n)
    (hout : ∀ i, a1.length < i → a1.data i = a.data i) :
    Leaves a { a1.put a1.length v with length := a1.length + 1 } n where
  value := by rw [value_lengthened, hvalue]
  pos := by simp
  untouched := by
    intro i hi
    simp only at hi
    rw [put_data, Function.update_of_ne (by omega)]
    exact hout i (by omega)

/-- Both loops together, on a number at least as long as `b`. -/
theorem addLoops_value (a b : BigNumber) (hle : b.length ≤ a.length) (ha : a.length < 256) :
    ∃ x overflow a1 overflow' a', BigNumber.addLoop b 257 0 false a = some (x, overflow, a1) ∧
      BigNumber.overflowLoop 513 x overflow a1 = some (overflow', a') ∧ a'.length = a.length ∧
      AgreeOutside 0 a.length a.data a'.data ∧
      readLe a'.data 0 a.length + 256 ^ a.length * overflow'.toNat = a.value + b.value := by
  obtain ⟨k, hk⟩ := Nat.exists_eq_add_of_le hle
  obtain ⟨o1, a1, hrun1, hlen1, hout1, hval1⟩ :=
    addLoop_value b a 257 0 false b.length (by omega) (by omega) (by omega)
  obtain ⟨o2, a2, hrun2, hlen2, hout2, hval2⟩ :=
    overflowLoop_value a1 513 b.length o1 k (by omega) (by omega) (by omega)
  refine ⟨_, o1, a1, o2, a2, hrun1, hrun2, by omega, ?_, ?_⟩
  · intro i hi
    rw [hout2 i (by omega), hout1 i (by omega)]
  -- the bytes below and above the length of `b`
  have hlow : readLe a2.data 0 b.length = readLe a1.data 0 b.length :=
    hout2.readLe_eq (Or.inl (by omega))
  have hhigh : readLe a1.data b.length k = readLe a.data b.length k :=
    hout1.readLe_eq (Or.inr (by omega))
  have hmul : 256 ^ b.length * (readLe a2.data b.length k + 256 ^ k * o2.toNat) =
      256 ^ b.length * (readLe a.data b.length k + o1.toNat) := by rw [hval2, hhigh]
  simp only [Bool.toNat_false, Nat.add_zero] at hval1
  rw [BigNumber.value, BigNumber.value, hk, readLe_add, readLe_add, Nat.zero_add, hlow, Nat.pow_add]
  linarith

/-- `a += b`, where `a` may have no bytes. -/
theorem addition_exact (a b : BigNumber) (hpos : 0 < b.length) (hla : a.length < 256)
    (hlb : b.length < 256) :
    ∃ a', a.equalsAdditionByBigInt b = some a' ∧ Leaves a a' (a.value + b.value) ∧
      (Normal a → Normal b → Normal a') := by
  obtain ⟨a0, hrun0, hval0, hlen0, hout0⟩ := expandTo_value a hlb
  obtain ⟨x, o1, a1, o2, a2, hrun1, hrun2, hlen2, hout2, hsum⟩ :=
    addLoops_value a0 b (by omega) (by omega)
  rw [hval0] at hsum
  have hout : ∀ i, a0.length ≤ i → a2.data i = a.data i := by
    intro i hi
    rw [hout2 i (by omega), hout0 i hi]
  unfold BigNumber.equalsAdditionByBigInt
  simp only [Option.bind_eq_bind, hrun0, Option.bind_some, hrun1, hrun2]
  cases o2 with
  | false =>
    have hval : a2.value = a.value + b.value := by
      rw [BigNumber.value, hlen2, ← hsum]
      simp
    refine ⟨a2, by simp, ⟨hval, by omega, fun i hi => hout i (by omega)⟩, ?_⟩
    intro ha hb
    rw [normal_iff] at ha hb ⊢
    rw [hval, hlen2, hlen0]
    intro hlen
    rcases Nat.le_total a.length b.length with h | h
    · rw [Nat.max_eq_right h] at hlen ⊢
      have htop := hb hlen
      omega
    · rw [Nat.max_eq_left h] at hlen ⊢
      have htop := ha hlen
      omega
  | true =>
    rw [Bool.toNat_true, Nat.mul_one] at hsum
    rw [if_pos rfl, if_pos (by rw [MAX_BIG_NUMBER]; omega)]
    refine ⟨_, rfl, leaves_lengthened ?_ (fun i hi => hout i (by omega)), ?_⟩
    · rw [← hsum, BigNumber.value, hlen2]
      simp
    · intro _ _
      exact normal_lengthened a2 (by simp)

/-- `a += b` on two numbers without needless zero bytes. -/
theorem addition_canonical {a b : BigNumber} {m n : Nat} (ha : Canonical a m)
    (hb : Canonical b n) (hn : 0 < n) (hla : a.length < 256) (hlb : b.length < 256) :
    ∃ a', a.equalsAdditionByBigInt b = some a' ∧ Canonical a' (m + n) := by
  obtain ⟨a', hrun, hleaves, hnormal⟩ := addition_exact a b (hb.length_pos hn) hla hlb
  refine ⟨a', hrun, (hnormal ha.normal hb.normal).canonical ?_ (by omega)⟩
  rw [hleaves.value, ha.value, hb.value]

/-! ## Multiplication and powers -/

/-- The 16 bits of a product and a carry, and their two bytes. -/
theorem product_byte (a b : UInt8) {carry : UInt16} (hcarry : carry.toNat < 256) :
    (carry + a.toUInt16 * b.toUInt16).toNat = carry.toNat + a.toNat * b.toNat ∧
      ((carry + a.toUInt16 * b.toUInt16) >>> 8).toNat =
        (carry + a.toUInt16 * b.toUInt16).toNat / 256 ∧
      (carry + a.toUInt16 * b.toUInt16).toUInt8.toNat =
        (carry + a.toUInt16 * b.toUInt16).toNat % 256 := by
  have ha := a.toNat_lt
  have hb := b.toNat_lt
  have hprod : a.toNat * b.toNat ≤ 255 * 255 := Nat.mul_le_mul (by omega) (by omega)
  refine ⟨?_, ?_, by simp⟩
  · simp only [UInt16.toNat_add, UInt16.toNat_mul, UInt8.toNat_toUInt16]
    omega
  · simp [UInt16.toNat_shiftRight, Nat.shiftRight_eq_div_pow]

/-- The loop multiplies the bytes from `x` on. -/
theorem multiplicationLoop_value (b : UInt8) (a : BigNumber) (fuel x : Nat) (carry : UInt16)
    (k : Nat) (hk : x + k = a.length) (hlen : a.length < 256) (hfuel : k < fuel)
    (hcarry : carry.toNat < 256) :
    ∃ carry' a', BigNumber.multiplicationLoop b fuel (UInt8.ofNat x) carry a
        = some (UInt8.ofNat a.length, carry', a') ∧
      carry'.toNat < 256 ∧ a'.length = a.length ∧ AgreeOutside x k a.data a'.data ∧
      readLe a'.data x k + 256 ^ k * carry'.toNat =
        readLe a.data x k * b.toNat + carry.toNat := by
  induction k generalizing fuel x carry a with
  | zero =>
    obtain ⟨fuel, rfl⟩ : ∃ f, fuel = f + 1 := ⟨fuel - 1, by omega⟩
    have hx : (UInt8.ofNat x).toNat = x := by simp; omega
    refine ⟨carry, a, ?_, hcarry, rfl, AgreeOutside.refl x 0 a.data, by simp [readLe]⟩
    unfold BigNumber.multiplicationLoop
    rw [if_neg (by omega)]
    simp [← hk]
  | succ k ih =>
    obtain ⟨fuel, rfl⟩ : ∃ f, fuel = f + 1 := ⟨fuel - 1, by omega⟩
    obtain ⟨hnext, hx⟩ := counter_succ (k := x) (by omega)
    unfold BigNumber.multiplicationLoop
    rw [if_pos (by omega)]
    simp only [hx, hnext]
    obtain ⟨hsum, hhigh, hlow⟩ := product_byte (a.data x) b hcarry
    set sum := carry + (a.data x).toUInt16 * b.toUInt16 with hsumdef
    have ha := (a.data x).toNat_lt
    have hb := b.toNat_lt
    have hprod : (a.data x).toNat * b.toNat ≤ 255 * 255 := Nat.mul_le_mul (by omega) (by omega)
    obtain ⟨carry', a', hrun, hcarry', hlen', hout, hval⟩ :=
      ih (a.put x sum.toUInt8) fuel (x + 1) (sum >>> 8) (by simp; omega) (by simpa using hlen)
        (by omega) (by omega)
    refine ⟨carry', a', by simpa using hrun, hcarry', by rw [hlen', put_length], hout.store, ?_⟩
    rw [put_data, readLe_update (by omega)] at hval
    rw [readLe_succ, readLe_succ, hout.stored, Nat.pow_succ', hlow]
    have hdiv := Nat.mod_add_div sum.toNat 256
    rw [← hhigh, hsum] at hdiv
    rw [hsum]
    linarith

theorem value_zero {a : BigNumber} (h1 : a.length = 1) (h0 : a.data 0 = 0) : a.value = 0 := by
  simp [BigNumber.value, readLe, window, h1, h0]

/-- `a *= b`. -/
theorem multiplication_exact (a : BigNumber) (b : UInt8) (hpos : 0 < a.length)
    (hlen : a.length < 256) :
    ∃ a', a.equalsMultiplicationByUInt8 b = some a' ∧ Leaves a a' (a.value * b.toNat) ∧
      (Normal a → Normal a') := by
  unfold BigNumber.equalsMultiplicationByUInt8
  by_cases hb0 : b = 0
  · rw [if_pos hb0]
    refine ⟨_, rfl, ⟨?_, by simp, ?_⟩, by simp [Normal]⟩
    · simp [BigNumber.value, readLe, window, hb0]
    · intro i hi
      simp only at hi
      rw [put_data, Function.update_of_ne (by omega)]
  rw [if_neg hb0]
  by_cases hzero : a.length = 1 ∧ a.data 0 = 0
  · rw [if_pos hzero]
    refine ⟨a, rfl, ⟨?_, hpos, fun i _ => rfl⟩, id⟩
    rw [value_zero hzero.1 hzero.2, Nat.zero_mul]
  rw [if_neg hzero]
  have hb : 0 < b.toNat := Nat.pos_of_ne_zero (fun h => hb0 (UInt8.toNat_inj.mp h))
  obtain ⟨carry, a', hrun, hcarry, hlen', hout, hval⟩ :=
    multiplicationLoop_value b a 257 0 0 a.length (by omega) (by omega) (by omega) (by simp)
  have hsum : readLe a'.data 0 a.length + 256 ^ a.length * carry.toNat = a.value * b.toNat := by
    rw [hval]
    simp [BigNumber.value]
  simp only [Option.bind_eq_bind]
  rw [show (0 : UInt8) = UInt8.ofNat 0 from rfl, hrun, Option.bind_some]
  simp only
  by_cases hc : carry = 0
  · have hval' : a'.value = a.value * b.toNat := by
      rw [BigNumber.value, hlen', ← hsum, hc]
      simp
    rw [if_neg (by simp [hc])]
    refine ⟨a', rfl, ⟨hval', by omega, fun i hi => hout i (by omega)⟩, ?_⟩
    intro ha
    rw [normal_iff] at ha ⊢
    rw [hval', hlen']
    intro hlong
    calc 256 ^ (a.length - 1) ≤ a.value := ha hlong
      _ ≤ a.value * b.toNat := Nat.le_mul_of_pos_right _ hb
  · rw [if_pos hc]
    have hx : (UInt8.ofNat a.length).toNat = a'.length := by simp; omega
    have hbyte : carry.toUInt8.toNat = carry.toNat := by
      simp
      omega
    have htop : carry.toUInt8 ≠ 0 := by
      intro h0
      rw [h0] at hbyte
      exact hc (UInt16.toNat_inj.mp hbyte.symm)
    rw [hx]
    refine ⟨_, rfl, leaves_lengthened ?_ (fun i hi => hout i (by omega)), ?_⟩
    · rw [BigNumber.value, hbyte, hlen', hsum]
    · intro _
      exact normal_lengthened a' htop

/-- `a *= b` for a factor that is not 0. -/
theorem multiplication_canonical {a : BigNumber} {n : Nat} {b : UInt8} (ha : Canonical a n)
    (hn : 0 < n) (hb : 0 < b.toNat) (hlen : a.length < 255) :
    ∃ a', a.equalsMultiplicationByUInt8 b = some a' ∧ Canonical a' (n * b.toNat) := by
  obtain ⟨a', hrun, hleaves, hnormal⟩ :=
    multiplication_exact a b (ha.length_pos hn) (by omega)
  refine ⟨a', hrun, (hnormal ha.normal).canonical ?_ (Nat.mul_pos hn hb)⟩
  rw [hleaves.value, ha.value]

theorem powLoop_canonical {bi : BigNumber} {n : Nat} {a : UInt8} (b : Nat) (h : Canonical bi n)
    (hn : 0 < n) (ha : 0 < a.toNat) (hlt : n * a.toNat ^ b < 256 ^ 254) :
    ∃ bi', BigNumber.powLoop a b bi = some bi' ∧ Canonical bi' (n * a.toNat ^ b) := by
  induction b generalizing bi n with
  | zero => exact ⟨bi, rfl, by simpa using h⟩
  | succ b ih =>
    have hpow : 0 < a.toNat ^ b := Nat.pow_pos ha
    have hle : n ≤ n * a.toNat ^ (b + 1) := Nat.le_mul_of_pos_right n (Nat.pow_pos ha)
    obtain ⟨bi1, hrun, h1⟩ :=
      multiplication_canonical h hn ha (by have := h.length_le (k := 254) (by omega); omega)
    rw [Nat.pow_succ', ← Nat.mul_assoc] at hlt ⊢
    obtain ⟨bi', hrun', h'⟩ := ih h1 (Nat.mul_pos hn ha) hlt
    refine ⟨bi', ?_, h'⟩
    simp [BigNumber.powLoop, hrun, hrun']

/-- `a ^ b`; what the number held before does not matter. -/
theorem fromPow_canonical (bi : BigNumber) {a b : UInt8} (ha : 0 < a.toNat)
    (hlt : a.toNat ^ b.toNat < 256 ^ 254) :
    ∃ bi', bi.fromPowUInt8 a b = some bi' ∧ Canonical bi' (a.toNat ^ b.toNat) := by
  have hone : Canonical { bi.put 0 1 with length := 1 } 1 := by
    refine ⟨?_, by simp⟩
    simp [BigNumber.value, readLe, window]
  have h := powLoop_canonical b.toNat hone (by omega) ha (by simpa using hlt)
  simpa [BigNumber.fromPowUInt8] using h

/-! ## Subtraction -/

/-- The borrow loop and the store behind it take `carry` from the bytes from `x` on. -/
theorem subtractionLoop_value (a : BigNumber) (fuel x : Nat) (carry : UInt8) (k : Nat)
    (hk : x + k ≤ 255) (hfuel : k < fuel) (hle : carry.toNat ≤ readLe a.data x k) :
    ∃ x' carry' a', BigNumber.subtractionLoop fuel (UInt8.ofNat x) carry a
        = some (x', carry', a') ∧ a'.length = a.length ∧
      AgreeOutside x k a.data (a'.put x'.toNat (a'.data x'.toNat - carry')).data ∧
      readLe (a'.put x'.toNat (a'.data x'.toNat - carry')).data x k + carry.toNat =
        readLe a.data x k := by
  induction k generalizing fuel x carry a with
  | zero =>
    obtain ⟨fuel, rfl⟩ : ∃ f, fuel = f + 1 := ⟨fuel - 1, by omega⟩
    have h0 : carry = 0 := by
      apply UInt8.toNat_inj.mp
      simpa [readLe] using hle
    subst h0
    have hsame : Function.update a.data x (a.data x) = a.data := Function.update_eq_self x a.data
    have hx : (UInt8.ofNat x).toNat = x := by simp; omega
    refine ⟨UInt8.ofNat x, 0, a, ?_, rfl, ?_, by simp [readLe]⟩
    · simp [BigNumber.subtractionLoop]
    · rw [hx, put_data, UInt8.sub_zero, hsame]
      exact AgreeOutside.refl x 0 a.data
  | succ k ih =>
    obtain ⟨fuel, rfl⟩ : ∃ f, fuel = f + 1 := ⟨fuel - 1, by omega⟩
    obtain ⟨hnext, hx⟩ := counter_succ (k := x) (by omega)
    have ha := (a.data x).toNat_lt
    have hc := carry.toNat_lt
    rw [readLe_succ] at hle
    unfold BigNumber.subtractionLoop
    rw [hx]
    by_cases hlt : a.data x < carry
    · have hlt' : (a.data x).toNat < carry.toNat := hlt
      rw [if_pos hlt, hnext]
      set v := 255 - carry + a.data x + 1 with hv
      have hbyte : v.toNat + carry.toNat = (a.data x).toNat + 256 := by
        simp only [hv, UInt8.toNat_add, UInt8.toNat_sub]
        simp
        omega
      obtain ⟨x', carry', a', hrun, hlen', hout, hval⟩ :=
        ih (a.put x v) fuel (x + 1) 1 (by omega) (by omega)
          (by rw [put_data, readLe_update (by omega)]; simp; omega)
      refine ⟨x', carry', a', hrun, by rw [hlen', put_length], hout.store, ?_⟩
      rw [put_data a x v, readLe_update (by omega)] at hval
      rw [readLe_succ, readLe_succ, hout.stored]
      simp only [UInt8.toNat_one] at hval
      omega
    · have hge : carry.toNat ≤ (a.data x).toNat := UInt8.not_lt.mp hlt
      rw [if_neg hlt]
      have hout : AgreeOutside (x + 1) k (Function.update a.data x (a.data x - carry))
          (Function.update a.data x (a.data x - carry)) := AgreeOutside.refl _ _ _
      have hbyte : (a.data x - carry).toNat + carry.toNat = (a.data x).toNat := by
        rw [UInt8.toNat_sub_of_le _ _ hge]
        omega
      refine ⟨UInt8.ofNat x, carry, a, rfl, rfl, ?_, ?_⟩
      · rw [hx, put_data]
        exact hout.store
      · rw [hx, put_data, readLe_succ, readLe_succ, Function.update_self, readLe_update (by omega)]
        omega

theorem normaliseLength_spec (data : Memory) (n : Nat) :
    let m := BigNumber.normaliseLength data n
    m ≤ n ∧ readLe data 0 m = readLe data 0 n ∧ (1 < m → data (m - 1) ≠ 0) := by
  induction n with
  | zero => exact ⟨le_refl 0, rfl, by simp [BigNumber.normaliseLength]⟩
  | succ n ih =>
    obtain ⟨hle, hval, htop⟩ := ih
    unfold BigNumber.normaliseLength
    by_cases h : 0 < n ∧ data n = 0
    · rw [if_pos h]
      refine ⟨by omega, ?_, htop⟩
      rw [hval, readLe_snoc, Nat.zero_add, h.2]
      simp
    · rw [if_neg h]
      refine ⟨le_refl _, rfl, fun h1 h0 => h ⟨by omega, h0⟩⟩

theorem normaliseLength_pos (data : Memory) {n : Nat} (h : 0 < n) :
    0 < BigNumber.normaliseLength data n := by
  induction n with
  | zero => omega
  | succ n ih =>
    unfold BigNumber.normaliseLength
    split
    · rename_i hzero
      exact ih hzero.1
    · omega

theorem normalise_exact {a : BigNumber} (hlen : a.length ≤ 256) :
    ∃ a', a.normalise = some a' ∧ a'.value = a.value ∧ a'.data = a.data ∧
      (0 < a.length → 0 < a'.length) ∧ Normal a' := by
  obtain ⟨hle, hval, htop⟩ := normaliseLength_spec a.data a.length
  unfold BigNumber.normalise
  rw [if_pos (by rw [MAX_BIG_NUMBER]; exact hlen)]
  exact ⟨_, rfl, hval, rfl, normaliseLength_pos a.data, htop⟩

/-- `a -= b`, for any number that is not less than `b`. -/
theorem subtraction_exact (a : BigNumber) (b : UInt8) (hle : b.toNat ≤ a.value)
    (hpos : 0 < a.length) (hlen : a.length ≤ 255) :
    ∃ a', a.equalsSubtractionByUInt8 b = some a' ∧ Leaves a a' (a.value - b.toNat) ∧
      Normal a' := by
  obtain ⟨x, carry, a1, hrun, hlen1, hout, hval⟩ :=
    subtractionLoop_value a 258 0 b a.length (by omega) (by omega) hle
  obtain ⟨a2, ha2⟩ : ∃ a2, a2 = a1.put x.toNat (a1.data x.toNat - carry) := ⟨_, rfl⟩
  rw [← ha2] at hout hval
  have hlen2 : a2.length = a.length := by rw [ha2, put_length, hlen1]
  have hval2 : a2.value + b.toNat = a.value := by
    rw [BigNumber.value, hlen2, BigNumber.value]
    exact hval
  obtain ⟨a', hnorm, hval', hdata', hpos', hnormal⟩ :=
    normalise_exact (a := a2) (by omega)
  refine ⟨a', ?_, ⟨by omega, hpos' (by omega), ?_⟩, hnormal⟩
  · unfold BigNumber.equalsSubtractionByUInt8
    simp only [Option.bind_eq_bind]
    rw [show (0 : UInt8) = UInt8.ofNat 0 from rfl, hrun, Option.bind_some, ← ha2]
    exact hnorm
  · intro i hi
    rw [hdata']
    rcases Nat.lt_or_ge i a.length with hin | hbehind
    · -- neither number reaches the byte `i`
      have hlt := readLe_lt a'.data 0 a'.length
      rw [← BigNumber.value, hval'] at hlt
      have hpow : 256 ^ 1 ≤ 256 ^ a'.length := Nat.pow_le_pow_right (by omega) (hpos' (by omega))
      have hnext : 256 ^ (a'.length + 1) ≤ 256 ^ i := Nat.pow_le_pow_right (by omega) (by omega)
      have hb := b.toNat_lt
      rw [Nat.pow_succ] at hnext
      rw [data_zero_above (a := a2) (show a2.value < 256 ^ i by omega) (le_refl i) (by omega),
        data_zero_above (show a.value < 256 ^ i by omega) (le_refl i) hin]
    · exact hout i (by omega)

/-- `a -= b`, on any number of at most 255 bytes that is greater than `b`. -/
theorem subtraction_canonical {a : BigNumber} {b : UInt8} (hlt : b.toNat < a.value)
    (hlen : a.length ≤ 255) :
    ∃ a', a.equalsSubtractionByUInt8 b = some a' ∧ Canonical a' (a.value - b.toNat) := by
  have hpos : 0 < a.length := by
    by_contra h
    have h0 : a.length = 0 := by omega
    rw [BigNumber.value, h0] at hlt
    simp [readLe] at hlt
  obtain ⟨a', hrun, hleaves, hnormal⟩ := subtraction_exact a b hlt.le hpos hlen
  exact ⟨a', hrun, hnormal.canonical hleaves.value (by omega)⟩

/-! ## Division by 58 -/

theorem divisionLoop_eq (data : Memory) (n : Nat) (temp : UInt16) (ans : List UInt8)
    (h : temp.toNat < 58) :
    BigNumber.divisionLoop data n temp ans =
      leBytes n ((temp.toNat * 256 ^ n + readLe data 0 n) / 58) ++ ans := by
  induction n generalizing temp ans with
  | zero => simp [BigNumber.divisionLoop, leBytes]
  | succ n ih =>
    have hd := (data n).toNat_lt
    unfold BigNumber.divisionLoop
    simp only
    set t := temp <<< 8 ||| (data n).toUInt16 with ht
    have htval : t.toNat = temp.toNat * 256 + (data n).toNat := by
      have hor := Nat.shiftLeft_add_eq_or_of_lt (i := 8) hd temp.toNat
      simp only [ht, UInt16.toNat_or, UInt16.toNat_shiftLeft, UInt8.toNat_toUInt16]
      rw [Nat.mod_eq_of_lt (by rw [Nat.shiftLeft_eq]; simp; omega)]
      simp only [Nat.shiftLeft_eq] at hor ⊢
      simp at hor ⊢
      omega
    have hq : (t / 58).toUInt8.toNat = t.toNat / 58 := by
      simp
      omega
    have hr : (t - (t / 58).toUInt8.toUInt16 * 58).toNat = t.toNat % 58 := by
      have hmul : ((t / 58).toUInt8.toUInt16 * 58).toNat = t.toNat / 58 * 58 := by
        rw [UInt16.toNat_mul, UInt8.toNat_toUInt16, hq]
        simp
        omega
      rw [UInt16.toNat_sub_of_le _ _ (by rw [UInt16.le_iff_toNat_le, hmul]; omega), hmul]
      omega
    rw [ih _ _ (by omega), hr]
    -- the dividend is split at the byte `n`
    have hlow := readLe_lt data 0 n
    have hsplit : temp.toNat * 256 ^ (n + 1) + readLe data 0 (n + 1) =
        (t.toNat % 58 * 256 ^ n + readLe data 0 n) + 58 * (256 ^ n * (t.toNat / 58)) := by
      have hdiv := Nat.div_add_mod t.toNat 58
      rw [readLe_snoc, Nat.zero_add, Nat.pow_succ]
      calc temp.toNat * (256 ^ n * 256) + (readLe data 0 n + 256 ^ n * (data n).toNat)
          = 256 ^ n * (temp.toNat * 256 + (data n).toNat) + readLe data 0 n := by ring
        _ = 256 ^ n * (58 * (t.toNat / 58) + t.toNat % 58) + readLe data 0 n := by
            rw [hdiv, htval]
        _ = _ := by ring
    have hrest : (t.toNat % 58 * 256 ^ n + readLe data 0 n) / 58 < 256 ^ n := by
      rw [Nat.div_lt_iff_lt_mul (by omega)]
      have hmod : t.toNat % 58 * 256 ^ n ≤ 57 * 256 ^ n := Nat.mul_le_mul_right _ (by omega)
      omega
    rw [hsplit, Nat.add_mul_div_left _ _ (by omega), leBytes_snoc hrest (by omega)]
    have hbyte : UInt8.ofNat (t.toNat / 58) = (t / 58).toUInt8 := by
      rw [← hq, UInt8.ofNat_toNat]
    rw [hbyte]
    simp

/-- The quotient without the byte at its top, which is 0. -/
theorem division_shorter {a : BigNumber} (a' : BigNumber) {k : ℕ} (hk : a.length = k + 1)
    (hval : a.value < 58 → a.value = 0) (hzero : ¬ (a.length = 1 ∧ a.data 0 = 0))
    (hlen' : a'.length = k) (hval' : a'.value = a.value / 58) (hfit : a.value / 58 < 256 ^ k) :
    0 < a'.length ∧ (Normal a → Normal a') := by
  constructor
  · -- a number of one byte is at least 58
    by_contra hpos
    obtain rfl : k = 0 := by omega
    rw [Nat.pow_zero] at hfit
    have hv := hval (by omega)
    rw [BigNumber.value, hk] at hv
    exact hzero ⟨hk, UInt8.toNat_inj.mp (by simpa [readLe, window] using hv)⟩
  · intro ha
    rw [normal_iff] at ha ⊢
    rw [hk, Nat.add_sub_cancel] at ha
    rw [hlen', hval']
    intro hlong
    have htop := ha (by omega)
    obtain ⟨j, rfl⟩ : ∃ j, k = j + 1 := ⟨k - 1, by omega⟩
    rw [Nat.pow_succ] at htop
    rw [Nat.add_sub_cancel]
    omega

/-- `a /= 58`, for 0 or a number of at least 58. -/
theorem division_exact (a : BigNumber) (hpos : 0 < a.length) (hlen : a.length ≤ 256)
    (hval : a.value < 58 → a.value = 0) :
    ∃ a', a.equalsDivisionBy58 = some a' ∧ Leaves a a' (a.value / 58) ∧
      (Normal a → Normal a') := by
  unfold BigNumber.equalsDivisionBy58
  by_cases hzero : a.length = 1 ∧ a.data 0 = 0
  · rw [if_pos hzero]
    refine ⟨a, rfl, ⟨?_, hpos, fun i _ => rfl⟩, id⟩
    rw [value_zero hzero.1 hzero.2]
  have hans : BigNumber.divisionLoop a.data a.length 0 [] = leBytes a.length (a.value / 58) := by
    rw [divisionLoop_eq a.data a.length 0 [] (by simp)]
    simp [BigNumber.value]
  obtain ⟨k, hk⟩ : ∃ k, a.length = k + 1 := ⟨a.length - 1, by omega⟩
  rw [if_neg hzero, if_neg (by rw [MAX_BIG_NUMBER]; omega)]
  simp only [hans]
  rw [hk, Nat.add_sub_cancel]
  obtain ⟨q, hq⟩ : ∃ q, q = a.value / 58 := ⟨_, rfl⟩
  have hfits : q < 256 ^ (k + 1) := by
    have hlt := readLe_lt a.data 0 a.length
    rw [← BigNumber.value, hk] at hlt
    omega
  rw [← hq, leBytes_top hfits]
  have huntouched : ∀ length i, length < i →
      (if i < length then (leBytes (k + 1) q).getD i 0 else a.data i) = a.data i :=
    fun length i hi => if_neg (by omega)
  by_cases h0 : UInt8.ofNat (q / 256 ^ k) = 0
  · have hfit : q < 256 ^ k := by
      have hqlt : q / 256 ^ k < 256 := by
        rw [Nat.div_lt_iff_lt_mul (by positivity)]
        rwa [Nat.pow_succ'] at hfits
      have hbyte := congrArg UInt8.toNat h0
      rw [UInt8.toNat_ofNat', Nat.mod_eq_of_lt hqlt] at hbyte
      exact (Nat.div_eq_zero_iff_lt (by positivity)).mp hbyte
    have hvalue := readLe_copied a.data (Nat.le_succ k) hfit
    rw [if_pos h0]
    rw [hq] at hvalue hfit ⊢
    obtain ⟨hpos', hnormal⟩ := division_shorter ⟨_, k⟩ hk hval hzero rfl hvalue hfit
    exact ⟨_, rfl, ⟨hvalue, hpos', by rw [← hq]; exact huntouched k⟩, hnormal⟩
  · rw [if_neg h0]
    refine ⟨_, rfl, ⟨readLe_copied a.data (le_refl _) hfits, by simp, huntouched (k + 1)⟩, ?_⟩
    intro _ _
    simp only [Nat.add_sub_cancel, if_pos (Nat.lt_succ_self k), leBytes_top hfits]
    exact h0

/-- `a /= 58`, on a number of at least 58. -/
theorem division_canonical {a : BigNumber} {n : Nat} (ha : Canonical a n) (hn : 58 ≤ n)
    (hlen : a.length ≤ 256) :
    ∃ a', a.equalsDivisionBy58 = some a' ∧ Canonical a' (n / 58) := by
  obtain ⟨a', hrun, hleaves, hnormal⟩ :=
    division_exact a (ha.length_pos (by omega)) hlen (by rw [ha.value]; omega)
  refine ⟨a', hrun, (hnormal ha.normal).canonical ?_ (by omega)⟩
  rw [hleaves.value, ha.value]

/-! ## The digits that an encoder step takes off -/

theorem moduloLoop_value (data : Memory) (n : Nat) (result : UInt16) (h : result.toNat < 58) :
    (BigNumber.moduloLoop data n result).toNat =
      (result.toNat * 256 ^ n + readLe data 0 n) % 58 := by
  induction n generalizing result with
  | zero => simp [BigNumber.moduloLoop, readLe, Nat.mod_eq_of_lt h]
  | succ n ih =>
    have hd := (data n).toNat_lt
    unfold BigNumber.moduloLoop
    have hstep : ((result * (256 % 58) % 58 + (data n % 58).toUInt16) % 58).toNat =
        (result.toNat * 256 + (data n).toNat) % 58 := by
      have hwrap1 : result.toNat * 24 % 2 ^ 16 = result.toNat * 24 := by omega
      have hwrap2 : (result.toNat * 24 % 58 + (data n).toNat % 58) % 2 ^ 16 =
          result.toNat * 24 % 58 + (data n).toNat % 58 := by omega
      have h256 : ((256 : UInt16) % 58).toNat = 24 := rfl
      have h58 : (58 : UInt16).toNat = 58 := rfl
      have h58' : (58 : UInt8).toNat = 58 := rfl
      simp only [UInt16.toNat_mod, UInt16.toNat_add, UInt16.toNat_mul, UInt8.toNat_toUInt16,
        UInt8.toNat_mod, h256, h58, h58', hwrap1, hwrap2]
      omega
    rw [ih _ (by omega), hstep, readLe_snoc, Nat.zero_add, Nat.pow_succ]
    set t := result.toNat * 256 + (data n).toNat with ht
    calc (t % 58 * 256 ^ n + readLe data 0 n) % 58
        = (t * 256 ^ n + readLe data 0 n) % 58 := by
          rw [Nat.add_mod, Nat.mul_mod, Nat.mod_mod, ← Nat.mul_mod, ← Nat.add_mod]
      _ = _ := by
          rw [ht]
          ring_nf

theorem moduloWith58_value {a : BigNumber} (hpos : 0 < a.length) (hlen : a.length ≤ 256) :
    a.moduloWith58 = some (UInt8.ofNat (a.value % 58)) := by
  have hval := moduloLoop_value a.data a.length 0 (by simp)
  unfold BigNumber.moduloWith58
  rw [if_neg (by rw [MAX_BIG_NUMBER]; omega)]
  congr 1
  apply UInt8.toNat_inj.mp
  rw [UInt16.toNat_toUInt8, hval]
  simp [BigNumber.value]

/-- One turn of the encoder's loop, from any number of at least 58: zero
bytes at its top do not matter. -/
theorem encode_step {a : BigNumber} (hval : 58 ≤ a.value) (hlen : a.length ≤ 255) :
    ∃ a1 a2, a.moduloWith58 = some (UInt8.ofNat (a.value % 58)) ∧
      a.equalsSubtractionByUInt8 (UInt8.ofNat (a.value % 58)) = some a1 ∧
      a1.equalsDivisionBy58 = some a2 ∧ Canonical a2 (a.value / 58) := by
  have hpos : 0 < a.length := by
    by_contra h
    have h0 : a.length = 0 := by omega
    rw [BigNumber.value, h0] at hval
    simp [readLe] at hval
  have hmod : (UInt8.ofNat (a.value % 58)).toNat = a.value % 58 := by
    simp
    omega
  obtain ⟨a1, hsub, h1⟩ := subtraction_canonical (a := a) (b := UInt8.ofNat (a.value % 58))
    (by omega) hlen
  rw [hmod] at h1
  have hlen1 : a1.length ≤ a.length :=
    h1.length_le (Nat.lt_of_le_of_lt (Nat.sub_le _ _) (readLe_lt a.data 0 a.length))
  obtain ⟨a2, hdiv, h2⟩ := division_canonical h1 (by omega) (by omega)
  rw [show (a.value - a.value % 58) / 58 = a.value / 58 by omega] at h2
  exact ⟨a1, a2, moduloWith58_value hpos (by omega), hsub, hdiv, h2⟩

/-- The comparison with 58 is that of the values, once no zero byte is at the top. -/
theorem compareTo58_canonical {a : BigNumber} {n : Nat} (h : Canonical a n) (hn : 0 < n) :
    a.compareTo58 = .CB_COMPARE_LESS_THAN ↔ n < 58 := by
  have hpos := h.length_pos hn
  unfold BigNumber.compareTo58
  by_cases h1 : 1 < a.length
  · have htop := h.top hpos
    have hpow : 256 ^ 1 ≤ 256 ^ (a.length - 1) := Nat.pow_le_pow_right (by omega) (by omega)
    rw [if_pos h1]
    simp
    omega
  · have hone := canonical_one_byte h (by omega)
    rw [if_neg h1, ← hone]
    have hmore : 58 < a.data 0 ↔ 58 < (a.data 0).toNat := UInt8.lt_iff_toNat_lt
    have hless : a.data 0 < 58 ↔ (a.data 0).toNat < 58 := UInt8.lt_iff_toNat_lt
    split
    · rename_i h2
      simp
      have := hmore.mp h2
      omega
    · split
      · rename_i h2
        simpa using hless.mp h2
      · rename_i h2
        simpa using fun h3 => h2 (hless.mpr h3)

end bitcoinstats.base58
