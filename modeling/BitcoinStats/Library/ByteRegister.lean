-- Shift registers of 32 bits that take bytes: the bits of a byte at once, four
-- bytes at once, and the steps that a table of 256 words replaces.
import BitcoinStats.Library.BlockHash
import BitcoinStats.Library.ShiftRegister
import BitcoinStats.Library.Words

open byte_memory byte_words shift_register

namespace byte_register

variable (p : BitVec 32)

/-- The bits of a byte in the order in which they enter the register. -/
def byteBits (b : UInt8) : List Bool := (List.range 8).map (fun i => b.toBitVec.getLsbD i)

def bitsOf (bytes : List UInt8) : List Bool := bytes.flatMap byteBits

/-- The register after one byte more. -/
def feedByte (c : BitVec 32) (b : UInt8) : BitVec 32 := advance p 8 (c ^^^ b.toUInt32.toBitVec)

/-- The register after some bytes. -/
def feedBytes (c : BitVec 32) (bytes : List UInt8) : BitVec 32 := bytes.foldl (feedByte p) c

@[simp] theorem byteBits_length (b : UInt8) : (byteBits b).length = 8 := by simp [byteBits]

theorem feedBytes_append (c : BitVec 32) (xs ys : List UInt8) :
    feedBytes p c (xs ++ ys) = feedBytes p (feedBytes p c xs) ys := List.foldl_append

theorem toUInt32_bit (b : UInt8) {i : ℕ} (hi : i < 32) :
    b.toUInt32.toBitVec.getLsbD i = b.toBitVec.getLsbD i := by
  change (b.toBitVec.setWidth 32).getLsbD i = _
  simp [hi]

theorem load_byteBits (b : UInt8) : load (byteBits b) = b.toUInt32.toBitVec := by
  apply BitVec.eq_of_getLsbD_eq
  intro i hi
  rw [load_getLsbD, toUInt32_bit b hi, byteBits, List.getD_eq_getElem?_getD, List.getElem?_map]
  by_cases h8 : i < 8
  · simp [hi, h8]
  · rw [List.getElem?_eq_none (by simpa using h8), BitVec.getLsbD_of_ge _ i (by omega)]
    simp

theorem byteBits_injective : Function.Injective byteBits := by
  intro a b h
  have hword : a.toUInt32.toBitVec = b.toUInt32.toBitVec := by
    rw [← load_byteBits, ← load_byteBits, h]
  have hnat : a.toNat = b.toNat := by
    simpa using congrArg UInt32.toNat (UInt32.toBitVec_inj.mp hword)
  exact UInt8.toNat_inj.mp hnat

theorem bitsOf_injective {xs ys : List UInt8} (hlen : xs.length = ys.length)
    (h : bitsOf xs = bitsOf ys) : xs = ys :=
  block_hash.flatMap_injective byteBits_injective byteBits_length hlen h

/-- The bits of some bytes, one after the other. -/
theorem feedBits_bitsOf (c : BitVec 32) (bytes : List UInt8) :
    feedBits p c (bitsOf bytes) = feedBytes p c bytes := by
  induction bytes generalizing c with
  | nil => rfl
  | cons b bytes ih =>
    have hbyte : feedBits p c (byteBits b) = feedByte p c b := by
      rw [feedBits_eq p c _ (by simp), load_byteBits, byteBits_length]
      rfl
    rw [bitsOf, List.flatMap_cons, feedBits_append, hbyte]
    exact ih _

/-- Two byte strings of one length whose bits differ only in a window of 32 bits. -/
theorem feedBytes_burst (hp : p.getLsbD 31 = true) (c : BitVec 32) {bytes bytes' : List UInt8}
    {front back xs ys : List Bool} (hx : bitsOf bytes = front ++ xs ++ back)
    (hy : bitsOf bytes' = front ++ ys ++ back) (hlen : xs.length = ys.length)
    (hburst : xs.length ≤ 32) :
    feedBytes p c bytes = feedBytes p c bytes' ↔ bitsOf bytes = bitsOf bytes' := by
  rw [← feedBits_bitsOf, ← feedBits_bitsOf, hx, hy, feedBits_burst p hp c front hlen hburst]
  simp

/-- Four bytes at once. -/
theorem feedBytes_word (c : BitVec 32) {bytes : List UInt8} (h : bytes.length = 4) :
    feedBytes p c bytes = advance p 32 (c ^^^ (loadWord bytes).toBitVec) := by
  have hlen : (bitsOf bytes).length = 32 := by
    rw [bitsOf, List.length_flatMap]
    simp [h]
  have hload : (load (bitsOf bytes) : BitVec 32) = (loadWord bytes).toBitVec := by
    apply BitVec.eq_of_getLsbD_eq
    intro t ht
    rw [load_getLsbD, loadWord_bit h ht]
    obtain ⟨b0, b1, b2, b3, rfl⟩ := List.length_eq_four.mp h
    interval_cases t <;> rfl
  rw [← feedBits_bitsOf, feedBits_eq p c _ hlen.le, hlen, hload]

/-! ## Tables -/

/-- One step on numbers. -/
def shiftNat (q c : ℕ) : ℕ := if c % 2 = 1 then c / 2 ^^^ q else c / 2

theorem shift_toNat (c : BitVec 32) : (shift p c).toNat = shiftNat p.toNat c.toNat := by
  have hbit : c.getLsbD 0 = decide (c.toNat % 2 = 1) := by
    rw [BitVec.getLsbD, Nat.testBit_zero]
  rw [shift, shiftNat, hbit]
  by_cases h : c.toNat % 2 = 1
  · simp [h, Nat.shiftRight_eq_div_pow]
  · simp [h, Nat.shiftRight_eq_div_pow]

theorem advance_toNat (n : ℕ) (c : BitVec 32) :
    (advance p n c).toNat = (shiftNat p.toNat)^[n] c.toNat := by
  induction n generalizing c with
  | zero => rfl
  | succ n ih => rw [advance_succ, ih, shift_toNat, Function.iterate_succ_apply]

theorem shiftNat_xor (q a b : ℕ) : shiftNat q (a ^^^ b) = shiftNat q a ^^^ shiftNat q b := by
  have hlow : (a ^^^ b) % 2 = (a % 2 + b % 2) % 2 := by
    have hxor := Nat.xor_mod_two_pow (n := 1) (a := a) (b := b)
    rw [pow_one] at hxor
    rw [hxor]
    rcases Nat.mod_two_eq_zero_or_one a with ha | ha <;>
      rcases Nat.mod_two_eq_zero_or_one b with hb | hb <;> simp [ha, hb]
  have hhalf : (a ^^^ b) / 2 = a / 2 ^^^ b / 2 := by
    have hshift := Nat.shiftRight_xor_distrib (i := 1) (a := a) (b := b)
    simpa [Nat.shiftRight_eq_div_pow] using hshift
  simp only [shiftNat, hlow, hhalf]
  rcases Nat.mod_two_eq_zero_or_one a with ha | ha <;>
    rcases Nat.mod_two_eq_zero_or_one b with hb | hb <;> simp only [ha, hb]
  · simp
  · simp [Nat.xor_assoc]
  · simp [Nat.xor_assoc, Nat.xor_comm q]
  · have hcancel : a / 2 ^^^ q ^^^ (b / 2 ^^^ q) = a / 2 ^^^ b / 2 := by
      rw [Nat.xor_assoc, Nat.xor_comm (b / 2) q, ← Nat.xor_assoc q q, Nat.xor_self, Nat.zero_xor]
    simp [hcancel]

theorem iterate_shiftNat_xor (q n a b : ℕ) :
    (shiftNat q)^[n] (a ^^^ b) = (shiftNat q)^[n] a ^^^ (shiftNat q)^[n] b := by
  induction n generalizing a b with
  | zero => rfl
  | succ n ih => rw [Function.iterate_succ_apply, shiftNat_xor, ih]; rfl

/-- The values of all numbers below `2 ^ b`, from those of the powers of two. -/
def spanned (q n s : ℕ) : ℕ → List ℕ
  | 0 => [0]
  | b + 1 =>
    spanned q n s b ++ (spanned q n s b).map (fun c => c ^^^ (shiftNat q)^[n] (2 ^ b * 2 ^ s))

theorem two_pow_add_xor {b i : ℕ} (h : i < 2 ^ b) (s : ℕ) :
    (2 ^ b + i) * 2 ^ s = i * 2 ^ s ^^^ 2 ^ b * 2 ^ s := by
  have hsum : 2 ^ b + i = i ^^^ 2 ^ b := by
    apply Nat.eq_of_testBit_eq
    intro j
    rw [Nat.testBit_xor, Nat.testBit_two_pow]
    rcases Nat.lt_trichotomy j b with hj | rfl | hj
    · rw [Nat.testBit_two_pow_add_gt hj]
      simp [show b ≠ j by omega]
    · rw [Nat.testBit_two_pow_add_eq, Nat.testBit_lt_two_pow h]
      simp
    · have hlt : 2 ^ b + i < 2 ^ j := by
        have hpow : 2 ^ (b + 1) ≤ 2 ^ j := Nat.pow_le_pow_right (by decide) hj
        rw [Nat.pow_succ] at hpow
        omega
      rw [Nat.testBit_lt_two_pow hlt, Nat.testBit_lt_two_pow (by omega)]
      simp [show b ≠ j by omega]
  rw [hsum, ← Nat.shiftLeft_eq, ← Nat.shiftLeft_eq, ← Nat.shiftLeft_eq, Nat.shiftLeft_xor_distrib]

theorem spanned_eq (q n s b : ℕ) :
    spanned q n s b = (List.range (2 ^ b)).map (fun i => (shiftNat q)^[n] (i * 2 ^ s)) := by
  induction b with
  | zero =>
    have hzero : (shiftNat q)^[n] 0 = 0 := Function.iterate_fixed rfl n
    simp [spanned, hzero]
  | succ b ih =>
    rw [spanned, ih, Nat.pow_succ, Nat.mul_two, List.range_add, List.map_append, List.map_map,
      List.map_map]
    congr 1
    apply List.map_congr_left
    intro i hi
    rw [List.mem_range] at hi
    rw [Function.comp_apply, Function.comp_apply, two_pow_add_xor hi, iterate_shiftNat_xor]

/-- The table of `n` steps for a byte that stands `s` bits up in the register. -/
def IsTable (n s : ℕ) (table : List UInt32) : Prop :=
  table.map UInt32.toNat = spanned p.toNat n s 8

instance (n s : ℕ) (table : List UInt32) : Decidable (IsTable p n s table) :=
  inferInstanceAs (Decidable (_ = _))

variable {p} {n s : ℕ} {table : List UInt32}

/-- An entry of a table is the register after its steps. -/
theorem IsTable.getD (h : IsTable p n s table) (hs : s ≤ 24) {i : ℕ} (hi : i < 256) :
    (table.getD i 0).toBitVec = advance p n (BitVec.ofNat 32 i <<< s) := by
  rw [IsTable, spanned_eq] at h
  have hlen : table.length = 256 := by
    have := congrArg List.length h
    simpa using this
  have hentry := congrArg (fun l : List ℕ => l[i]?) h
  simp only [List.getElem?_map, List.getElem?_range (show i < 2 ^ 8 from hi), List.getElem?_eq_getElem (by omega : i < table.length),
    Option.map_some, Option.some_inj] at hentry
  have hpow : 2 ^ s ≤ 2 ^ 24 := Nat.pow_le_pow_right (by decide) hs
  have hbound : i * 2 ^ s < 2 ^ 32 := by
    have := Nat.mul_le_mul (Nat.le_of_lt_succ hi : i ≤ 255) hpow
    omega
  apply BitVec.eq_of_toNat_eq
  rw [List.getD_eq_getElem?_getD, List.getElem?_eq_getElem (by omega), Option.getD_some,
    UInt32.toNat_toBitVec, hentry, advance_toNat]
  congr 1
  rw [BitVec.toNat_shiftLeft, BitVec.toNat_ofNat, Nat.mod_eq_of_lt (by omega : i < 2 ^ 32),
    Nat.shiftLeft_eq, Nat.mod_eq_of_lt hbound]

theorem and_255 (x : UInt32) : (x &&& 0xff).toNat = x.toNat % 256 := by
  rw [UInt32.toNat_and]
  exact Nat.and_two_pow_sub_one_eq_mod x.toNat 8

/-- Byte `k` of a register, at its place. -/
def bytePart (c : BitVec 32) (k : ℕ) : BitVec 32 :=
  BitVec.ofNat 32 (c.toNat / 2 ^ (8 * k) % 256) <<< (8 * k)

theorem bytePart_bit (c : BitVec 32) (k : ℕ) {i : ℕ} (hi : i < 32) :
    (bytePart c k).getLsbD i = (decide (i / 8 = k) && c.getLsbD i) := by
  have hbyte : ∀ j, (BitVec.ofNat 32 (c.toNat / 2 ^ (8 * k) % 256)).getLsbD j =
      (decide (j < 32) && (decide (j < 8) && c.getLsbD (8 * k + j))) := by
    intro j
    rw [BitVec.getLsbD_ofNat, show 256 = 2 ^ 8 by rfl, Nat.testBit_mod_two_pow,
      ← Nat.shiftRight_eq_div_pow, Nat.testBit_shiftRight]
    rfl
  rw [bytePart, BitVec.getLsbD_shiftLeft, hbyte]
  by_cases hk : i / 8 = k
  · subst hk
    rw [show 8 * (i / 8) + (i - 8 * (i / 8)) = i by omega]
    simp only [show i - 8 * (i / 8) < 8 by omega, show i - 8 * (i / 8) < 32 by omega, hi,
      show ¬ i < 8 * (i / 8) by omega, decide_true, decide_false, Bool.not_false, Bool.true_and]
  · by_cases hlow : i < 8 * k
    · simp [hk, hlow]
    · simp [hk, show ¬ i - 8 * k < 8 by omega]

theorem bytePart_zero (c : BitVec 32) : bytePart c 0 = c ^^^ ((c >>> 8) <<< 8) := by
  apply BitVec.eq_of_getLsbD_eq
  intro i hi
  rw [bytePart_bit c 0 hi, BitVec.getLsbD_xor, BitVec.getLsbD_shiftLeft, BitVec.getLsbD_ushiftRight]
  by_cases h8 : i < 8
  · simp [h8, show i / 8 = 0 by omega]
  · simp [h8, hi, show i / 8 ≠ 0 by omega, show 8 + (i - 8) = i by omega]

theorem bytePart_split (c : BitVec 32) :
    c = bytePart c 0 ^^^ bytePart c 1 ^^^ bytePart c 2 ^^^ bytePart c 3 := by
  apply BitVec.eq_of_getLsbD_eq
  intro i hi
  simp only [BitVec.getLsbD_xor, bytePart_bit c _ hi]
  have hk : i / 8 < 4 := by omega
  generalize i / 8 = k at hk
  interval_cases k <;> simp

/-- An entry for byte `k` of a register. -/
theorem IsTable.getD_bytePart {k : ℕ} (h : IsTable p n (8 * k) table) (hk : k < 4) (c : BitVec 32) :
    (table.getD (c.toNat / 2 ^ (8 * k) % 256) 0).toBitVec = advance p n (bytePart c k) :=
  h.getD (by omega) (Nat.mod_lt _ (by decide))

/-- A step of eight bits by a table. -/
theorem IsTable.step (h : IsTable p 8 0 table) (x : UInt32) :
    (table.getD (x &&& 0xff).toNat 0 ^^^ (x >>> 8)).toBitVec = advance p 8 x.toBitVec := by
  have hentry := h.getD_bytePart (k := 0) (by decide) x.toBitVec
  rw [Nat.mul_zero, Nat.pow_zero, Nat.div_one, bytePart_zero] at hentry
  rw [UInt32.toBitVec_xor, and_255, advance_split p 8 x.toBitVec, ← hentry]
  rfl

end byte_register
