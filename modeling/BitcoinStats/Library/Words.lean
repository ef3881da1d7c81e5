-- Words of 32 bits and their bytes: loads and stores in both byte orders, and
-- the bits of a loaded word.
import BitcoinStats.Library.Bytes

open byte_memory

namespace byte_words

/-- The number that a byte string spells, highest byte first. -/
def beVal (bytes : List UInt8) : Nat := leVal bytes.reverse

/-- The `k` lowest bytes of `n`, highest byte first. -/
def beBytes (k n : Nat) : List UInt8 := (leBytes k n).reverse

/-- The word that a little-endian processor loads from four bytes. -/
def loadWord (bytes : List UInt8) : UInt32 := UInt32.ofNat (leVal bytes)

/-- The 16 words at the start of 64 bytes. -/
def loadWords (bytes : List UInt8) : List UInt32 :=
  (List.range 16).map (fun i => loadWord ((bytes.drop (4 * i)).take 4))

/-- The bytes that a little-endian processor stores for a word. -/
def storeWord (x : UInt32) : List UInt8 := leBytes 4 x.toNat

@[simp] theorem beBytes_length (k n : Nat) : (beBytes k n).length = k := by simp [beBytes]

theorem leBytes_mod (k n : Nat) : leBytes k (n % 256 ^ k) = leBytes k n := by
  have h := leBytes_leVal (leBytes k n)
  rwa [leBytes_length, leVal_leBytes] at h

theorem leBytes_add (j k m n : Nat) (h : m < 256 ^ j) :
    leBytes (j + k) (m + 256 ^ j * n) = leBytes j m ++ leBytes k n := by
  induction j generalizing m with
  | zero =>
    have hm : m = 0 := by simpa using h
    simp [hm, leBytes]
  | succ j ih =>
    have hdiv : (m + 256 ^ (j + 1) * n) / 256 = m / 256 + 256 ^ j * n := by
      rw [Nat.pow_succ', Nat.mul_assoc, Nat.add_mul_div_left _ _ (by decide)]
    have hmod : (m + 256 ^ (j + 1) * n) % 256 = m % 256 := by
      rw [Nat.pow_succ', Nat.mul_assoc, Nat.add_mul_mod_self_left]
    rw [show j + 1 + k = (j + k) + 1 by omega, leBytes, leBytes, hdiv, hmod,
      ih _ (by rw [Nat.pow_succ] at h; omega)]
    rfl

theorem leBytes_injective {k m n : Nat} (hm : m < 256 ^ k) (hn : n < 256 ^ k)
    (h : leBytes k m = leBytes k n) : m = n := by
  rw [← leVal_leBytes_of_lt hm, ← leVal_leBytes_of_lt hn, h]

theorem beBytes_injective {k m n : Nat} (hm : m < 256 ^ k) (hn : n < 256 ^ k)
    (h : beBytes k m = beBytes k n) : m = n :=
  leBytes_injective hm hn (List.reverse_injective h)

theorem storeWord_loadWord {bytes : List UInt8} (h : bytes.length = 4) :
    storeWord (loadWord bytes) = bytes := by
  have hlt := leVal_lt bytes
  rw [h] at hlt
  rw [storeWord, loadWord, UInt32.toNat_ofNat', Nat.mod_eq_of_lt (by simpa using hlt), ← h,
    leBytes_leVal]

theorem loadWord_storeWord (x : UInt32) : loadWord (storeWord x) = x := by
  have hlt := x.toNat_lt
  rw [storeWord, loadWord, leVal_leBytes_of_lt (by simpa using hlt)]
  exact UInt32.ofNat_toNat

theorem loadWord_bits (b0 b1 b2 b3 : UInt8) :
    (loadWord [b0, b1, b2, b3]).toBitVec =
      b3.toBitVec ++ b2.toBitVec ++ b1.toBitVec ++ b0.toBitVec := by
  have h0 := b0.toNat_lt
  have h1 := b1.toNat_lt
  have h2 := b2.toNat_lt
  apply BitVec.eq_of_toNat_eq
  simp only [loadWord, leVal_cons, leVal_nil, BitVec.toNat_append, UInt32.toNat_toBitVec,
    UInt8.toNat_toBitVec, UInt32.toNat_ofNat']
  rw [← Nat.shiftLeft_add_eq_or_of_lt h0, ← Nat.shiftLeft_add_eq_or_of_lt h1,
    ← Nat.shiftLeft_add_eq_or_of_lt h2]
  simp only [Nat.shiftLeft_eq]
  have h3 := b3.toNat_lt
  omega

/-- Bit `t` of a loaded word lies in byte `t / 8`. -/
theorem loadWord_bit {bytes : List UInt8} (h : bytes.length = 4) {t : Nat} (ht : t < 32) :
    (loadWord bytes).toBitVec.getLsbD t = (bytes.getD (t / 8) 0).toBitVec.getLsbD (t % 8) := by
  obtain ⟨b0, b1, b2, b3, rfl⟩ := List.length_eq_four.mp h
  rw [loadWord_bits]
  simp only [BitVec.getLsbD_append]
  interval_cases t <;> rfl

theorem shifted_bit (b : UInt8) {j t : Nat} (hj : j < 4) (ht : t < 32) :
    (b.toUInt32 <<< UInt32.ofNat (8 * j)).toBitVec.getLsbD t =
      (decide (t / 8 = j) && b.toBitVec.getLsbD (t % 8)) := by
  interval_cases j <;> interval_cases t <;> simp
/-- A byte goes into an empty place of a word by an exclusive or. -/
theorem loadWord_xor {bytes : List UInt8} (h : bytes.length = 4) {j : Nat} (hj : j < 4)
    (hzero : bytes.getD j 0 = 0) (b : UInt8) :
    loadWord bytes ^^^ (b.toUInt32 <<< UInt32.ofNat (8 * j)) = loadWord (bytes.set j b) := by
  apply UInt32.toBitVec_inj.mp
  apply BitVec.eq_of_getLsbD_eq
  intro t ht
  rw [UInt32.toBitVec_xor, BitVec.getLsbD_xor, loadWord_bit h ht, shifted_bit b hj ht,
    loadWord_bit (by rw [List.length_set, h]) ht, List.getD_eq_getElem?_getD, List.getD_eq_getElem?_getD,
    List.getElem?_set]
  by_cases hbyte : t / 8 = j
  · subst hbyte
    have hlt : t / 8 < bytes.length := by rwa [h]
    have hnone : bytes[t / 8] = 0 := by
      rwa [List.getD_eq_getElem?_getD, List.getElem?_eq_getElem hlt] at hzero
    simp [hnone, h, hj]
  · simp [hbyte, Ne.symm hbyte]

theorem loadWords_take (data : List UInt8) : loadWords (data.take 64) = loadWords data := by
  apply List.map_congr_left
  intro i hi
  rw [List.mem_range] at hi
  rw [List.drop_take, List.take_take, Nat.min_eq_left (by omega)]

end byte_words
