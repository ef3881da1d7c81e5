-- SHA-256 as the standard defines it: the padded message, big-endian words,
-- the message schedule by its recurrence, and the rounds. One call of
-- `SHA256Guts` computes the compression function of the standard.
import BitcoinStats.Sha256

open byte_memory byte_words block_hash

namespace bitcoinstats.sha256

/-! ## The standard -/

namespace standard

def choose (x y z : UInt32) : UInt32 := (x &&& y) ^^^ (~~~x &&& z)
def majority (x y z : UInt32) : UInt32 := (x &&& y) ^^^ (x &&& z) ^^^ (y &&& z)

/-- Word `t` of a block of 64 bytes. -/
def blockWord (block : List UInt8) (t : Nat) : UInt32 :=
  UInt32.ofNat (beVal ((block.drop (4 * t)).take 4))

/-- Word `t` of the message schedule. -/
def scheduleWord (block : List UInt8) (t : Nat) : UInt32 :=
  if t < 16 then blockWord block t
  else
    sigma1 (scheduleWord block (t - 2)) + scheduleWord block (t - 7) +
      sigma0 (scheduleWord block (t - 15)) + scheduleWord block (t - 16)
termination_by t

/-- Round `t`. -/
def round (block : List UInt8) (r : Registers) (t : Nat) : Registers :=
  let t1 := r.h + SIGMA1 r.e + choose r.e r.f r.g + K.getD t 0 + scheduleWord block t
  let t2 := SIGMA0 r.a + majority r.a r.b r.c
  ⟨t1 + t2, r.a, r.b, r.c, r.d + t1, r.e, r.f, r.g⟩

def compress (hash : Registers) (block : List UInt8) : Registers :=
  hash.add ((List.range 64).foldl (round block) hash)

def initial : Registers :=
  { a := 0x6a09e667, b := 0xbb67ae85, c := 0x3c6ef372, d := 0xa54ff53a
    e := 0x510e527f, f := 0x9b05688c, g := 0x1f83d9ab, h := 0x5be0cd19 }

/-- The bit 1, then the least number of zero bits that leaves room for the length in bits at the
end of a block. -/
def padded (message : List UInt8) : List UInt8 :=
  message ++ 0x80 :: List.replicate ((119 - message.length % 64) % 64) 0 ++
    beBytes 8 (8 * message.length)

def digest (message : List UInt8) : List UInt8 :=
  (absorb compress 64 initial (padded message)).words.flatMap (fun x => beBytes 4 x.toNat)

end standard

/-! ## The constants -/

/-- The first 32 bits behind the point of the `e`-th root of `p`. -/
def RootFraction (e p : Nat) (w : UInt32) : Prop :=
  ∃ n, n ^ e ≤ p * 2 ^ (32 * e) ∧ p * 2 ^ (32 * e) < (n + 1) ^ e ∧ w.toNat = n % 2 ^ 32

def primes : List Nat :=
  [2, 3, 5, 7, 11, 13, 17, 19, 23, 29, 31, 37, 41, 43, 47, 53, 59, 61, 67, 71, 73, 79, 83, 89, 97,
   101, 103, 107, 109, 113, 127, 131, 137, 139, 149, 151, 157, 163, 167, 173, 179, 181, 191, 193,
   197, 199, 211, 223, 227, 229, 233, 239, 241, 251, 257, 263, 269, 271, 277, 281, 283, 293, 307,
   311]

/-- A test of `RootFraction` for roots below 32. -/
def isRootFraction (e p : Nat) (w : UInt32) : Bool :=
  (List.range 32).any (fun i =>
    (2 ^ 32 * i + w.toNat) ^ e ≤ p * 2 ^ (32 * e) ∧
      p * 2 ^ (32 * e) < (2 ^ 32 * i + w.toNat + 1) ^ e)

theorem rootFraction_of_test {e p : Nat} {w : UInt32} (h : isRootFraction e p w = true) :
    RootFraction e p w := by
  rw [isRootFraction, List.any_eq_true] at h
  obtain ⟨i, -, hi⟩ := h
  rw [decide_eq_true_eq] at hi
  refine ⟨2 ^ 32 * i + w.toNat, hi.1, hi.2, ?_⟩
  rw [Nat.mul_add_mod, Nat.mod_eq_of_lt w.toNat_lt]

/-- The round constants are the cube roots of the first 64 primes, the first hash value is made of
the square roots of the first eight. -/
theorem constants_are_roots :
    (∀ x ∈ primes.zip K, RootFraction 3 x.1 x.2) ∧
      ∀ x ∈ primes.zip standard.initial.words, RootFraction 2 x.1 x.2 := by
  have hcube : (primes.zip K).all (fun x => isRootFraction 3 x.1 x.2) = true := by decide +kernel
  have hsquare : (primes.zip standard.initial.words).all (fun x => isRootFraction 2 x.1 x.2) = true := by
    decide +kernel
  rw [List.all_eq_true] at hcube hsquare
  exact ⟨fun x hx => rootFraction_of_test (hcube x hx), fun x hx => rootFraction_of_test (hsquare x hx)⟩

/-! ## Bits and bytes -/

theorem Ch_eq (x y z : UInt32) : Ch x y z = standard.choose x y z := by
  apply UInt32.toBitVec_inj.mp
  ext i hi
  simp only [Ch, standard.choose, UInt32.toBitVec_xor, UInt32.toBitVec_and, UInt32.toBitVec_not,
    BitVec.getElem_xor, BitVec.getElem_and, BitVec.getElem_not]
  cases x.toBitVec[i] <;> cases y.toBitVec[i] <;> cases z.toBitVec[i] <;> rfl

theorem Maj_eq (x y z : UInt32) : Maj x y z = standard.majority x y z := by
  apply UInt32.toBitVec_inj.mp
  ext i hi
  simp only [Maj, standard.majority, UInt32.toBitVec_xor, UInt32.toBitVec_and, UInt32.toBitVec_or,
    BitVec.getElem_xor, BitVec.getElem_and, BitVec.getElem_or]
  cases x.toBitVec[i] <;> cases y.toBitVec[i] <;> cases z.toBitVec[i] <;> rfl

theorem BYTESWAP_bit (x : UInt32) (i : Nat) (hi : i < 32) :
    (BYTESWAP x).toBitVec.getLsbD i = x.toBitVec.getLsbD (8 * (3 - i / 8) + i % 8) := by
  simp only [BYTESWAP, ROTL, ROTR, UInt32.toBitVec_or, UInt32.toBitVec_and,
    UInt32.toBitVec_shiftLeft, UInt32.toBitVec_shiftRight, BitVec.getLsbD_or, BitVec.getLsbD_and]
  interval_cases i <;> simp

theorem BYTESWAP_loadWord {bytes : List UInt8} (h : bytes.length = 4) :
    BYTESWAP (loadWord bytes) = loadWord bytes.reverse := by
  obtain ⟨b0, b1, b2, b3, rfl⟩ := List.length_eq_four.mp h
  apply UInt32.toBitVec_inj.mp
  apply BitVec.eq_of_getLsbD_eq
  intro i hi
  rw [BYTESWAP_bit _ _ hi, loadWord_bits]
  simp only [List.reverse_cons, List.reverse_nil, List.nil_append, List.cons_append, loadWord_bits,
    BitVec.getLsbD_append]
  interval_cases i <;> rfl

/-- The digest words leave in the order of the standard. -/
theorem storeWord_BYTESWAP (x : UInt32) : storeWord (BYTESWAP x) = beBytes 4 x.toNat := by
  have h := BYTESWAP_loadWord (leBytes_length 4 x.toNat)
  rw [← storeWord, loadWord_storeWord] at h
  rw [h, storeWord_loadWord (by simp [storeWord]), beBytes, storeWord]

theorem byteswap64_toNat (x : UInt64) :
    (byteswap64 x).toNat = (BYTESWAP (x >>> 32).toUInt32).toNat +
      256 ^ 4 * (BYTESWAP x.toUInt32).toNat := by
  have hlow := (BYTESWAP (x >>> 32).toUInt32).toNat_lt
  have hhigh := (BYTESWAP x.toUInt32).toNat_lt
  have hshift : (BYTESWAP x.toUInt32).toNat <<< 32 < 2 ^ 64 := by
    rw [Nat.shiftLeft_eq]
    omega
  simp only [byteswap64, UInt64.toNat_or, UInt64.toNat_shiftLeft, UInt32.toNat_toUInt64]
  rw [show (32 : UInt64).toNat % 64 = 32 by rfl, Nat.mod_eq_of_lt hshift,
    ← Nat.shiftLeft_add_eq_or_of_lt hlow, Nat.shiftLeft_eq]
  omega

/-- The bytes of the swapped length are the length's, highest byte first. -/
theorem leBytes_byteswap64 (x : UInt64) :
    leBytes 8 (byteswap64 x).toNat = beBytes 8 x.toNat := by
  have hx : x.toNat = x.toUInt32.toNat + 256 ^ 4 * (x >>> 32).toUInt32.toNat := by
    have := x.toNat_lt
    simp only [UInt64.toNat_toUInt32, UInt64.toNat_shiftRight]
    rw [show (32 : UInt64).toNat % 64 = 32 by rfl, Nat.shiftRight_eq_div_pow]
    omega
  have hswap : ∀ y : UInt32, leBytes 4 (BYTESWAP y).toNat = beBytes 4 y.toNat := storeWord_BYTESWAP
  rw [beBytes, hx, byteswap64_toNat, leBytes_add 4 4 _ _ (UInt32.toNat_lt _),
    leBytes_add 4 4 _ _ (UInt32.toNat_lt _), List.reverse_append, hswap, hswap]
  rfl

/-! ## The message schedule and the rounds -/

theorem loadWords_BYTESWAP {block : List UInt8} (h : 64 ≤ block.length) :
    (loadWords block).map BYTESWAP = (List.range 16).map (standard.scheduleWord block) := by
  rw [loadWords, List.map_map]
  apply List.map_congr_left
  intro t ht
  rw [List.mem_range] at ht
  have hlen : ((block.drop (4 * t)).take 4).length = 4 := by
    rw [List.length_take, List.length_drop]
    omega
  rw [standard.scheduleWord, if_pos ht, Function.comp_apply, BYTESWAP_loadWord hlen]
  rfl

theorem getD_map_range (f : Nat → UInt32) {i n : Nat} (h : i < n) :
    ((List.range n).map f).getD i 0 = f i := by
  simp [List.getD_eq_getElem?_getD, h]

/-- After `k` turns the first `16 + k` words of the schedule are there. -/
theorem foldl_expandTurn {block : List UInt8} (h : 64 ≤ block.length) (k : Nat) :
    (List.range k).foldl expandTurn ((loadWords block).map BYTESWAP) =
      (List.range (16 + k)).map (standard.scheduleWord block) := by
  induction k with
  | zero => exact loadWords_BYTESWAP h
  | succ k ih =>
    have hget : ∀ i, i < 16 + k → ((List.range (16 + k)).map (standard.scheduleWord block)).getD i 0 =
        standard.scheduleWord block i := fun i hi => getD_map_range _ hi
    rw [List.range_succ, List.foldl_concat, ih, expandTurn, hget (14 + k) (by omega),
      hget (9 + k) (by omega), hget (1 + k) (by omega), hget k (by omega), ← Nat.add_assoc, List.range_succ, List.map_append]
    rw [List.map_singleton, standard.scheduleWord.eq_def block (16 + k), if_neg (by omega),
      show 16 + k - 2 = 14 + k by omega, show 16 + k - 7 = 9 + k by omega,
      show 16 + k - 15 = 1 + k by omega, show 16 + k - 16 = k by omega]

theorem messageWords_eq {block : List UInt8} (h : 64 ≤ block.length) :
    messageWords (loadWords block) = (List.range 64).map (standard.scheduleWord block) :=
  foldl_expandTurn h 48

theorem K_eq : K = (List.range 64).map (fun t => K.getD t 0) := by decide

/-- The unrolled rounds of the code are the standard's. -/
theorem SHA256Guts_eq (hash : Registers) {block : List UInt8} (h : 64 ≤ block.length) :
    SHA256Guts hash (loadWords block) = standard.compress hash block := by
  have hround : ∀ r t, DO_ROUND r (K.getD t 0) (standard.scheduleWord block t) =
      standard.round block r t := by
    intro r t
    rw [DO_ROUND, Ch_eq, Maj_eq]
    rfl
  rw [SHA256Guts, messageWords_eq h, standard.compress]
  conv_lhs => rw [K_eq, List.zip_map', List.foldl_map]
  rw [List.foldl_ext _ _ hash (fun r t _ => hround r t)]

end bitcoinstats.sha256
