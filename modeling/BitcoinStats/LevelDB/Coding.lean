-- The byte strings of LevelDB (`util/coding.cc`): fixed and variable numbers,
-- strings behind their lengths, and how they are read back.
import BitcoinStats.Library.Leb128
import BitcoinStats.Library.Words

open byte_memory byte_words

namespace bitcoinstats.leveldb

/-- The bytes of a slice or of a string. -/
abbrev Slice := List UInt8

/-! ## Writing -/

def PutFixed32 (dst : Slice) (v : UInt32) : Slice := dst ++ leBytes 4 v.toNat

def PutFixed64 (dst : Slice) (v : UInt64) : Slice := dst ++ leBytes 8 v.toNat

def EncodeVarint32 (v : UInt32) : Slice :=
  let B : UInt32 := 128
  if v < (1 : UInt32) <<< 7 then [v.toUInt8]
  else if v < (1 : UInt32) <<< 14 then [(v ||| B).toUInt8, (v >>> 7).toUInt8]
  else if v < (1 : UInt32) <<< 21 then [(v ||| B).toUInt8, ((v >>> 7) ||| B).toUInt8, (v >>> 14).toUInt8]
  else if v < (1 : UInt32) <<< 28 then
    [(v ||| B).toUInt8, ((v >>> 7) ||| B).toUInt8, ((v >>> 14) ||| B).toUInt8, (v >>> 21).toUInt8]
  else
    [(v ||| B).toUInt8, ((v >>> 7) ||| B).toUInt8, ((v >>> 14) ||| B).toUInt8,
      ((v >>> 21) ||| B).toUInt8, (v >>> 28).toUInt8]

def PutVarint32 (dst : Slice) (v : UInt32) : Slice := dst ++ EncodeVarint32 v

def EncodeVarint64 (v : UInt64) : Slice :=
  if v ≥ 128 then ((v &&& 127) ||| 128).toUInt8 :: EncodeVarint64 (v >>> 7) else [v.toUInt8]
termination_by v.toNat
decreasing_by
  rename_i h
  have hle : 128 ≤ v.toNat := UInt64.le_iff_toNat_le.mp h
  rw [UInt64.toNat_shiftRight]
  change v.toNat >>> 7 < v.toNat
  rw [Nat.shiftRight_eq_div_pow]
  omega

def PutVarint64 (dst : Slice) (v : UInt64) : Slice := dst ++ EncodeVarint64 v

/-- The size of a slice as the `uint32_t` that it is passed as. -/
def size32 (s : Slice) : UInt32 := UInt32.ofNat s.length

/-- The size of a slice as the `uint64_t` of an offset. -/
def size64 (s : Slice) : UInt64 := UInt64.ofNat s.length

def PutLengthPrefixedSlice (dst value : Slice) : Slice := PutVarint32 dst (size32 value) ++ value

def VarintLength (v : UInt64) : Nat := if v ≥ 128 then VarintLength (v >>> 7) + 1 else 1
termination_by v.toNat
decreasing_by
  rename_i h
  have hle : 128 ≤ v.toNat := UInt64.le_iff_toNat_le.mp h
  rw [UInt64.toNat_shiftRight]
  change v.toNat >>> 7 < v.toNat
  rw [Nat.shiftRight_eq_div_pow]
  omega

/-! ## Reading -/

def DecodeFixed32 (ptr : Slice) : UInt32 := UInt32.ofNat (leVal (ptr.take 4))

def DecodeFixed64 (ptr : Slice) : UInt64 := UInt64.ofNat (leVal (ptr.take 8))

/-- The loop of `GetVarint32PtrFallback` and of `GetVarint64Ptr`, on a register of `w` bits, with the
turns that `shift` still allows. The bytes up to `limit` are the list; a null pointer is `none`. -/
def varintLoop (w : Nat) : Nat → Nat → BitVec w → Slice → Option (BitVec w × Slice)
  | 0, _, _, _ => none
  | _ + 1, _, _, [] => none
  | turns + 1, shift, result, b :: p =>
    let byte := BitVec.ofNat w b.toNat
    if byte &&& 128#w ≠ 0#w then
      varintLoop w turns (shift + 7) (result ||| ((byte &&& 127#w) <<< shift)) p
    else some (result ||| (byte <<< shift), p)

def GetVarint32PtrFallback (p : Slice) : Option (UInt32 × Slice) :=
  (varintLoop 32 5 0 0#32 p).map (fun r => (UInt32.ofBitVec r.1, r.2))

def GetVarint32Ptr (p : Slice) : Option (UInt32 × Slice) :=
  match p with
  | [] => GetVarint32PtrFallback []
  | b :: rest =>
    let result := b.toUInt32
    if result &&& 128 = 0 then some (result, rest) else GetVarint32PtrFallback (b :: rest)

def GetVarint32 (input : Slice) : Option (UInt32 × Slice) := GetVarint32Ptr input

def GetVarint64Ptr (p : Slice) : Option (UInt64 × Slice) :=
  (varintLoop 64 10 0 0#64 p).map (fun r => (UInt64.ofBitVec r.1, r.2))

def GetVarint64 (input : Slice) : Option (UInt64 × Slice) := GetVarint64Ptr input

/-- The version on a slice. -/
def GetLengthPrefixedSlice (input : Slice) : Option (Slice × Slice) := do
  let (len, input) ← GetVarint32 input
  if input.length ≥ len.toNat then some (input.take len.toNat, input.drop len.toNat) else none

/-! ## Numbers of seven bits -/

theorem EncodeVarint32_eq (v : UInt32) : EncodeVarint32 v = leb128.encode v.toNat := by
  have hshift : ∀ s < 32, (v >>> UInt32.ofNat s).toNat = v.toNat / 2 ^ s := by
    intro s hs
    rw [UInt32.toNat_shiftRight, UInt32.toNat_ofNat', Nat.mod_eq_of_lt (by omega : s < 2 ^ 32),
      Nat.mod_eq_of_lt hs, Nat.shiftRight_eq_div_pow]
  have h7 : (v >>> 7).toNat = v.toNat / 2 ^ 7 := hshift 7 (by decide)
  have h14 : (v >>> 14).toNat = v.toNat / 2 ^ 14 := hshift 14 (by decide)
  have h21 : (v >>> 21).toNat = v.toNat / 2 ^ 21 := hshift 21 (by decide)
  have h28 : (v >>> 28).toNat = v.toNat / 2 ^ 28 := hshift 28 (by decide)
  have hmore : ∀ x : UInt32, (x ||| 128).toUInt8 = UInt8.ofNat (x.toNat % 128 + 128) := by
    intro x
    apply UInt8.toNat_inj.mp
    rw [UInt32.toNat_toUInt8, UInt32.toNat_or, UInt8.toNat_ofNat']
    exact (leb128.or_128_mod x.toNat).trans (by omega)
  have hlast : ∀ x : UInt32, x.toUInt8 = UInt8.ofNat x.toNat := by
    intro x
    apply UInt8.toNat_inj.mp
    rw [UInt32.toNat_toUInt8, UInt8.toNat_ofNat']
  have hlt : ∀ k : UInt32, v < k ↔ v.toNat < k.toNat := fun k => UInt32.lt_iff_toNat_lt
  have hv := v.toNat_lt
  rw [EncodeVarint32]
  simp only [hlt, hmore, hlast, h7, h14, h21, h28]
  change (if v.toNat < 2 ^ 7 then _ else if v.toNat < 2 ^ 14 then _ else if v.toNat < 2 ^ 21 then _
    else if v.toNat < 2 ^ 28 then _ else _) = _
  split_ifs
  · rw [leb128.encode_of_lt (by omega)]
  · rw [leb128.encode_of_le (by omega), leb128.encode_of_lt (by omega)]
    rfl
  · rw [leb128.encode_of_le (by omega), leb128.encode_of_le (by omega),
      leb128.encode_of_lt (by omega), Nat.div_div_eq_div_mul]
    rfl
  · rw [leb128.encode_of_le (by omega), leb128.encode_of_le (by omega),
      leb128.encode_of_le (by omega), leb128.encode_of_lt (by omega)]
    simp only [Nat.div_div_eq_div_mul]
    rfl
  · rw [leb128.encode_of_le (by omega), leb128.encode_of_le (by omega),
      leb128.encode_of_le (by omega), leb128.encode_of_le (by omega),
      leb128.encode_of_lt (by omega)]
    simp only [Nat.div_div_eq_div_mul]
    rfl

theorem shiftRight_seven (v : UInt64) : (v >>> 7).toNat = v.toNat / 128 := by
  rw [UInt64.toNat_shiftRight]
  change v.toNat >>> 7 = _
  rw [Nat.shiftRight_eq_div_pow]

theorem EncodeVarint64_eq (v : UInt64) : EncodeVarint64 v = leb128.encode v.toNat := by
  induction v using EncodeVarint64.induct with
  | case1 v h ih =>
    have hle : 128 ≤ v.toNat := UInt64.le_iff_toNat_le.mp h
    have hbyte : ((v &&& 127) ||| 128).toUInt8 = UInt8.ofNat (v.toNat % 128 + 128) := by
      apply UInt8.toNat_inj.mp
      rw [UInt64.toNat_toUInt8, UInt64.toNat_or, UInt64.toNat_and, UInt8.toNat_ofNat']
      have hand : v.toNat &&& 127 = v.toNat % 128 := Nat.and_two_pow_sub_one_eq_mod v.toNat 7
      have hor := leb128.or_128_mod (v.toNat % 128)
      change (v.toNat &&& 127 ||| 128) % 256 = _
      rw [hand, hor]
      omega
    rw [EncodeVarint64, if_pos h, ih, leb128.encode_of_le hle, hbyte, shiftRight_seven]
  | case2 v h =>
    have hlt : v.toNat < 128 := by
      by_contra hge
      exact h (UInt64.le_iff_toNat_le.mpr (by simpa using hge))
    rw [EncodeVarint64, if_neg h, leb128.encode_of_lt hlt]
    rfl

theorem VarintLength_eq (v : UInt64) : VarintLength v = (EncodeVarint64 v).length := by
  induction v using VarintLength.induct with
  | case1 v h ih => rw [VarintLength, EncodeVarint64, if_pos h, if_pos h, ih, List.length_cons]
  | case2 v h => rw [VarintLength, EncodeVarint64, if_neg h, if_neg h, List.length_singleton]

/-- The loop reads one number within its turns, and drops the bits that the register has no room for. -/
theorem varintLoop_eq {w : ℕ} (hw : 8 ≤ w) (turns j : ℕ) (hturns : 7 * (j + turns) < w + 7)
    (result : BitVec w) (hresult : result.toNat < 2 ^ (7 * j)) (p : Slice) :
    varintLoop w turns (7 * j) result p = (leb128.scan turns p).map
      (fun r => (BitVec.ofNat w (result.toNat + 2 ^ (7 * j) * leb128.value r.1), r.2)) := by
  induction turns generalizing j result p with
  | zero => rfl
  | succ turns ih =>
    cases p with
    | nil => rfl
    | cons b p =>
      have hb := b.toNat_lt
      have hwide : 2 ^ 8 ≤ 2 ^ w := Nat.pow_le_pow_right (by decide) hw
      have hbyte : (BitVec.ofNat w b.toNat).toNat = b.toNat := by
        rw [BitVec.toNat_ofNat, Nat.mod_eq_of_lt (by omega)]
      have hmore : (BitVec.ofNat w b.toNat &&& 128#w ≠ 0#w) ↔ 128 ≤ b.toNat := by
        rw [← leb128.and_128_ne_zero hb, ne_eq, ne_eq, ← BitVec.toNat_inj, BitVec.toNat_and, hbyte,
          BitVec.toNat_ofNat, BitVec.toNat_ofNat, Nat.mod_eq_of_lt (by omega : 128 < 2 ^ w),
          Nat.zero_mod]
      have hlow : (BitVec.ofNat w b.toNat &&& 127#w).toNat = b.toNat % 128 := by
        rw [BitVec.toNat_and, hbyte, BitVec.toNat_ofNat, Nat.mod_eq_of_lt (by omega : 127 < 2 ^ w)]
        exact Nat.and_two_pow_sub_one_eq_mod b.toNat 7
      have hgroup := fun x : BitVec w => leb128.or_shiftLeft x hresult (by omega)
      rw [varintLoop, leb128.scan]
      by_cases hlast : b.toNat < 128
      · have hno : ¬ (BitVec.ofNat w b.toNat &&& 128#w ≠ 0#w) := by
          rw [hmore]
          omega
        have hvalue : leb128.value [b] = b.toNat := by
          rw [leb128.value, leb128.value]
          omega
        simp only [if_neg hno, if_pos hlast, hgroup, Option.map_some, hvalue, hbyte]
      · have hyes : BitVec.ofNat w b.toNat &&& 128#w ≠ 0#w := hmore.mpr (by omega)
        simp only [if_pos hyes, if_neg hlast, hgroup, hlow, Option.map_map]
        rcases Nat.eq_zero_or_pos turns with rfl | hpos
        · rfl
        · have hpow : 2 ^ (7 * (j + 1)) = 2 ^ (7 * j) * 128 := by
            rw [Nat.mul_add, Nat.pow_add]
          have hfit : result.toNat + 2 ^ (7 * j) * (b.toNat % 128) < 2 ^ (7 * (j + 1)) := by
            have hmod : b.toNat % 128 + 1 ≤ 128 := Nat.mod_lt _ (by decide)
            have := Nat.mul_le_mul_left (2 ^ (7 * j)) hmod
            rw [Nat.mul_add] at this
            omega
          have hsmall : 2 ^ (7 * (j + 1)) ≤ 2 ^ w := Nat.pow_le_pow_right (by decide) (by omega)
          have hto : (BitVec.ofNat w (result.toNat + 2 ^ (7 * j) * (b.toNat % 128))).toNat =
              result.toNat + 2 ^ (7 * j) * (b.toNat % 128) := by
            rw [BitVec.toNat_ofNat, Nat.mod_eq_of_lt (by omega)]
          rw [← Nat.mul_succ, ih (j + 1) (by omega) _ (by rw [hto]; exact hfit), hto]
          congr 1
          funext r
          simp only [Function.comp_apply, leb128.value, hpow]
          congr 2
          ring

/-- One number of at most five bytes, reduced to 32 bits. -/
theorem GetVarint32_eq (input : Slice) : GetVarint32 input =
    (leb128.scan 5 input).map (fun r => (UInt32.ofNat (leb128.value r.1), r.2)) := by
  have hloop : ∀ p : Slice, GetVarint32PtrFallback p =
      (leb128.scan 5 p).map (fun r => (UInt32.ofNat (leb128.value r.1), r.2)) := by
    intro p
    have h := varintLoop_eq (by decide) 5 0 (by decide) 0#32 (by decide) p
    rw [GetVarint32PtrFallback, h, Option.map_map]
    simp
    rfl
  cases input with
  | nil => exact hloop []
  | cons b rest =>
    rw [GetVarint32, GetVarint32Ptr]
    by_cases hzero : b.toUInt32 &&& 128 = 0
    · -- the fast path
      have hlast : b.toNat < 128 := by
        by_contra hge
        refine (leb128.and_128_ne_zero b.toNat_lt).mpr (by omega) ?_
        exact congrArg UInt32.toNat hzero
      have hvalue : leb128.value [b] = b.toNat := by
        rw [leb128.value, leb128.value]
        omega
      have hbyte : b.toUInt32 = UInt32.ofNat b.toNat := by
        apply UInt32.toNat_inj.mp
        rw [UInt8.toNat_toUInt32, UInt32.toNat_ofNat', Nat.mod_eq_of_lt (by have := b.toNat_lt; omega)]
      simp only [if_pos hzero, leb128.scan, if_pos hlast, Option.map_some, hvalue]
      rw [hbyte]
    · simp only [if_neg hzero]
      exact hloop _

/-- One number of at most ten bytes, reduced to 64 bits. -/
theorem GetVarint64_eq (input : Slice) : GetVarint64 input =
    (leb128.scan 10 input).map (fun r => (UInt64.ofNat (leb128.value r.1), r.2)) := by
  have h := varintLoop_eq (by decide) 10 0 (by decide) 0#64 (by decide) input
  rw [GetVarint64, GetVarint64Ptr, h, Option.map_map]
  simp
  rfl

@[simp] theorem GetVarint32_encode (v : UInt32) (rest : Slice) :
    GetVarint32 (EncodeVarint32 v ++ rest) = some (v, rest) := by
  have hv : v.toNat < 128 ^ 5 := v.toNat_lt.trans (by decide)
  rw [GetVarint32_eq, EncodeVarint32_eq, leb128.scan_encode hv (by decide), Option.map_some,
    leb128.value_encode, UInt32.ofNat_toNat]

@[simp] theorem GetVarint64_encode (v : UInt64) (rest : Slice) :
    GetVarint64 (EncodeVarint64 v ++ rest) = some (v, rest) := by
  have hv : v.toNat < 128 ^ 10 := v.toNat_lt.trans (by decide)
  rw [GetVarint64_eq, EncodeVarint64_eq, leb128.scan_encode hv (by decide), Option.map_some,
    leb128.value_encode, UInt64.ofNat_toNat]

/-- What is read back is in the groups of some bytes at the front of the input. -/
theorem GetVarint32_eq_some {input rest : Slice} {v : UInt32} :
    GetVarint32 input = some (v, rest) ↔ ∃ bytes, input = bytes ++ rest ∧ leb128.IsNumber bytes ∧
      bytes.length ≤ 5 ∧ v = UInt32.ofNat (leb128.value bytes) := by
  rw [GetVarint32_eq, Option.map_eq_some_iff]
  constructor
  · rintro ⟨⟨bytes, rest'⟩, hscan, heq⟩
    obtain ⟨rfl, rfl⟩ := Prod.mk.inj heq
    obtain ⟨hinput, hnum, hlen⟩ := leb128.scan_eq_some.mp hscan
    exact ⟨bytes, hinput, hnum, hlen, rfl⟩
  · rintro ⟨bytes, hinput, hnum, hlen, rfl⟩
    exact ⟨(bytes, rest), leb128.scan_eq_some.mpr ⟨hinput, hnum, hlen⟩, rfl⟩

theorem GetVarint64_eq_some {input rest : Slice} {v : UInt64} :
    GetVarint64 input = some (v, rest) ↔ ∃ bytes, input = bytes ++ rest ∧ leb128.IsNumber bytes ∧
      bytes.length ≤ 10 ∧ v = UInt64.ofNat (leb128.value bytes) := by
  rw [GetVarint64_eq, Option.map_eq_some_iff]
  constructor
  · rintro ⟨⟨bytes, rest'⟩, hscan, heq⟩
    obtain ⟨rfl, rfl⟩ := Prod.mk.inj heq
    obtain ⟨hinput, hnum, hlen⟩ := leb128.scan_eq_some.mp hscan
    exact ⟨bytes, hinput, hnum, hlen, rfl⟩
  · rintro ⟨bytes, hinput, hnum, hlen, rfl⟩
    exact ⟨(bytes, rest), leb128.scan_eq_some.mpr ⟨hinput, hnum, hlen⟩, rfl⟩

theorem length_EncodeVarint32_le (v : UInt32) : (EncodeVarint32 v).length ≤ 5 := by
  rw [EncodeVarint32_eq]
  exact leb128.length_encode_le (v.toNat_lt.trans (by decide)) (by decide)

@[simp] theorem DecodeFixed32_put (v : UInt32) (rest : Slice) :
    DecodeFixed32 (leBytes 4 v.toNat ++ rest) = v := by
  have hlt : v.toNat < 256 ^ 4 := v.toNat_lt
  rw [DecodeFixed32, List.take_left' (leBytes_length 4 _), leVal_leBytes_of_lt hlt,
    UInt32.ofNat_toNat]

@[simp] theorem DecodeFixed64_put (v : UInt64) (rest : Slice) :
    DecodeFixed64 (leBytes 8 v.toNat ++ rest) = v := by
  have hlt : v.toNat < 256 ^ 8 := v.toNat_lt
  rw [DecodeFixed64, List.take_left' (leBytes_length 8 _), leVal_leBytes_of_lt hlt,
    UInt64.ofNat_toNat]

theorem DecodeFixed64_toNat (bytes : Slice) : (DecodeFixed64 bytes).toNat = leVal (bytes.take 8) := by
  have hlt := leVal_lt (bytes.take 8)
  have hle : 256 ^ (bytes.take 8).length ≤ 256 ^ 8 :=
    Nat.pow_le_pow_right (by decide) (List.length_take_le _ _)
  rw [DecodeFixed64, UInt64.toNat_ofNat', Nat.mod_eq_of_lt (by omega)]

theorem size32_toNat {s : Slice} (h : s.length < 2 ^ 32) : (size32 s).toNat = s.length := by
  rw [size32, UInt32.toNat_ofNat', Nat.mod_eq_of_lt h]

/-- A slice whose size fits its `uint32_t` comes back from behind its length. -/
theorem GetLengthPrefixedSlice_put {value : Slice} (h : value.length < 2 ^ 32) (rest : Slice) :
    GetLengthPrefixedSlice (EncodeVarint32 (size32 value) ++ value ++ rest) = some (value, rest) := by
  rw [GetLengthPrefixedSlice, List.append_assoc, GetVarint32_encode]
  simp [size32_toNat h]

/-- A varint that is written is read back whatever stands behind it, no shorter part of it is a
varint, and a varint that is read is one terminated run of at most five bytes, or ten. -/
theorem varints_read_back (v : UInt32) (w : UInt64) :
    ((∀ rest, GetVarint32 (EncodeVarint32 v ++ rest) = some (v, rest)) ∧
      (∀ front, front <+: EncodeVarint32 v → front ≠ EncodeVarint32 v → GetVarint32 front = none) ∧
      (∀ input rest, GetVarint32 input = some (v, rest) ↔ ∃ bytes, input = bytes ++ rest ∧
        leb128.IsNumber bytes ∧ bytes.length ≤ 5 ∧ v = UInt32.ofNat (leb128.value bytes))) ∧
    ((∀ rest, GetVarint64 (EncodeVarint64 w ++ rest) = some (w, rest)) ∧
      (∀ front, front <+: EncodeVarint64 w → front ≠ EncodeVarint64 w → GetVarint64 front = none) ∧
      (∀ input rest, GetVarint64 input = some (w, rest) ↔ ∃ bytes, input = bytes ++ rest ∧
        leb128.IsNumber bytes ∧ bytes.length ≤ 10 ∧ w = UInt64.ofNat (leb128.value bytes)) ∧
      (EncodeVarint64 w).length = VarintLength w) := by
  refine ⟨⟨GetVarint32_encode v, ?_, fun _ _ => GetVarint32_eq_some⟩,
    ⟨GetVarint64_encode w, ?_, fun _ _ => GetVarint64_eq_some, (VarintLength_eq w).symm⟩⟩
  · intro front hpre hne
    rw [EncodeVarint32_eq] at hpre hne
    rw [GetVarint32_eq, leb128.scan_of_earlier (leb128.isNumber_encode v.toNat) hpre hne,
      Option.map_none]
  · intro front hpre hne
    rw [EncodeVarint64_eq] at hpre hne
    rw [GetVarint64_eq, leb128.scan_of_earlier (leb128.isNumber_encode w.toNat) hpre hne,
      Option.map_none]

end bitcoinstats.leveldb
