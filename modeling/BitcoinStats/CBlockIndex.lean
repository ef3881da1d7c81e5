-- The block index records of `CBlockIndex.h`: what the node writes to its
-- LevelDB database for each block, and the decoder of these records. A pointer
-- into the record is the list of the bytes from there on.
import BitcoinStats.Library.Bytes
import BitcoinStats.Library.VarInt
import BitcoinStats.BlockChainTypes

open byte_memory var_int bitcoinstats.block_chain

namespace bitcoinstats.block_index

/-! ## The decoder -/

def BLOCK_HAVE_DATA : UInt64 := 8
def BLOCK_HAVE_UNDO : UInt64 := 16
def BLOCK_HAVE_MASK : UInt64 := BLOCK_HAVE_DATA ||| BLOCK_HAVE_UNDO

structure CBlockIndex where
  mVersionNumber : UInt64
  mBlockHeight : UInt64
  mBlockStatus : UInt64
  mTransactionCount : UInt64
  mFileIndex : UInt64
  mFileOffset : UInt64
  mUndoOffset : UInt64
  mBlockVersion : Int32
  mHashPrevious : Hash256
  mHashMerkleRoot : Hash256
  mTime : UInt32
  mBits : UInt32
  mNonce : UInt32
  mBlockHash : Hash256
deriving DecidableEq

/-- The constructor with the hash of the block. The default constructor leaves
the hash at zero. -/
def CBlockIndex.new (blockHash : Hash256) : CBlockIndex :=
  { mVersionNumber := 0, mBlockHeight := 0, mBlockStatus := 0, mTransactionCount := 0
    mFileIndex := 0, mFileOffset := 0, mUndoOffset := 0, mBlockVersion := 0
    mHashPrevious := Vector.replicate 32 0, mHashMerkleRoot := Vector.replicate 32 0
    mTime := 0, mBits := 0, mNonce := 0, mBlockHash := blockHash }

/-- The loop of `readVarint128`. It is undefined behind the end of the data. -/
def readVarint128Loop (value : UInt64) : List UInt8 → Option (UInt64 × List UInt8)
  | [] => none
  | byte :: ret =>
    let value := (value <<< 7) ||| (byte &&& 0x7F).toUInt64
    if byte &&& 0x80 ≠ 0 then readVarint128Loop (value + 1) ret else some (value, ret)

def readVarint128 (data : List UInt8) : Option (UInt64 × List UInt8) := readVarint128Loop 0 data

/-- `if (present) { data = readVarint128(data, value); }` -/
def readVarint128If (present : Prop) [Decidable present] (value : UInt64) (data : List UInt8) :
    Option (UInt64 × List UInt8) :=
  if present then readVarint128 data else some (value, data)

/-- The `n` bytes at the pointer, and the pointer behind them. -/
def readBytes (n : Nat) (scan : List UInt8) : Option (List UInt8 × List UInt8) :=
  if n ≤ scan.length then some (scan.take n, scan.drop n) else none

def readHashBytes (scan : List UInt8) : Option (Hash256 × List UInt8) :=
  if h : 32 ≤ scan.length then
    some (⟨(scan.take 32).toArray, by simpa using h⟩, scan.drop 32)
  else none

def readUInt32 (scan : List UInt8) : Option (UInt32 × List UInt8) := do
  let (bytes, scan) ← readBytes 4 scan
  return (UInt32.ofNat (leVal bytes), scan)

/-- The decoded record, the pointer that is returned, and whether the assertion
on the size holds. -/
structure ReadIndex where
  index : CBlockIndex
  scan : List UInt8
  sizeAsExpected : Bool
deriving DecidableEq

/-- The fields of variable length. -/
def CBlockIndex.readVarints (this : CBlockIndex) (data : List UInt8) :
    Option (CBlockIndex × List UInt8) := do
  let (mVersionNumber, data) ← readVarint128 data
  let (mBlockHeight, data) ← readVarint128 data
  let (mBlockStatus, data) ← readVarint128 data
  let (mTransactionCount, data) ← readVarint128 data
  let (mFileIndex, data) ←
    readVarint128If (mBlockStatus &&& BLOCK_HAVE_MASK ≠ 0) this.mFileIndex data
  let (mFileOffset, data) ←
    readVarint128If (mBlockStatus &&& BLOCK_HAVE_DATA ≠ 0) this.mFileOffset data
  let (mUndoOffset, data) ←
    readVarint128If (mBlockStatus &&& BLOCK_HAVE_UNDO ≠ 0) this.mUndoOffset data
  return ({ this with
    mVersionNumber, mBlockHeight, mBlockStatus, mTransactionCount, mFileIndex, mFileOffset
    mUndoOffset }, data)

/-- The fields of the block header. -/
def CBlockIndex.readHeader (this : CBlockIndex) (scan : List UInt8) :
    Option (CBlockIndex × List UInt8) := do
  let (blockVersion, scan) ← readUInt32 scan
  let (mHashPrevious, scan) ← readHashBytes scan
  let (mHashMerkleRoot, scan) ← readHashBytes scan
  let (mTime, scan) ← readUInt32 scan
  let (mBits, scan) ← readUInt32 scan
  let (mNonce, scan) ← readUInt32 scan
  return ({ this with
    mBlockVersion := blockVersion.toInt32, mHashPrevious, mHashMerkleRoot, mTime, mBits
    mNonce }, scan)

def CBlockIndex.readBlockIndex (this : CBlockIndex) (data : List UInt8) (expectedSize : Nat) :
    Option ReadIndex := do
  let (index, scan) ← this.readVarints data
  let (index, scan) ← index.readHeader scan
  let size := data.length - scan.length
  return { index := index, scan := scan, sizeAsExpected := size == expectedSize }

/-! ## The serialization -/

/-- The record as the comment in the header file has it. The first version is
the one of the database, the second one that of the block. -/
structure CDiskBlockIndex where
  version : UInt64
  nHeight : UInt64
  nStatus : UInt64
  nTx : UInt64
  nFile : UInt64
  nDataPos : UInt64
  nUndoPos : UInt64
  nVersion : Int32
  hashPrev : Hash256
  hashMerkleRoot : Hash256
  nTime : UInt32
  nBits : UInt32
  nNonce : UInt32

namespace CDiskBlockIndex

abbrev hasFile (obj : CDiskBlockIndex) : Prop :=
  obj.nStatus &&& (BLOCK_HAVE_DATA ||| BLOCK_HAVE_UNDO) ≠ 0

abbrev hasData (obj : CDiskBlockIndex) : Prop := obj.nStatus &&& BLOCK_HAVE_DATA ≠ 0

abbrev hasUndo (obj : CDiskBlockIndex) : Prop := obj.nStatus &&& BLOCK_HAVE_UNDO ≠ 0

/-- A field of variable length, if the record has it. -/
def optional (present : Prop) [Decidable present] (n : UInt64) : List UInt8 :=
  if present then varInt n.toNat else []

def header (obj : CDiskBlockIndex) : List UInt8 :=
  leBytes 4 obj.nVersion.toUInt32.toNat ++ (obj.hashPrev.toList ++ (obj.hashMerkleRoot.toList ++
    (leBytes 4 obj.nTime.toNat ++ (leBytes 4 obj.nBits.toNat ++ leBytes 4 obj.nNonce.toNat))))

def varints (obj : CDiskBlockIndex) : List UInt8 :=
  varInt obj.version.toNat ++ (varInt obj.nHeight.toNat ++ (varInt obj.nStatus.toNat ++
    (varInt obj.nTx.toNat ++ (optional obj.hasFile obj.nFile ++ (optional obj.hasData obj.nDataPos ++
      optional obj.hasUndo obj.nUndoPos)))))

def serialize (obj : CDiskBlockIndex) : List UInt8 := obj.varints ++ obj.header

/-- The record as it should be decoded: the fields that it does not have are 0. -/
def decoded (obj : CDiskBlockIndex) (blockHash : Hash256) : CBlockIndex :=
  { mVersionNumber := obj.version
    mBlockHeight := obj.nHeight
    mBlockStatus := obj.nStatus
    mTransactionCount := obj.nTx
    mFileIndex := if obj.hasFile then obj.nFile else 0
    mFileOffset := if obj.hasData then obj.nDataPos else 0
    mUndoOffset := if obj.hasUndo then obj.nUndoPos else 0
    mBlockVersion := obj.nVersion
    mHashPrevious := obj.hashPrev
    mHashMerkleRoot := obj.hashMerkleRoot
    mTime := obj.nTime
    mBits := obj.nBits
    mNonce := obj.nNonce
    mBlockHash := blockHash }

end CDiskBlockIndex

/-! ## Variable-length integers -/

theorem and_0x80_ne_zero (byte : UInt8) : byte &&& 0x80 ≠ 0 ↔ Continues byte := by
  have h : ∀ n : Fin 256, UInt8.ofNat n.val &&& 0x80 ≠ 0 ↔ 128 ≤ n.val := by
    decide +kernel
  have hb := h ⟨byte.toNat, byte.toNat_lt⟩
  rwa [UInt8.ofNat_toNat] at hb

theorem and_0x7F_toNat (byte : UInt8) : (byte &&& 0x7F).toUInt64.toNat = byte.toNat % 128 := by
  have h : (0x7F : UInt8).toNat = 2 ^ 7 - 1 := rfl
  rw [UInt8.toNat_toUInt64, UInt8.toNat_and, h, Nat.and_two_pow_sub_one_eq_mod]

/-- One turn of the loop, in the arithmetic of `uint64_t`. -/
theorem shift_or_digit (value : Nat) (byte : UInt8) :
    (UInt64.ofNat value <<< 7) ||| (byte &&& 0x7F).toUInt64 =
      UInt64.ofNat (value * 128 + byte.toNat % 128) := by
  have hseven : (7 : UInt64).toNat % 64 = 7 := rfl
  have hshift : (UInt64.ofNat value <<< 7).toNat = 2 ^ 7 * (value % 2 ^ 57) := by
    rw [UInt64.toNat_shiftLeft, hseven, UInt64.toNat_ofNat', Nat.shiftLeft_eq]
    omega
  apply UInt64.toNat_inj.mp
  rw [UInt64.toNat_or, hshift, and_0x7F_toNat, ← Nat.two_pow_add_eq_or_of_lt (by omega),
    UInt64.toNat_ofNat']
  omega

theorem readVarint128Loop_digits (value : Nat) (head : List UInt8) (last : UInt8)
    (rest : List UInt8) (hhead : ∀ b ∈ head, Continues b) (hlast : ¬ Continues last) :
    readVarint128Loop (UInt64.ofNat value) (head ++ last :: rest) =
      some (UInt64.ofNat (digit (head.foldl digit value) last), rest) := by
  induction head generalizing value with
  | nil =>
    rw [List.nil_append, readVarint128Loop, shift_or_digit, List.foldl_nil, digit, if_neg hlast]
    rw [if_neg (by rwa [and_0x80_ne_zero]), Nat.add_zero]
  | cons b head ih =>
    have hb : Continues b := hhead b List.mem_cons_self
    have hnext : UInt64.ofNat (value * 128 + b.toNat % 128) + 1 = UInt64.ofNat (digit value b) := by
      rw [digit, if_pos hb, UInt64.ofNat_add _ 1]
      rfl
    rw [List.cons_append, readVarint128Loop, shift_or_digit]
    rw [if_pos (by rwa [and_0x80_ne_zero]), hnext, List.foldl_cons]
    exact ih _ fun b hb => hhead b (List.mem_cons_of_mem _ hb)

theorem readVarint128_varInt (n : UInt64) (rest : List UInt8) :
    readVarint128 (varInt n.toNat ++ rest) = some (n, rest) := by
  have h := readVarint128Loop_digits 0 (varIntHead n.toNat) (UInt8.ofNat (n.toNat % 128)) rest
    (varIntHead_continues n.toNat) (varInt_last n.toNat)
  rw [varInt_value, UInt64.ofNat_toNat] at h
  rw [varInt, List.append_assoc]
  exact h

/-! ## Each number has one string of bytes -/

/-- No turn of the loop leaves the range of `uint64_t`: the shift loses no bit and
the increment does not wrap. -/
def NoWrap (value : UInt64) : List UInt8 → Prop
  | [] => True
  | byte :: ret =>
    (value <<< 7).toNat = value.toNat * 2 ^ 7 ∧
      let value := (value <<< 7) ||| (byte &&& 0x7F).toUInt64
      byte &&& 0x80 ≠ 0 → (value + 1).toNat = value.toNat + 1 ∧ NoWrap (value + 1) ret

/-- A terminated string that is read as `n`, its value being in range. -/
structure ReadsAs (n : UInt64) (bytes : List UInt8) : Prop where
  terminated : Terminated bytes
  inRange : value bytes < 2 ^ 64
  reads : readVarint128 bytes = some (n, [])

theorem readVarint128_terminated {bytes : List UInt8} (h : Terminated bytes) (rest : List UInt8) :
    readVarint128 (bytes ++ rest) = some (UInt64.ofNat (value bytes), rest) := by
  rcases h.ends with ⟨head, last, rfl, hhead, hlast⟩
  rw [value_append_last, List.append_assoc]
  exact readVarint128Loop_digits 0 head last rest hhead hlast

/-- The loop stays in range when the value that the bytes lead to does. -/
theorem noWrap_digits (n : Nat) (head : List UInt8) (last : UInt8) (rest : List UInt8)
    (hhead : ∀ b ∈ head, Continues b) (hlast : ¬ Continues last)
    (hrange : digit (head.foldl digit n) last < 2 ^ 64) :
    NoWrap (UInt64.ofNat n) (head ++ last :: rest) := by
  have hshift : ∀ m : Nat, m * 128 < 2 ^ 64 →
      (UInt64.ofNat m <<< 7).toNat = (UInt64.ofNat m).toNat * 2 ^ 7 := by
    intro m hm
    have hseven : (7 : UInt64).toNat % 64 = 7 := rfl
    rw [UInt64.toNat_shiftLeft, hseven, UInt64.toNat_ofNat', Nat.shiftLeft_eq]
    omega
  induction head generalizing n with
  | nil =>
    rw [List.foldl_nil, digit] at hrange
    refine ⟨hshift n (by omega), fun hcont => ?_⟩
    exact absurd ((and_0x80_ne_zero last).mp hcont) hlast
  | cons b head ih =>
    have hb : Continues b := hhead b List.mem_cons_self
    have hdigit : digit n b = n * 128 + b.toNat % 128 + 1 := by rw [digit, if_pos hb]
    have hbelow : digit n b < 2 ^ 64 := by
      have hfold := le_foldl_digit (digit n b) head
      have hend := le_foldl_digit (head.foldl digit (digit n b)) [last]
      exact lt_of_le_of_lt (le_trans hfold hend) hrange
    have hvalue : (UInt64.ofNat n <<< 7) ||| (b &&& 0x7F).toUInt64 =
        UInt64.ofNat (n * 128 + b.toNat % 128) := shift_or_digit n b
    have hnext : UInt64.ofNat (n * 128 + b.toNat % 128) + 1 = UInt64.ofNat (digit n b) := by
      rw [hdigit, UInt64.ofNat_add _ 1]
      rfl
    have hloop := ih (digit n b) (fun c hc => hhead c (List.mem_cons_of_mem _ hc)) hrange
    refine ⟨hshift n (by omega), fun _ => ?_⟩
    rw [hvalue, hnext, UInt64.toNat_ofNat', UInt64.toNat_ofNat']
    exact ⟨by omega, hloop⟩

theorem noWrap_terminated {bytes : List UInt8} (h : Terminated bytes)
    (hrange : value bytes < 2 ^ 64) (rest : List UInt8) : NoWrap 0 (bytes ++ rest) := by
  rcases h.ends with ⟨head, last, rfl, hhead, hlast⟩
  rw [value_append_last] at hrange
  rw [List.append_assoc]
  exact noWrap_digits 0 head last rest hhead hlast hrange

/-- Each number has exactly one string of bytes, the one that is written for it,
and whatever follows that string, it is read back in the range of `uint64_t`. -/
theorem each_number_has_one_string_of_bytes (n : UInt64) :
    (∀ bytes, ReadsAs n bytes ↔ bytes = varInt n.toNat) ∧
      ∀ rest, readVarint128 (varInt n.toNat ++ rest) = some (n, rest) ∧
        NoWrap 0 (varInt n.toNat ++ rest) := by
  have hvalue : ∀ bytes, ReadsAs n bytes → value bytes = n.toNat := by
    intro bytes h
    have hread := readVarint128_terminated h.terminated []
    rw [List.append_nil, h.reads] at hread
    have hn : n = UInt64.ofNat (value bytes) := (Prod.mk.inj (Option.some.inj hread)).1
    rw [hn, UInt64.toNat_ofNat_of_lt' h.inRange]
  have hrange : value (varInt n.toNat) < 2 ^ 64 := by
    rw [value_varInt]
    exact n.toNat_lt
  refine ⟨fun bytes => ⟨fun h => ?_, ?_⟩, fun rest => ⟨readVarint128_varInt n rest, ?_⟩⟩
  · rw [← hvalue bytes h, varInt_of_value h.terminated]
  · rintro rfl
    have hread := readVarint128_varInt n []
    rw [List.append_nil] at hread
    exact ⟨varInt_terminated _, hrange, hread⟩
  · exact noWrap_terminated (varInt_terminated _) hrange rest

/-! ## Fields of fixed length -/

theorem readBytes_append {n : Nat} {bytes : List UInt8} (h : bytes.length = n) (rest : List UInt8) :
    readBytes n (bytes ++ rest) = some (bytes, rest) := by
  subst h
  simp [readBytes]

theorem readUInt32_append (v : UInt32) (rest : List UInt8) :
    readUInt32 (leBytes 4 v.toNat ++ rest) = some (v, rest) := by
  unfold readUInt32
  rw [readBytes_append (leBytes_length 4 _)]
  simp only [bind, Option.bind, pure]
  rw [leVal_leBytes_of_lt v.toNat_lt, UInt32.ofNat_toNat]

theorem readHashBytes_append (hash : Hash256) (rest : List UInt8) :
    readHashBytes (hash.toList ++ rest) = some (hash, rest) := by
  unfold readHashBytes
  rw [dif_pos (by simp)]
  have htake : (hash.toList ++ rest).take 32 = hash.toList := List.take_left' (by simp)
  have hdrop : (hash.toList ++ rest).drop 32 = rest := List.drop_left' (by simp)
  simp only [htake, hdrop]
  rfl

/-- A field that is read when the record has it, and keeps its value `d` else. -/
theorem readVarint128If_optional (present : Prop) [Decidable present] (n d : UInt64)
    (rest : List UInt8) :
    readVarint128If present d (CDiskBlockIndex.optional present n ++ rest) =
      some (if present then n else d, rest) := by
  unfold CDiskBlockIndex.optional readVarint128If
  by_cases h : present
  · simp only [if_pos h, readVarint128_varInt]
  · simp only [if_neg h, List.nil_append]

/-! ## The round trip -/

theorem readVarints_append (obj : CDiskBlockIndex) (this : CBlockIndex) (rest : List UInt8) :
    this.readVarints (obj.varints ++ rest) =
      some ({ this with
        mVersionNumber := obj.version, mBlockHeight := obj.nHeight, mBlockStatus := obj.nStatus
        mTransactionCount := obj.nTx
        mFileIndex := if obj.hasFile then obj.nFile else this.mFileIndex
        mFileOffset := if obj.hasData then obj.nDataPos else this.mFileOffset
        mUndoOffset := if obj.hasUndo then obj.nUndoPos else this.mUndoOffset }, rest) := by
  have hfile := readVarint128If_optional obj.hasFile obj.nFile this.mFileIndex
  have hdata := readVarint128If_optional obj.hasData obj.nDataPos this.mFileOffset
  have hundo := readVarint128If_optional obj.hasUndo obj.nUndoPos this.mUndoOffset
  unfold CBlockIndex.readVarints CDiskBlockIndex.varints BLOCK_HAVE_MASK
  simp only [List.append_assoc, readVarint128_varInt, Option.bind_eq_bind, Option.bind_some, hfile,
    hdata, hundo]
  rfl

theorem readHeader_append (obj : CDiskBlockIndex) (this : CBlockIndex) (rest : List UInt8) :
    this.readHeader (obj.header ++ rest) =
      some ({ this with
        mBlockVersion := obj.nVersion, mHashPrevious := obj.hashPrev
        mHashMerkleRoot := obj.hashMerkleRoot, mTime := obj.nTime, mBits := obj.nBits
        mNonce := obj.nNonce }, rest) := by
  unfold CBlockIndex.readHeader CDiskBlockIndex.header
  simp only [List.append_assoc, readUInt32_append, readHashBytes_append, Option.bind_eq_bind,
    Option.bind_some, Int32.toInt32_toUInt32]
  rfl

/-- The decoder undoes the serialization of every record, whatever follows it. -/
theorem a_serialized_block_index_is_decoded (obj : CDiskBlockIndex) (blockHash : Hash256)
    (rest : List UInt8) :
    (CBlockIndex.new blockHash).readBlockIndex (obj.serialize ++ rest) obj.serialize.length =
      some { index := obj.decoded blockHash, scan := rest, sizeAsExpected := true } := by
  have hsize : (obj.serialize ++ rest).length - rest.length = obj.serialize.length := by
    rw [List.length_append, Nat.add_sub_cancel]
  have hread := readVarints_append obj (CBlockIndex.new blockHash) (obj.header ++ rest)
  rw [← List.append_assoc] at hread
  unfold CBlockIndex.readBlockIndex CDiskBlockIndex.serialize at *
  rw [hread]
  simp only [Option.bind_eq_bind, Option.bind_some, readHeader_append, hsize, beq_self_eq_true]
  rfl

end bitcoinstats.block_index
