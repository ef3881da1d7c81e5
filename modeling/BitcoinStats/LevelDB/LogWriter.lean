-- The writer of the log (`db/log_writer.cc`): records in fragments that never
-- cross a block of 32 KiB, each behind a header with its checksum.
import BitcoinStats.Crc32cStrides
import BitcoinStats.LevelDB.Files

open byte_memory byte_words byte_register

namespace bitcoinstats.leveldb

/-! ## The checksum of a slice -/

/-- `crc32c::Extend` on the bytes of a slice, here at address 0. -/
def crcExtend (crc : UInt32) (data : Slice) : UInt32 :=
  crc32c.Extend (overlay data (fun _ => 0)) crc 0 data.length

def crcValue (data : Slice) : UInt32 := crcExtend 0 data

theorem crcExtend_toBitVec (crc : UInt32) (data : Slice) :
    (crcExtend crc data).toBitVec =
      feedBytes crc32c.polynomial (crc ^^^ crc32c.kCRC32Xor).toBitVec data ^^^
        crc32c.kCRC32Xor.toBitVec := by
  rw [crcExtend, crc32c.Extend_toBitVec, window_overlay (by omega), List.drop_zero, List.take_length]

/-- The checksum goes on where it stopped. -/
theorem crcExtend_append (crc : UInt32) (xs ys : Slice) :
    crcExtend (crcExtend crc xs) ys = crcExtend crc (xs ++ ys) := by
  apply UInt32.toBitVec_inj.mp
  rw [crcExtend_toBitVec, crcExtend_toBitVec, UInt32.toBitVec_xor, crcExtend_toBitVec,
    BitVec.xor_assoc, BitVec.xor_self, BitVec.xor_zero, feedBytes_append]

theorem Unmask_Mask (crc : UInt32) : crc32c.Unmask (crc32c.Mask crc) = crc := by
  have hsub : crc32c.Mask crc - crc32c.kMaskDelta = (crc >>> 15) ||| (crc <<< 17) := by
    rw [crc32c.Mask]
    exact UInt32.add_sub_cancel _ _
  rw [crc32c.Unmask]
  simp only [hsub]
  apply UInt32.toBitVec_inj.mp
  rw [UInt32.toBitVec_or, UInt32.toBitVec_shiftRight, UInt32.toBitVec_shiftLeft, UInt32.toBitVec_or,
    UInt32.toBitVec_shiftRight, UInt32.toBitVec_shiftLeft]
  -- bit by bit, a rotation and back
  apply BitVec.eq_of_getLsbD_eq
  intro i hi
  simp only [UInt32.toBitVec_ofNat, BitVec.ofNat_eq_ofNat, BitVec.reduceMod, BitVec.ushiftRight_eq',
    BitVec.toNat_ofNat, Nat.reducePow, Nat.reduceMod, BitVec.shiftLeft_eq', BitVec.getLsbD_or,
    BitVec.getLsbD_ushiftRight, BitVec.getLsbD_shiftLeft]
  grind

namespace log

inductive RecordType where
  | kZeroType
  | kFullType
  | kFirstType
  | kMiddleType
  | kLastType
  deriving DecidableEq

def RecordType.code : RecordType → UInt8
  | .kZeroType => 0
  | .kFullType => 1
  | .kFirstType => 2
  | .kMiddleType => 3
  | .kLastType => 4

def kBlockSize : Nat := 32768

def kHeaderSize : Nat := 4 + 2 + 1

/-- The entries of `type_crc_`. -/
def typeCrc (t : RecordType) : UInt32 := crcValue [t.code]

structure Writer where
  dest : WritableFile
  block_offset : Nat

/-- The constructor; a new file has no bytes. -/
def Writer.new (dest : WritableFile) (dest_length : Nat) : Writer :=
  { dest, block_offset := dest_length % kBlockSize }

/-- The seven bytes before a payload. -/
def header (t : RecordType) (payload : Slice) : Slice :=
  let crc := crc32c.Mask (crcExtend (typeCrc t) payload)
  leBytes 4 crc.toNat ++
    [UInt8.ofNat (payload.length &&& 255), UInt8.ofNat (payload.length >>> 8), t.code]

def Writer.EmitPhysicalRecord (w : Writer) (t : RecordType) (payload : Slice) : Status × Writer :=
  let (s, dest) := w.dest.Append (header t payload)
  let (s, dest) := if s.ok then dest.Append payload else (s, dest)
  (s, { dest, block_offset := w.block_offset + kHeaderSize + payload.length })

/-- Too little is left for a header: the trailer is filled, whatever becomes of it, and the next
block begins. -/
def Writer.switchBlock (w : Writer) : Writer :=
  let leftover := kBlockSize - w.block_offset
  if leftover < kHeaderSize then
    let dest := if leftover > 0 then (w.dest.Append (List.replicate leftover 0)).2 else w.dest
    { dest, block_offset := 0 }
  else w

def fragmentType (begin atEnd : Bool) : RecordType :=
  if begin && atEnd then .kFullType else if begin then .kFirstType
  else if atEnd then .kLastType else .kMiddleType

theorem switchBlock_offset (w : Writer) : w.switchBlock.block_offset =
    if kBlockSize - w.block_offset < kHeaderSize then 0 else w.block_offset := by
  rw [Writer.switchBlock]
  split <;> rfl

theorem EmitPhysicalRecord_offset (w : Writer) (t : RecordType) (payload : Slice) :
    (w.EmitPhysicalRecord t payload).2.block_offset =
      w.block_offset + kHeaderSize + payload.length := rfl

/-- A fragment takes bytes, or it is empty and fills its block. -/
theorem fragments_measure {o o' n : ℕ} (ho : o' = if kBlockSize - o < kHeaderSize then 0 else o)
    (hleft : n - min n (kBlockSize - o' - kHeaderSize) > 0) :
    2 * (n - min n (kBlockSize - o' - kHeaderSize)) +
        (if kBlockSize - (o' + kHeaderSize + min (min n (kBlockSize - o' - kHeaderSize)) n) = kHeaderSize
          then 1 else 0) <
      2 * n + (if kBlockSize - o = kHeaderSize then 1 else 0) := by
  have hblock : kBlockSize = 32768 := rfl
  have hheader : kHeaderSize = 7 := rfl
  split_ifs at ho ⊢ <;> omega

/-- The loop of `AddRecord` on what is left of the record. -/
def Writer.addFragments (w : Writer) (ptr : Slice) (begin : Bool) : Status × Writer :=
  let w' := w.switchBlock
  let avail := kBlockSize - w'.block_offset - kHeaderSize
  let fragment_length := min ptr.length avail
  let atEnd : Bool := ptr.length = fragment_length
  let r := w'.EmitPhysicalRecord (fragmentType begin atEnd) (ptr.take fragment_length)
  let left := ptr.drop fragment_length
  if r.1.ok ∧ left.length > 0 then r.2.addFragments left false else r
termination_by 2 * ptr.length + (if kBlockSize - w.block_offset = kHeaderSize then 1 else 0)
decreasing_by
  rename_i h
  have hleft := h.2
  rw [List.length_drop] at hleft
  rw [List.length_drop, EmitPhysicalRecord_offset, List.length_take]
  exact fragments_measure (switchBlock_offset w) hleft

def Writer.AddRecord (w : Writer) (slice : Slice) : Status × Writer := w.addFragments slice true

/-- The records in their order, whatever becomes of each. -/
def Writer.AddRecords (w : Writer) : List Slice → List Status × Writer
  | [] => ([], w)
  | record :: records =>
    let (s, w') := w.AddRecord record
    let (ss, w'') := w'.AddRecords records
    (s :: ss, w'')

/-! ## The layout of a log -/

/-- Where the next fragment begins in its block, and the bytes before it. -/
def startOf (o : ℕ) : ℕ := if kBlockSize - o < kHeaderSize then 0 else o

def trailer (o : ℕ) : Slice := if kBlockSize - o < kHeaderSize then List.replicate (kBlockSize - o) 0 else []

def availOf (o : ℕ) : ℕ := kBlockSize - startOf o - kHeaderSize

def physical (t : RecordType) (payload : Slice) : Slice := header t payload ++ payload

theorem layout_measure {o n : ℕ} (h : availOf o < n) :
    2 * (n - availOf o) + (if kBlockSize - kBlockSize = kHeaderSize then 1 else 0) <
      2 * n + (if kBlockSize - o = kHeaderSize then 1 else 0) := by
  have hblock : kBlockSize = 32768 := rfl
  have hheader : kHeaderSize = 7 := rfl
  simp only [availOf, startOf] at *
  split_ifs at * <;> omega

/-- The bytes of what is left of a record from an offset in a block on, and the offset behind. -/
def fragments (o : ℕ) (begin : Bool) (ptr : Slice) : Slice × ℕ :=
  if ptr.length ≤ availOf o then
    (trailer o ++ physical (fragmentType begin true) ptr, startOf o + kHeaderSize + ptr.length)
  else
    let rest := fragments kBlockSize false (ptr.drop (availOf o))
    (trailer o ++ physical (fragmentType begin false) (ptr.take (availOf o)) ++ rest.1, rest.2)
termination_by 2 * ptr.length + (if kBlockSize - o = kHeaderSize then 1 else 0)
decreasing_by
  rename_i h
  rw [List.length_drop]
  exact layout_measure (by omega)

def layout : ℕ → List Slice → Slice × ℕ
  | o, [] => ([], o)
  | o, record :: records =>
    let first := fragments o true record
    let rest := layout first.2 records
    (first.1 ++ rest.1, rest.2)

@[simp] theorem length_header (t : RecordType) (payload : Slice) :
    (header t payload).length = kHeaderSize := by
  simp [header, kHeaderSize]

@[simp] theorem length_physical (t : RecordType) (payload : Slice) :
    (physical t payload).length = kHeaderSize + payload.length := by
  simp [physical]

/-- What the writer does for bytes: they are written as far as the room goes, the result says
whether they all were, and then the offset is known. -/
structure Adds (w : Writer) (r : Status × Writer) (bytes : Slice) (o : ℕ) : Prop where
  wrote : Wrote w.dest r.2.dest bytes
  ok : r.1.ok = true ↔ bytes.length ≤ w.dest.room
  offset : r.1.ok = true → r.2.block_offset = o
  inside : r.2.block_offset ≤ kBlockSize

theorem EmitPhysicalRecord_adds (w : Writer) (t : RecordType) (payload : Slice)
    (hinside : w.block_offset + kHeaderSize + payload.length ≤ kBlockSize) :
    Adds w (w.EmitPhysicalRecord t payload) (physical t payload)
      (w.block_offset + kHeaderSize + payload.length) := by
  have hheader := Append_wrote w.dest (header t payload)
  have hok := Append_ok w.dest (header t payload)
  rw [length_header] at hok
  cases hs : (w.dest.Append (header t payload)).1.ok with
  | true =>
    have hroom := hok.mp hs
    have hpayload := Append_wrote (w.dest.Append (header t payload)).2 payload
    refine ⟨?_, ?_, fun _ => rfl, hinside⟩
    · simp only [Writer.EmitPhysicalRecord, hs, if_true]
      exact hheader.trans hpayload
    · simp only [Writer.EmitPhysicalRecord, hs, if_true]
      rw [Append_ok, hheader.room, length_header, length_physical]
      omega
  | false =>
    have hroom : w.dest.room < kHeaderSize := by
      rw [hs] at hok
      simpa using hok
    refine ⟨?_, ?_, fun _ => rfl, hinside⟩
    · simp only [Writer.EmitPhysicalRecord, hs, Bool.false_eq_true, if_false]
      exact hheader.of_full (by rw [length_header]; exact hroom) payload
    · simp only [Writer.EmitPhysicalRecord, hs, Bool.false_eq_true, if_false]
      rw [length_physical, false_iff]
      omega

theorem switchBlock_wrote (w : Writer) : Wrote w.dest w.switchBlock.dest (trailer w.block_offset) ∧
    w.switchBlock.block_offset = startOf w.block_offset := by
  rw [Writer.switchBlock, trailer, startOf]
  split
  · refine ⟨?_, rfl⟩
    split
    · exact Append_wrote _ _
    · rename_i hzero
      have hnone : kBlockSize - w.block_offset = 0 := by omega
      rw [hnone]
      exact wrote_nothing _
  · exact ⟨wrote_nothing _, rfl⟩

/-- The trailer before a fragment, and the fragment. -/
theorem emit_adds (w : Writer) (t : RecordType) (payload : Slice)
    (hinside : startOf w.block_offset + kHeaderSize + payload.length ≤ kBlockSize) :
    Adds w (w.switchBlock.EmitPhysicalRecord t payload) (trailer w.block_offset ++ physical t payload)
      (startOf w.block_offset + kHeaderSize + payload.length) := by
  obtain ⟨hswitch, hoffset⟩ := switchBlock_wrote w
  have hemit := EmitPhysicalRecord_adds w.switchBlock t payload (by rw [hoffset]; exact hinside)
  rw [hoffset] at hemit
  refine ⟨hswitch.trans hemit.wrote, ?_, hemit.offset, hemit.inside⟩
  have hheader : kHeaderSize = 7 := rfl
  rw [hemit.ok, hswitch.room, List.length_append, length_physical]
  omega

theorem startOf_add_avail {o : ℕ} (ho : o ≤ kBlockSize) :
    startOf o + kHeaderSize + availOf o = kBlockSize := by
  have hblock : kBlockSize = 32768 := rfl
  have hheader : kHeaderSize = 7 := rfl
  simp only [availOf, startOf] at *
  split_ifs <;> omega

theorem addFragments_adds (w : Writer) (ptr : Slice) (begin : Bool) (ho : w.block_offset ≤ kBlockSize) :
    Adds w (w.addFragments ptr begin) (fragments w.block_offset begin ptr).1
      (fragments w.block_offset begin ptr).2 := by
  induction hm : 2 * ptr.length + (if kBlockSize - w.block_offset = kHeaderSize then 1 else 0)
    using Nat.strong_induction_on generalizing w ptr begin with
  | _ m ih =>
    subst hm
    have hfull := startOf_add_avail ho
    have havail : kBlockSize - w.switchBlock.block_offset - kHeaderSize = availOf w.block_offset := by
      rw [(switchBlock_wrote w).2, availOf]
    rw [Writer.addFragments, fragments]
    simp only [havail]
    by_cases hlast : ptr.length ≤ availOf w.block_offset
    · simp only [min_eq_left hlast, if_pos hlast, List.take_length, List.drop_length, decide_true,
        List.length_nil, gt_iff_lt, Nat.lt_irrefl, and_false, if_false]
      exact emit_adds w _ ptr (by omega)
    · have hlt : availOf w.block_offset < ptr.length := by omega
      have hne : ¬ ptr.length = availOf w.block_offset := by omega
      have hleft : (ptr.drop (availOf w.block_offset)).length > 0 := by
        rw [List.length_drop]
        omega
      have hemit := emit_adds w (fragmentType begin false) (ptr.take (availOf w.block_offset))
        (by rw [List.length_take, min_eq_left hlt.le]; exact hfull.le)
      simp only [min_eq_right hlt.le, if_neg hlast, hne, decide_false, hleft, and_true]
      set r := w.switchBlock.EmitPhysicalRecord (fragmentType begin false)
        (ptr.take (availOf w.block_offset)) with hr
      rw [List.length_take, min_eq_left hlt.le, hfull] at hemit
      cases hok : r.1.ok with
      | true =>
        have hoffset := hemit.offset hok
        have hmeasure := layout_measure hlt
        have hrest := ih _ (by rw [List.length_drop, hoffset]; exact hmeasure) r.2
          (ptr.drop (availOf w.block_offset)) false hoffset.le rfl
        have hroom := hemit.ok.mp hok
        rw [hoffset] at hrest
        simp only [if_true]
        refine ⟨hemit.wrote.trans hrest.wrote, ?_, hrest.offset, hrest.inside⟩
        rw [hrest.ok, hemit.wrote.room]
        simp only [List.length_append] at hroom ⊢
        omega
      | false =>
        -- what did not fit is the end of the file
        have hroom : w.dest.room < (trailer w.block_offset ++
            physical (fragmentType begin false) (ptr.take (availOf w.block_offset))).length := by
          rw [← Nat.not_le, ← hemit.ok, hok]
          decide
        simp only [Bool.false_eq_true, if_false]
        refine ⟨hemit.wrote.of_full hroom _, ?_, ?_, hemit.inside⟩
        · rw [hok, List.length_append]
          simp only [Bool.false_eq_true, false_iff]
          omega
        · intro h
          rw [hok] at h
          cases h

theorem AddRecord_adds (w : Writer) (record : Slice) (ho : w.block_offset ≤ kBlockSize) :
    Adds w (w.AddRecord record) (fragments w.block_offset true record).1
      (fragments w.block_offset true record).2 := addFragments_adds w record true ho

theorem fragments_pos (o : ℕ) (begin : Bool) (ptr : Slice) : 0 < (fragments o begin ptr).1.length := by
  have hheader : kHeaderSize = 7 := rfl
  rw [fragments]
  split
  · simp only [List.length_append, length_physical]
    omega
  · simp only [List.length_append, length_physical]
    omega

/-- The records as far as they fit: which of them did, and the front of their layout. -/
theorem AddRecords_adds (w : Writer) (records : List Slice) (ho : w.block_offset ≤ kBlockSize) :
    Wrote w.dest (w.AddRecords records).2.dest (layout w.block_offset records).1 ∧
      ∀ i, ((w.AddRecords records).1[i]?).map Status.ok = (records[i]?).map
        (fun _ => decide ((layout w.block_offset (records.take (i + 1))).1.length ≤ w.dest.room)) := by
  induction records generalizing w with
  | nil => exact ⟨wrote_nothing _, fun i => by simp [Writer.AddRecords]⟩
  | cons record records ih =>
    have hadd := AddRecord_adds w record ho
    have hok := hadd.ok
    obtain ⟨hwrote, hstatus⟩ := ih (w.AddRecord record).2 hadd.inside
    have hfirst : (w.AddRecord record).1.ok = decide ((fragments w.block_offset true record).1.length ≤
        w.dest.room) := by
      rw [Bool.eq_iff_iff, hok, decide_eq_true_eq]
    simp only [Writer.AddRecords, layout, List.take_succ_cons]
    by_cases hroom : (fragments w.block_offset true record).1.length ≤ w.dest.room
    · rw [hadd.offset (hok.mpr hroom)] at hwrote hstatus
      refine ⟨hadd.wrote.trans hwrote, ?_⟩
      intro i
      cases i with
      | zero => simpa [layout] using hfirst
      | succ i =>
        have hrest := hstatus i
        rw [hadd.wrote.room] at hrest
        rw [List.getElem?_cons_succ, List.getElem?_cons_succ, hrest]
        congr 1
        funext _
        rw [List.length_append]
        congr 1
        simp only [eq_iff_iff]
        omega
    · have hfull : w.dest.room < (fragments w.block_offset true record).1.length := by omega
      refine ⟨(hadd.wrote.trans_full hfull hwrote).of_full hfull _, ?_⟩
      intro i
      cases i with
      | zero => simpa [layout] using hfirst
      | succ i =>
        have hrest := hstatus i
        rw [List.getElem?_cons_succ, List.getElem?_cons_succ, hrest]
        cases records with
        | nil => rfl
        | cons next records =>
          -- no later record fits either
          have hpos := fragments_pos (w.AddRecord record).2.block_offset true next
          congr 1
          funext _
          rw [List.take_succ_cons, layout]
          simp only [List.length_append, hadd.wrote.room]
          rw [decide_eq_decide]
          omega

end log

end bitcoinstats.leveldb
