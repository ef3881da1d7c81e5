-- The reader of the log (`db/log_reader.cc`): blocks into a buffer, physical
-- records out of it, and the fragments of a record put together.
import BitcoinStats.LevelDB.LogWriter

open byte_memory byte_words

namespace bitcoinstats.leveldb.log

def kEof : Nat := 5

def kBadRecord : Nat := 6

/-- A reader with a reporter; `reports` are its calls, the first one first. -/
structure Reader where
  file : SequentialFile
  reports : List (UInt64 × Status)
  checksum : Bool
  buffer : Slice
  eof : Bool
  last_record_offset : UInt64
  end_of_buffer_offset : UInt64
  initial_offset : UInt64
  resyncing : Bool

def Reader.new (file : SequentialFile) (checksum : Bool) (initial_offset : UInt64) : Reader where
  file := file
  reports := []
  checksum := checksum
  buffer := []
  eof := false
  last_record_offset := 0
  end_of_buffer_offset := 0
  initial_offset := initial_offset
  resyncing := initial_offset > 0

def Reader.ReportDrop (r : Reader) (bytes : Nat) (reason : Status) : Reader :=
  if r.end_of_buffer_offset - size64 r.buffer - UInt64.ofNat bytes ≥ r.initial_offset then
    { r with reports := r.reports ++ [(UInt64.ofNat bytes, reason)] }
  else r

def Reader.ReportCorruption (r : Reader) (bytes : Nat) (reason : String) : Reader :=
  r.ReportDrop bytes (.Corruption reason)

/-- `header[6]` is a `char`, made an `unsigned int`. -/
def typeOf (b : UInt8) : Nat := if b < 128 then b.toNat else b.toNat + 0xffffff00

/-- The part of `ReadPhysicalRecord` behind a buffer with a header: a type or one of the two special
values, and the payload. -/
def Reader.parsePhysicalRecord (r : Reader) : Nat × Slice × Reader :=
  let header := r.buffer
  let a := (header.getD 4 0).toNat
  let b := (header.getD 5 0).toNat
  let type := typeOf (header.getD 6 0)
  let length := a ||| (b <<< 8)
  if kHeaderSize + length > r.buffer.length then
    let drop_size := r.buffer.length
    let r := { r with buffer := [] }
    if !r.eof then (kBadRecord, [], r.ReportCorruption drop_size "bad record length")
    else (kEof, [], r)
  else if type = 0 ∧ length = 0 then (kBadRecord, [], { r with buffer := [] })
  else if r.checksum ∧ crcValue ((header.drop 6).take (1 + length)) ≠
      crc32c.Unmask (DecodeFixed32 header) then
    let drop_size := r.buffer.length
    (kBadRecord, [], { r with buffer := [] }.ReportCorruption drop_size "checksum mismatch")
  else
    let r := { r with buffer := r.buffer.drop (kHeaderSize + length) }
    if r.end_of_buffer_offset - size64 r.buffer - UInt64.ofNat kHeaderSize - UInt64.ofNat length <
        r.initial_offset then (kBadRecord, [], r)
    else (type, (header.drop kHeaderSize).take length, r)

theorem Read_rest {f f' : SequentialFile} {n : Nat} {buffer : Slice}
    (h : f.Read n = .ok (buffer, f')) : buffer = f.rest.take n ∧ f'.rest = f.rest.drop n := by
  rw [SequentialFile.Read] at h
  split at h
  · split at h
    · cases h
    · cases h
      exact ⟨rfl, rfl⟩
  · cases h
    exact ⟨rfl, rfl⟩

/-- The next block was read: the last read was a full read, and what was left of it a trailer. -/
def Reader.refilled (r : Reader) (buffer : Slice) (file : SequentialFile) : Reader :=
  { r with
    file := file
    buffer := buffer
    end_of_buffer_offset := r.end_of_buffer_offset + size64 buffer
    eof := buffer.length < kBlockSize }

def Reader.ReadPhysicalRecord (r : Reader) : Nat × Slice × Reader :=
  if r.buffer.length < kHeaderSize then
    if heof : r.eof = false then
      match hread : r.file.Read kBlockSize with
      | .error status =>
        let r := { r with buffer := [] }.ReportDrop kBlockSize status
        (kEof, [], { r with eof := true })
      | .ok (buffer, file) => (r.refilled buffer file).ReadPhysicalRecord
    else (kEof, [], { r with buffer := [] })
  else r.parsePhysicalRecord
termination_by r.file.rest.length + (if r.eof then 0 else 1)
decreasing_by
  obtain ⟨hbuffer, hrest⟩ := Read_rest hread
  have hblock : kBlockSize = 32768 := rfl
  simp only [Reader.refilled, hbuffer, hrest, heof, List.length_drop, List.length_take, decide_eq_true_eq,
    Bool.false_eq_true, if_false]
  split_ifs <;> omega

theorem ReadPhysicalRecord_refill {r : Reader} {buffer : Slice} {file : SequentialFile}
    (hshort : r.buffer.length < kHeaderSize) (heof : r.eof = false)
    (hread : r.file.Read kBlockSize = .ok (buffer, file)) :
    r.ReadPhysicalRecord = (r.refilled buffer file).ReadPhysicalRecord := by
  rw [Reader.ReadPhysicalRecord, if_pos hshort, dif_pos heof]
  split
  · rename_i herror
    rw [hread] at herror
    cases herror
  · rename_i hok
    rw [hread] at hok
    cases hok
    rfl

/-- The bytes that a reader has before it. -/
def Reader.pending (r : Reader) : Slice := r.buffer ++ r.file.rest

theorem ReportDrop_pending (r : Reader) (bytes : Nat) (reason : Status) :
    (r.ReportDrop bytes reason).pending = r.pending := by
  rw [Reader.ReportDrop]
  split <;> rfl

theorem ReportCorruption_pending (r : Reader) (bytes : Nat) (reason : String) :
    (r.ReportCorruption bytes reason).pending = r.pending := ReportDrop_pending r bytes _

/-- Without the end of the file, bytes are taken. -/
theorem parsePhysicalRecord_lt (r : Reader) (h : ¬ r.buffer.length < kHeaderSize)
    (hne : r.parsePhysicalRecord.1 ≠ kEof) :
    r.parsePhysicalRecord.2.2.pending.length < r.pending.length := by
  have hheader : kHeaderSize = 7 := rfl
  have hcleared : ({ r with buffer := [] } : Reader).pending.length < r.pending.length := by
    simp only [Reader.pending, List.length_append, List.length_nil]
    omega
  rw [Reader.parsePhysicalRecord] at hne ⊢
  simp only at hne ⊢
  split
  · rename_i hlong
    rw [if_pos hlong] at hne
    split
    · rw [ReportCorruption_pending]
      exact hcleared
    · rename_i heof
      rw [if_neg heof] at hne
      exact absurd rfl hne
  · split
    · exact hcleared
    · split
      · rw [ReportCorruption_pending]
        exact hcleared
      · have htaken : ∀ n, kHeaderSize ≤ n →
            ({ r with buffer := r.buffer.drop n } : Reader).pending.length < r.pending.length := by
          intro n hn
          simp only [Reader.pending, List.length_append, List.length_drop]
          omega
        split
        · exact htaken _ (by omega)
        · exact htaken _ (by omega)

theorem ReadPhysicalRecord_lt (r : Reader) (hne : r.ReadPhysicalRecord.1 ≠ kEof) :
    r.ReadPhysicalRecord.2.2.pending.length < r.pending.length := by
  induction r using Reader.ReadPhysicalRecord.induct with
  | case1 r hshort heof status hread =>
    rw [Reader.ReadPhysicalRecord, if_pos hshort, dif_pos heof] at hne
    split at hne
    · exact absurd rfl hne
    · rename_i hok
      rw [hread] at hok
      cases hok
  | case2 r hshort heof buffer file hread ih =>
    rw [ReadPhysicalRecord_refill hshort heof hread] at hne ⊢
    have hlt := ih hne
    obtain ⟨hbuffer, hrest⟩ := Read_rest hread
    have hpending : (r.refilled buffer file).pending = r.file.rest := by
      rw [Reader.pending, Reader.refilled, hbuffer, hrest, List.take_append_drop]
    have hle : r.file.rest.length ≤ r.pending.length := by
      rw [Reader.pending, List.length_append]
      omega
    rw [hpending] at hlt
    omega
  | case3 r hshort heof =>
    rw [Reader.ReadPhysicalRecord, if_pos hshort, dif_neg heof] at hne
    exact absurd rfl hne
  | case4 r hlong =>
    rw [Reader.ReadPhysicalRecord, if_neg hlong] at hne ⊢
    exact parsePhysicalRecord_lt r hlong hne

/-- The local variables of `ReadRecord` in a turn of its loop. -/
structure Assembly where
  reader : Reader
  scratch : Slice
  in_fragmented_record : Bool
  prospective_record_offset : UInt64

/-- What the switch does with one physical record: the call returns, or the loop goes on. -/
def Assembly.switch (s : Assembly) (record_type : Nat) (fragment : Slice)
    (physical_record_offset : UInt64) : Option Slice × Reader ⊕ Assembly :=
  let r := s.reader
  if record_type = 1 then
    let r := if s.in_fragmented_record ∧ s.scratch ≠ [] then
      r.ReportCorruption s.scratch.length "partial record without end(1)" else r
    .inl (some fragment, { r with last_record_offset := physical_record_offset })
  else if record_type = 2 then
    let r := if s.in_fragmented_record ∧ s.scratch ≠ [] then
      r.ReportCorruption s.scratch.length "partial record without end(2)" else r
    .inr ⟨r, fragment, true, physical_record_offset⟩
  else if record_type = 3 then
    if !s.in_fragmented_record then
      .inr { s with
        reader := r.ReportCorruption fragment.length "missing start of fragmented record(1)" }
    else .inr { s with scratch := s.scratch ++ fragment }
  else if record_type = 4 then
    if !s.in_fragmented_record then
      .inr { s with
        reader := r.ReportCorruption fragment.length "missing start of fragmented record(2)" }
    else
      .inl (some (s.scratch ++ fragment),
        { r with last_record_offset := s.prospective_record_offset })
  else if record_type = kEof then .inl (none, r)
  else if record_type = kBadRecord then
    if s.in_fragmented_record then
      .inr ⟨r.ReportCorruption s.scratch.length "error in middle of record", [], false,
        s.prospective_record_offset⟩
    else .inr s
  else
    let dropped := fragment.length + (if s.in_fragmented_record then s.scratch.length else 0)
    .inr ⟨r.ReportCorruption dropped ("unknown record type " ++ toString record_type), [], false,
      s.prospective_record_offset⟩

/-- One turn of the loop of `ReadRecord`. -/
def Assembly.step (s : Assembly) : Option Slice × Reader ⊕ Assembly :=
  let (record_type, fragment, r) := s.reader.ReadPhysicalRecord
  let physical_record_offset := r.end_of_buffer_offset - size64 r.buffer - UInt64.ofNat kHeaderSize -
    size64 fragment
  if r.resyncing then
    if record_type = 3 then .inr { s with reader := r }
    else if record_type = 4 then .inr { s with reader := { r with resyncing := false } }
    else
      { s with reader := { r with resyncing := false } }.switch record_type fragment
        physical_record_offset
  else { s with reader := r }.switch record_type fragment physical_record_offset

theorem switch_inr {s s' : Assembly} {record_type : Nat} {fragment : Slice} {offset : UInt64}
    (h : s.switch record_type fragment offset = .inr s') :
    record_type ≠ kEof ∧ s'.reader.pending = s.reader.pending := by
  have heof : kEof = 5 := rfl
  rw [Assembly.switch] at h
  simp only at h
  split at h
  · cases h
  · split at h
    · cases h
      refine ⟨by omega, ?_⟩
      split
      · exact ReportCorruption_pending _ _ _
      · rfl
    · split at h
      · refine ⟨by omega, ?_⟩
        split at h <;> cases h
        · exact ReportCorruption_pending _ _ _
        · rfl
      · split at h
        · split at h <;> cases h
          exact ⟨by omega, ReportCorruption_pending _ _ _⟩
        · split at h
          · cases h
          · rename_i hne
            refine ⟨hne, ?_⟩
            split at h
            · split at h <;> cases h
              · exact ReportCorruption_pending _ _ _
              · rfl
            · cases h
              exact ReportCorruption_pending _ _ _

theorem step_lt {s s' : Assembly} (h : s.step = .inr s') :
    s'.reader.pending.length < s.reader.pending.length := by
  have hread := ReadPhysicalRecord_lt s.reader
  have heof : kEof = 5 := rfl
  rw [Assembly.step] at h
  simp only at h
  split at h
  · split at h
    · rename_i htype
      cases h
      exact hread (by omega)
    · split at h
      · rename_i htype
        cases h
        exact hread (by omega)
      · obtain ⟨hne, hpending⟩ := switch_inr h
        rw [hpending]
        exact hread hne
  · obtain ⟨hne, hpending⟩ := switch_inr h
    rw [hpending]
    exact hread hne

def Assembly.run (s : Assembly) : Option Slice × Reader :=
  match _hstep : s.step with
  | .inl result => result
  | .inr s' => s'.run
termination_by s.reader.pending.length
decreasing_by exact step_lt _hstep

/-- The block of the first record to return; a block is not searched from its trailer on. -/
def Reader.initialBlock (r : Reader) : UInt64 :=
  let offset_in_block := r.initial_offset % UInt64.ofNat kBlockSize
  let block_start_location := r.initial_offset - offset_in_block
  if offset_in_block > UInt64.ofNat (kBlockSize - 6) then
    block_start_location + UInt64.ofNat kBlockSize
  else block_start_location

def Reader.skipTo (r : Reader) (block_start_location : UInt64) : Bool × Reader :=
  let r := { r with end_of_buffer_offset := block_start_location }
  if block_start_location > 0 then
    match r.file.Skip block_start_location.toNat with
    | .error status => (false, r.ReportDrop block_start_location.toNat status)
    | .ok file => (true, { r with file := file })
  else (true, r)

def Reader.SkipToInitialBlock (r : Reader) : Bool × Reader := r.skipTo r.initialBlock

/-- `false` is no record. -/
def Reader.ReadRecord (r : Reader) : Option Slice × Reader :=
  let (found, r) := if r.last_record_offset < r.initial_offset then r.SkipToInitialBlock else (true, r)
  if !found then (none, r)
  else Assembly.run ⟨r, [], false, 0⟩

/-! ## Reading on -/

theorem switch_inl {s : Assembly} {record_type : Nat} {fragment record : Slice} {offset : UInt64}
    {r : Reader} (h : s.switch record_type fragment offset = .inl (some record, r)) :
    record_type ≠ kEof ∧ r.pending = s.reader.pending := by
  have heof : kEof = 5 := rfl
  rw [Assembly.switch] at h
  simp only at h
  split at h
  · cases h
    refine ⟨by omega, ?_⟩
    split
    · exact ReportCorruption_pending _ _ _
    · rfl
  · split at h
    · cases h
    · split at h
      · split at h <;> cases h
      · split at h
        · split at h <;> cases h
          exact ⟨by omega, rfl⟩
        · split at h
          · cases h
          · split at h
            · split at h <;> cases h
            · cases h

theorem step_record_lt {s : Assembly} {record : Slice} {r : Reader}
    (h : s.step = .inl (some record, r)) : r.pending.length < s.reader.pending.length := by
  have hread := ReadPhysicalRecord_lt s.reader
  rw [Assembly.step] at h
  simp only at h
  split at h
  · split at h
    · cases h
    · split at h
      · cases h
      · obtain ⟨hne, hpending⟩ := switch_inl h
        rw [hpending]
        exact hread hne
  · obtain ⟨hne, hpending⟩ := switch_inl h
    rw [hpending]
    exact hread hne

theorem run_lt {s : Assembly} {record : Slice} {r : Reader} (h : s.run = (some record, r)) :
    r.pending.length < s.reader.pending.length := by
  induction s using Assembly.run.induct with
  | case1 s result hstep =>
    rw [Assembly.run] at h
    split at h
    · rename_i hstep'
      rw [h] at hstep'
      exact step_record_lt hstep'
    · rename_i hstep'
      rw [hstep] at hstep'
      cases hstep'
  | case2 s s' hstep ih =>
    rw [Assembly.run] at h
    split at h
    · rename_i hstep'
      rw [hstep] at hstep'
      cases hstep'
    · rename_i hstep'
      rw [hstep] at hstep'
      cases hstep'
      exact (ih h).trans (step_lt hstep)

theorem Skip_rest {f f' : SequentialFile} {n : Nat} (h : f.Skip n = .ok f') :
    f'.rest = f.rest.drop n := by
  rw [SequentialFile.Skip] at h
  split at h
  · split at h
    · cases h
    · cases h
      rfl
  · cases h
    rfl

theorem skipTo_le (r : Reader) (location : UInt64) :
    (r.skipTo location).2.pending.length ≤ r.pending.length := by
  rw [Reader.skipTo]
  simp only
  split
  · split
    · rw [ReportDrop_pending]
      rfl
    · rename_i file hskip
      have hrest := Skip_rest hskip
      simp only [Reader.pending, List.length_append, hrest, List.length_drop]
      omega
  · rfl

theorem ReadRecord_lt {r r' : Reader} {record : Slice} (h : r.ReadRecord = (some record, r')) :
    r'.pending.length < r.pending.length := by
  have hskip := skipTo_le r r.initialBlock
  rw [Reader.ReadRecord] at h
  simp only at h
  split at h
  · split at h
    · cases h
    · exact (run_lt h).trans_le hskip
  · split at h
    · cases h
    · exact run_lt h

/-- The loop of the callers: the records up to the first call that finds none. -/
def readLog (r : Reader) : List Slice × Reader :=
  match _hread : r.ReadRecord with
  | (some record, r') =>
    let (records, r'') := readLog r'
    (record :: records, r'')
  | (none, r') => ([], r')
termination_by r.pending.length
decreasing_by exact ReadRecord_lt _hread

end bitcoinstats.leveldb.log
