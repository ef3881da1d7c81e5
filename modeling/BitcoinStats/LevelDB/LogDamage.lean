-- A log with a burst of wrong bits in one payload: the damage is reported, and
-- only the record itself and records that begin in the same block are lost.
import BitcoinStats.LevelDB.LogRecovery

open byte_memory byte_words byte_register

namespace bitcoinstats.leveldb.log

/-- Two payloads of one length that differ, within 32 neighbouring bits. -/
def Burst (payload payload' : Slice) : Prop :=
  payload ≠ payload' ∧ payload'.length = payload.length ∧ ∃ front back xs ys : List Bool,
    bitsOf payload = front ++ xs ++ back ∧ bitsOf payload' = front ++ ys ++ back ∧
      xs.length = ys.length ∧ xs.length ≤ 32

theorem Burst.crc_ne {payload payload' : Slice} (h : Burst payload payload') (crc : UInt32) :
    crcExtend crc payload' ≠ crcExtend crc payload := by
  obtain ⟨hne, hlen, front, back, xs, ys, hx, hy, hsame, hburst⟩ := h
  have hp : crc32c.polynomial.getLsbD 31 = true := by decide
  intro heq
  have hbits := congrArg UInt32.toBitVec heq
  rw [crcExtend_toBitVec, crcExtend_toBitVec, BitVec.xor_left_inj,
    feedBytes_burst crc32c.polynomial hp _ hy hx hsame.symm (hsame ▸ hburst)] at hbits
  exact hne (bitsOf_injective hlen hbits).symm

/-- The bytes of what is left of a record, with a burst in the payload of one fragment. -/
inductive Damaged : ℕ → Bool → Slice → Slice → Prop
  | last {o : ℕ} {begin : Bool} {ptr ptr' : Slice} (hfit : ptr.length ≤ availOf o)
      (hburst : Burst ptr ptr') :
      Damaged o begin ptr (trailer o ++ (header (fragmentType begin true) ptr ++ ptr'))
  | more {o : ℕ} {begin : Bool} {ptr payload' : Slice} (hmore : availOf o < ptr.length)
      (hburst : Burst (ptr.take (availOf o)) payload') :
      Damaged o begin ptr
        (trailer o ++ (header (fragmentType begin false) (ptr.take (availOf o)) ++ payload') ++
          (fragments kBlockSize false (ptr.drop (availOf o))).1)
  | later {o : ℕ} {begin : Bool} {ptr bytes : Slice} (hmore : availOf o < ptr.length)
      (hrest : Damaged kBlockSize false (ptr.drop (availOf o)) bytes) :
      Damaged o begin ptr
        (trailer o ++ physical (fragmentType begin false) (ptr.take (availOf o)) ++ bytes)

/-! ## The damaged fragment -/

/-- The rest of the block was dropped. -/
structure Behind (r : Reader) (pending : Slice) : Prop where
  buffer : r.buffer = []
  rest : r.file.rest = pending
  ended : r.eof = true → pending = []
  sound : r.file.failure = none
  initial : r.initial_offset = 0
  synced : r.resyncing = false

variable {r : Reader} {o : ℕ} {pending : Slice}

theorem Behind.at (h : Behind r pending) (heof : r.eof = false) : At r kBlockSize pending where
  le := le_rfl
  buffer := by simpa using h.buffer
  rest := by simpa using h.rest
  eof := by simpa using heof
  sound := h.sound
  initial := h.initial
  synced := h.synced

theorem ReportDrop_all (r : Reader) (bytes : ℕ) (reason : Status) (h : r.initial_offset = 0) :
    r.ReportDrop bytes reason = { r with reports := r.reports ++ [(UInt64.ofNat bytes, reason)] } := by
  rw [Reader.ReportDrop, h, if_pos UInt64.zero_le]

theorem parse_damaged {t : RecordType} {payload payload' more : Slice} (ht : t ≠ .kZeroType)
    (hbuffer : r.buffer = header t payload ++ (payload' ++ more)) (hlen : payload.length < 65536)
    (hburst : Burst payload payload') (hinitial : r.initial_offset = 0) (hcheck : r.checksum = true) :
    r.parsePhysicalRecord = (kBadRecord, [], { r with
      buffer := []
      reports := r.reports ++ [(UInt64.ofNat r.buffer.length, .Corruption "checksum mismatch")] }) := by
  obtain ⟨h4, h5, h6, hdrop6, -, hcrc⟩ := header_fields t payload (payload' ++ more)
  have hsize : r.buffer.length = kHeaderSize + (payload'.length + more.length) := by
    rw [hbuffer, List.length_append, length_header, List.length_append]
  have hsame := hburst.2.1
  have hfields : (r.buffer.getD 4 0).toNat ||| ((r.buffer.getD 5 0).toNat <<< 8) = payload.length := by
    rw [hbuffer, h4, h5, header_length hlen]
  have htype : typeOf (r.buffer.getD 6 0) = t.code.toNat := by
    rw [hbuffer, h6, typeOf_code]
  have hzero : ¬ (t.code.toNat = 0 ∧ payload.length = 0) := by
    rintro ⟨hcode, -⟩
    cases t <;> first | exact ht rfl | exact absurd hcode (by decide)
  have hvalue : r.checksum = true ∧ crcValue ((r.buffer.drop 6).take (1 + payload.length)) ≠
      crc32c.Unmask (DecodeFixed32 r.buffer) := by
    refine ⟨hcheck, ?_⟩
    rw [hbuffer, hdrop6, hcrc, Unmask_Mask, Nat.add_comm, List.take_succ_cons,
      List.take_left' hsame]
    have hjoin := crcExtend_append 0 [t.code] payload'
    rw [crcValue, show t.code :: payload' = [t.code] ++ payload' by rfl, ← hjoin]
    exact hburst.crc_ne (typeCrc t)
  rw [Reader.parsePhysicalRecord]
  simp only [hfields, htype]
  rw [if_neg (by omega), if_neg hzero, if_pos hvalue, Reader.ReportCorruption]
  exact congrArg (fun x => (kBadRecord, [], x)) (ReportDrop_all _ _ _ hinitial)

/-- A report of damage is made, and nothing before it is taken back. -/
structure Complains (r' r : Reader) : Prop where
  more : r.reports <+: r'.reports
  mismatch : ∃ d, (d, Status.Corruption "checksum mismatch") ∈ r'.reports

/-- The damage is noticed and reported, and the reader goes behind the block. -/
theorem At.read_damaged (h : At r o pending) {t : RecordType} {payload payload' more : Slice}
    (ht : t ≠ .kZeroType) (hlen : payload.length ≤ availOf o) (hburst : Burst payload payload')
    (hcheck : r.checksum = true)
    (hpending : pending = trailer o ++ (header t payload ++ payload') ++ more) :
    ∃ r', r.ReadPhysicalRecord = (kBadRecord, [], r') ∧
      Behind r' (more.drop (kBlockSize - (startOf o + kHeaderSize + payload.length))) ∧
      Complains r' r := by
  have hroom := startOf_add_avail h.le
  have hsmall := availOf_lt o
  have hsame := hburst.2.1
  have hfront : (header t payload ++ payload').length = kHeaderSize + payload.length := by
    rw [List.length_append, length_header, hsame]
  obtain ⟨r', heq, hat, hbuffer, hrest, hquiet⟩ := h.fragment hfront hlen hpending
  rw [List.append_assoc] at hbuffer
  have hparse := parse_damaged ht hbuffer (by omega) hburst hat.initial
    (hquiet.checksum.trans hcheck)
  refine ⟨_, heq.trans hparse, ?_, ?_⟩
  · exact
      { buffer := rfl
        rest := hrest
        ended := by
          intro heof
          have hshort : r'.eof = true := heof
          rw [hat.eof, decide_eq_true_eq, List.length_append, hfront] at hshort
          apply List.drop_of_length_le
          omega
        sound := hat.sound
        initial := hat.initial
        synced := hat.synced }
  · refine ⟨?_, _, List.mem_append_right _ List.mem_cons_self⟩
    rw [← hquiet.reports]
    exact List.prefix_append _ _

/-! ## The blocks behind it -/

/-- The bytes from the start of a block on: whole records, or before them the fragments of a record
that began in an earlier block. -/
def FromBlock (bytes : Slice) (records : List Slice) : Prop :=
  bytes = (layout kBlockSize records).1 ∨ ∃ ptr,
    bytes = (fragments kBlockSize false ptr).1 ++ (layout (fragments kBlockSize false ptr).2 records).1

theorem fragments_trailer {o : ℕ} (hsmall : kBlockSize - o < kHeaderSize) (begin : Bool) (ptr : Slice) :
    fragments o begin ptr =
      (List.replicate (kBlockSize - o) 0 ++ (fragments kBlockSize begin ptr).1,
        (fragments kBlockSize begin ptr).2) := by
  have hstart : startOf o = startOf kBlockSize := by
    rw [startOf, if_pos hsmall]
    rfl
  have havail : availOf o = availOf kBlockSize := by
    rw [availOf, availOf, hstart]
  have htrailer : trailer o = List.replicate (kBlockSize - o) 0 := by
    rw [trailer, if_pos hsmall]
  have hnone : trailer kBlockSize = [] := rfl
  rw [fragments, hstart, havail, htrailer]
  conv_rhs => rw [fragments, hnone]
  split
  · simp
  · simp

/-- From the next block on only records are missing that begin in this one. -/
theorem layout_from_block {o : ℕ} (ho : o ≤ kBlockSize) (records : List Slice) :
    ∃ j, FromBlock ((layout o records).1.drop (kBlockSize - o)) (records.drop j) ∧
      ∀ i, kBlockSize - o ≤ (layout o (records.take i)).1.length → j ≤ i := by
  induction records generalizing o with
  | nil => exact ⟨0, Or.inl (by simp [layout]), fun _ _ => Nat.zero_le _⟩
  | cons record records ih =>
    by_cases hsmall : kBlockSize - o < kHeaderSize
    · refine ⟨0, Or.inl ?_, fun _ _ => Nat.zero_le _⟩
      have hlen : kBlockSize - o = (List.replicate (kBlockSize - o) (0 : UInt8)).length := by simp
      simp only [layout, fragments_trailer hsmall, List.append_assoc, List.drop_zero]
      rw [List.drop_left' hlen.symm]
    · have hheader : kHeaderSize = 7 := rfl
      have hstart : startOf o = o := by rw [startOf, if_neg hsmall]
      have htrailer : trailer o = [] := by rw [trailer, if_neg hsmall]
      have hfull := startOf_add_avail ho
      rw [hstart] at hfull
      by_cases hfit : record.length ≤ availOf o
      · -- the record ends in this block
        have hfrag : fragments o true record =
            (physical (fragmentType true true) record, o + kHeaderSize + record.length) := by
          rw [fragments, if_pos hfit, htrailer, hstart, List.nil_append]
        obtain ⟨j, hfrom, hj⟩ := ih (o := o + kHeaderSize + record.length) (by omega)
        have hspace : kBlockSize - o = (physical (fragmentType true true) record).length +
            (kBlockSize - (o + kHeaderSize + record.length)) := by
          rw [length_physical]
          omega
        refine ⟨j + 1, ?_, ?_⟩
        · simp only [layout, hfrag, List.drop_succ_cons]
          rw [hspace, List.drop_length_add_append]
          exact hfrom
        · intro i hi
          cases i with
          | zero =>
            simp only [List.take_zero, layout, List.length_nil] at hi
            omega
          | succ i =>
            simp only [List.take_succ_cons, layout, hfrag, List.length_append] at hi
            have := hj i (by omega)
            omega
      · -- it fills the block and goes on in the next
        have hlen : (record.take (availOf o)).length = availOf o := by
          rw [List.length_take]
          omega
        have hspace : kBlockSize - o =
            (physical (fragmentType true false) (record.take (availOf o))).length := by
          rw [length_physical, hlen]
          omega
        refine ⟨1, Or.inr ⟨record.drop (availOf o), ?_⟩, ?_⟩
        · rw [layout, fragments, if_neg hfit, htrailer]
          simp only [List.nil_append, List.append_assoc, List.drop_succ_cons, List.drop_zero]
          rw [List.drop_left' hspace.symm]
        · intro i hi
          cases i with
          | zero =>
            simp only [List.take_zero, layout, List.length_nil] at hi
            omega
          | succ i => omega

/-! ## Reading on -/

/-- The loop of the callers, begun in the middle of a `ReadRecord`. -/
def readFrom (s : Assembly) : List Slice × Reader :=
  match s.run with
  | (some record, r) => (record :: (readLog r).1, (readLog r).2)
  | (none, r) => ([], r)

theorem readFrom_inr {s s' : Assembly} (h : s.step = .inr s') : readFrom s = readFrom s' := by
  rw [readFrom, run_inr h, readFrom]

theorem readLog_eq_readFrom (h : At r o pending) : readLog r = readFrom ⟨r, [], false, 0⟩ := by
  have heq := h.ReadRecord_eq
  rw [readFrom]
  split
  · rename_i record r' hrun
    rw [hrun] at heq
    exact readLog_some heq
  · rename_i r' hrun
    rw [hrun] at heq
    exact readLog_none heq

/-- A log that is there whole is read whole. -/
theorem readLog_whole {records : List Slice} (h : At r o (layout o records).1) :
    (readLog r).1 = records ∧ Quiet (readLog r).2 r := by
  obtain ⟨k, r', hread, hquiet, hk⟩ := readLog_layout h (List.prefix_refl _)
  rw [hread]
  refine ⟨List.take_of_length_le ?_, hquiet⟩
  rcases records with _ | ⟨record, records⟩
  · exact Nat.zero_le _
  · have hlast := hk records.length (by simp)
    have := hlast.mpr (layout_take_le o _ _)
    rw [List.length_cons]
    omega

theorem readFrom_whole {records : List Slice} {s : Assembly} (h : At s.reader o (layout o records).1)
    (hin : s.in_fragmented_record = false) :
    (readFrom s).1 = records ∧ Quiet (readFrom s).2 s.reader := by
  cases records with
  | nil =>
    obtain ⟨r', hrun, hquiet⟩ := run_fragments_cut true [] (s := s) h List.nil_prefix
      (fragments_pos o true []) hin
    rw [readFrom, hrun]
    exact ⟨rfl, hquiet⟩
  | cons record records =>
    obtain ⟨r', hrun, hat, hquiet⟩ := run_fragments true record (s := s) h hin
    obtain ⟨hrecords, hrest⟩ := readLog_whole hat
    rw [readFrom, hrun]
    exact ⟨by simp [hrecords], hrest.trans hquiet⟩

theorem At.reported (h : At r o pending) (reports : List (UInt64 × Status)) :
    At { r with reports := reports } o pending :=
  ⟨h.le, h.buffer, h.rest, h.eof, h.sound, h.initial, h.synced⟩

/-- A fragment whose record began in what was lost is reported and passed over. -/
theorem step_orphan {s : Assembly} {atEnd : Bool} {fragment : Slice} {r' : Reader}
    (hread : s.reader.ReadPhysicalRecord = ((fragmentType false atEnd).code.toNat, fragment, r'))
    (hat : At r' o pending) (hin : s.in_fragmented_record = false) :
    ∃ s', s.step = .inr s' ∧ At s'.reader o pending ∧ s'.in_fragmented_record = false ∧
      r'.reports <+: s'.reader.reports := by
  obtain ⟨offset, hstep⟩ := step_synced hread hat.synced
  cases atEnd with
  | true =>
    have hswitch : s.step = .inr { s with
        reader := r'.ReportCorruption fragment.length "missing start of fragmented record(2)" } := by
      rw [hstep]
      simp [Assembly.switch, fragmentType, RecordType.code, hin]
    refine ⟨_, hswitch, ?_, hin, ?_⟩
    · rw [Reader.ReportCorruption, ReportDrop_all _ _ _ hat.initial]
      exact hat.reported _
    · simp only [Reader.ReportCorruption, ReportDrop_all _ _ _ hat.initial]
      exact List.prefix_append _ _
  | false =>
    have hswitch : s.step = .inr { s with
        reader := r'.ReportCorruption fragment.length "missing start of fragmented record(1)" } := by
      rw [hstep]
      simp [Assembly.switch, fragmentType, RecordType.code, hin]
    refine ⟨_, hswitch, ?_, hin, ?_⟩
    · rw [Reader.ReportCorruption, ReportDrop_all _ _ _ hat.initial]
      exact hat.reported _
    · simp only [Reader.ReportCorruption, ReportDrop_all _ _ _ hat.initial]
      exact List.prefix_append _ _

theorem readFrom_orphans (ptr : Slice) {more : Slice} {s : Assembly}
    (h : At s.reader o ((fragments o false ptr).1 ++ more)) (hin : s.in_fragmented_record = false) :
    ∃ s', readFrom s = readFrom s' ∧ At s'.reader (fragments o false ptr).2 more ∧
      s'.in_fragmented_record = false ∧ s.reader.reports <+: s'.reader.reports := by
  generalize hb : false = begin at h ⊢
  induction o, begin, ptr using fragments.induct generalizing s with
  | case1 o begin ptr hfit =>
    subst hb
    rw [fragments, if_pos hfit] at h ⊢
    obtain ⟨r', hread, hat, hquiet⟩ := h.read (fragmentType_ne_zero false true) hfit rfl
    obtain ⟨s', hstep, hat', hin', hreports⟩ := step_orphan hread hat hin
    rw [hquiet.reports] at hreports
    exact ⟨s', readFrom_inr hstep, hat', hin', hreports⟩
  | case2 o begin ptr hmore ih =>
    subst hb
    rw [fragments, if_neg hmore] at h ⊢
    have hlen : (ptr.take (availOf o)).length = availOf o := by
      rw [List.length_take]
      omega
    simp only [List.append_assoc] at h
    rw [← List.append_assoc] at h
    obtain ⟨r', hread, hat, hquiet⟩ := h.read (fragmentType_ne_zero false false) hlen.le rfl
    rw [hlen, startOf_add_avail h.le] at hat
    obtain ⟨s', hstep, hat', hin', hreports⟩ := step_orphan hread hat hin
    obtain ⟨s'', hread'', hat'', hin'', hreports'⟩ := ih hin' rfl hat'
    rw [hquiet.reports] at hreports
    exact ⟨s'', (readFrom_inr hstep).trans hread'', hat'', hin'', hreports.trans hreports'⟩

theorem FromBlock.nil {records : List Slice} (h : FromBlock [] records) : records = [] := by
  rcases h with h | ⟨ptr, h⟩
  · cases records with
    | nil => rfl
    | cons record records =>
      have hpos := fragments_pos kBlockSize true record
      have hlen := congrArg List.length h
      simp only [layout, List.length_append, List.length_nil] at hlen
      omega
  · have hpos := fragments_pos kBlockSize false ptr
    have hlen := congrArg List.length h
    simp only [List.length_append, List.length_nil] at hlen
    omega

/-- From the start of a block on the whole records are read. -/
theorem readFrom_block {bytes : Slice} {records : List Slice} (hbytes : FromBlock bytes records)
    {s : Assembly} (h : Behind s.reader bytes) (hin : s.in_fragmented_record = false) :
    (readFrom s).1 = records ∧ s.reader.reports <+: (readFrom s).2.reports := by
  cases heof : s.reader.eof with
  | false =>
    have hat := h.at heof
    rcases hbytes with rfl | ⟨ptr, rfl⟩
    · obtain ⟨hrecords, hquiet⟩ := readFrom_whole hat hin
      exact ⟨hrecords, hquiet.reports ▸ List.prefix_refl _⟩
    · obtain ⟨s', hread, hat', hin', hreports⟩ := readFrom_orphans ptr hat hin
      obtain ⟨hrecords, hquiet⟩ := readFrom_whole hat' hin'
      rw [hread]
      exact ⟨hrecords, hquiet.reports ▸ hreports⟩
  | true =>
    -- the damage was in the last block
    have hnil := h.ended heof
    subst hnil
    have hread : s.reader.ReadPhysicalRecord = (kEof, [], { s.reader with buffer := [] }) := by
      have hshort : s.reader.buffer.length < kHeaderSize := by
        rw [h.buffer]
        decide
      rw [Reader.ReadPhysicalRecord, if_pos hshort, dif_neg (by simp [heof])]
    obtain ⟨r', hstep, hquiet⟩ := step_eof hread
    rw [readFrom, run_inl hstep]
    exact ⟨hbytes.nil.symm, hquiet.reports ▸ List.prefix_refl _⟩

theorem Complains.trans_prefix {r r' r'' : Reader} (h : Complains r' r)
    (hmore : r'.reports <+: r''.reports) : Complains r'' r where
  more := h.more.trans hmore
  mismatch := by
    obtain ⟨d, hd⟩ := h.mismatch
    exact ⟨d, hmore.subset hd⟩

theorem Complains.of_quiet {r r' r'' : Reader} (h : Complains r'' r') (hquiet : Quiet r' r) :
    Complains r'' r where
  more := hquiet.reports ▸ h.more
  mismatch := h.mismatch

/-- The loop after a bad physical record: no record is under way any more. -/
theorem step_bad {s : Assembly} {fragment : Slice} {r' : Reader} {bytes : Slice}
    (hread : s.reader.ReadPhysicalRecord = (kBadRecord, fragment, r')) (h : Behind r' bytes) :
    ∃ s', s.step = .inr s' ∧ Behind s'.reader bytes ∧ s'.in_fragmented_record = false ∧
      r'.reports <+: s'.reader.reports := by
  obtain ⟨offset, hstep⟩ := step_synced hread h.synced
  cases hin : s.in_fragmented_record with
  | false =>
    have hswitch : s.step = .inr { s with reader := r' } := by
      rw [hstep]
      simp only [Assembly.switch, kBadRecord, kEof, hin]
      rfl
    exact ⟨_, hswitch, h, hin, List.prefix_refl _⟩
  | true =>
    have hswitch : s.step = .inr ⟨r'.ReportCorruption s.scratch.length "error in middle of record",
        [], false, s.prospective_record_offset⟩ := by
      rw [hstep]
      simp only [Assembly.switch, kBadRecord, kEof, hin]
      rfl
    refine ⟨_, hswitch, ?_, rfl, ?_⟩
    · simp only [Reader.ReportCorruption, ReportDrop_all _ _ _ h.initial]
      exact ⟨h.buffer, h.rest, h.ended, h.sound, h.initial, h.synced⟩
    · simp only [Reader.ReportCorruption, ReportDrop_all _ _ _ h.initial]
      exact List.prefix_append _ _

theorem readFrom_damaged {begin : Bool} {ptr bytes : Slice} (hdamage : Damaged o begin ptr bytes)
    {records : List Slice} {s : Assembly}
    (h : At s.reader o (bytes ++ (layout (fragments o begin ptr).2 records).1))
    (hcheck : s.reader.checksum = true) (hin : s.in_fragmented_record = !begin) :
    ∃ j, (readFrom s).1 = records.drop j ∧ Complains (readFrom s).2 s.reader ∧
      ∀ i, kBlockSize - (fragments o begin ptr).2 ≤
        (layout (fragments o begin ptr).2 (records.take i)).1.length → j ≤ i := by
  induction hdamage generalizing s with
  | @last o begin ptr ptr' hfit hburst =>
    have hfrag : (fragments o begin ptr).2 = startOf o + kHeaderSize + ptr.length := by
      rw [fragments, if_pos hfit]
    obtain ⟨r', hread, hbehind, hcomplains⟩ :=
      h.read_damaged (fragmentType_ne_zero begin true) hfit hburst hcheck rfl
    obtain ⟨s', hstep, hbehind', hin', hreports⟩ := step_bad hread hbehind
    rw [← hfrag] at hbehind'
    obtain ⟨j, hfrom, hj⟩ := layout_from_block (fragments_le h.le begin ptr) records
    obtain ⟨hrecords, hmore⟩ := readFrom_block hfrom hbehind' hin'
    refine ⟨j, ?_, ?_, hj⟩
    · rw [readFrom_inr hstep]
      exact hrecords
    · rw [readFrom_inr hstep]
      exact hcomplains.trans_prefix (hreports.trans hmore)
  | @more o begin ptr payload' hmore hburst =>
    have hlen : (ptr.take (availOf o)).length = availOf o := by
      rw [List.length_take]
      omega
    have hfrag : (fragments o begin ptr).2 =
        (fragments kBlockSize false (ptr.drop (availOf o))).2 := by
      rw [fragments, if_neg (by omega)]
    rw [List.append_assoc, hfrag] at h
    obtain ⟨r', hread, hbehind, hcomplains⟩ :=
      h.read_damaged (fragmentType_ne_zero begin false) hlen.le hburst hcheck rfl
    obtain ⟨s', hstep, hbehind', hin', hreports⟩ := step_bad hread hbehind
    rw [hlen, startOf_add_avail h.le, Nat.sub_self, List.drop_zero] at hbehind'
    obtain ⟨hrecords, hmore'⟩ := readFrom_block (Or.inr ⟨_, rfl⟩) hbehind' hin'
    refine ⟨0, ?_, ?_, fun _ _ => Nat.zero_le _⟩
    · rw [readFrom_inr hstep]
      exact hrecords
    · rw [readFrom_inr hstep]
      exact hcomplains.trans_prefix (hreports.trans hmore')
  | @later o begin ptr bytes hmore hrest ih =>
    have hlen : (ptr.take (availOf o)).length = availOf o := by
      rw [List.length_take]
      omega
    have hfrag : (fragments o begin ptr).2 =
        (fragments kBlockSize false (ptr.drop (availOf o))).2 := by
      rw [fragments, if_neg (by omega)]
    rw [List.append_assoc] at h
    obtain ⟨r', hread, hat, hquiet⟩ := h.read (fragmentType_ne_zero begin false) hlen.le rfl
    rw [hlen, startOf_add_avail h.le, hfrag] at hat
    obtain ⟨offset, hstep⟩ := step_more hread hat.synced hin
    obtain ⟨j, hrecords, hcomplains, hj⟩ :=
      ih (s := ⟨r', _, true, offset⟩) hat (hquiet.checksum.trans hcheck) rfl
    rw [hfrag]
    refine ⟨j, ?_, ?_, hj⟩
    · rw [readFrom_inr hstep]
      exact hrecords
    · rw [readFrom_inr hstep]
      exact hcomplains.of_quiet hquiet

/-- The records in front are read one after the other. -/
theorem readLog_front {records : List Slice} {more : Slice}
    (h : At r o ((layout o records).1 ++ more)) :
    ∃ r', At r' (layout o records).2 more ∧ Quiet r' r ∧
      readLog r = (records ++ (readLog r').1, (readLog r').2) := by
  induction records generalizing r o with
  | nil => exact ⟨r, h, ⟨rfl, rfl⟩, rfl⟩
  | cons record records ih =>
    simp only [layout, List.append_assoc] at h ⊢
    obtain ⟨r', hrun, hat, hquiet⟩ := run_fragments true record (s := ⟨r, [], false, 0⟩) h rfl
    obtain ⟨r'', hat', hquiet', hread⟩ := ih hat
    refine ⟨r'', hat', hquiet'.trans hquiet, ?_⟩
    rw [readLog_some (h.ReadRecord_eq.trans hrun), hread]
    rfl

/-- One burst of wrong bits in a payload of a log is reported. The records before the damaged one are
all read, and so is every record that begins at the end of its last block or later; what is read is
what was written. -/
theorem a_burst_loses_records_of_its_block_only (before behind : List Slice) (record bytes : Slice)
    (hdamage : Damaged (layout kBlockSize before).2 true record bytes) :
    let o := (fragments (layout kBlockSize before).2 true record).2
    let read := readLog (Reader.new
      { rest := (layout kBlockSize before).1 ++ bytes ++ (layout o behind).1, failure := none } true 0)
    (∃ d, (d, Status.Corruption "checksum mismatch") ∈ read.2.reports) ∧
      ∃ j, read.1 = before ++ behind.drop j ∧
        ∀ i, kBlockSize - o ≤ (layout o (behind.take i)).1.length → j ≤ i := by
  intro o read
  have h := at_new ((layout kBlockSize before).1 ++ (bytes ++ (layout o behind).1)) true
  obtain ⟨r', hat, hquiet, hread⟩ := readLog_front h
  obtain ⟨j, hrecords, hcomplains, hj⟩ :=
    readFrom_damaged hdamage (s := ⟨r', [], false, 0⟩) hat hquiet.checksum rfl
  rw [← List.append_assoc, readLog_eq_readFrom hat] at hread
  refine ⟨?_, j, ?_, hj⟩
  · change ∃ d, _ ∈ (readLog _).2.reports
    rw [hread]
    exact hcomplains.mismatch
  · change (readLog _).1 = _
    rw [hread, hrecords]

theorem a_wrong_byte_in_the_second_record :
    let read := readLog (Reader.new
      { rest := (layout kBlockSize [[1]]).1 ++ (trailer (layout kBlockSize [[1]]).2 ++
          (header .kFullType [2, 3] ++ [2, 1])) ++
          (layout (fragments (layout kBlockSize [[1]]).2 true [2, 3]).2 [[4]]).1,
        failure := none } true 0)
    (∃ d, (d, Status.Corruption "checksum mismatch") ∈ read.2.reports) ∧
      ∃ j, read.1 = [[1]] ++ [[4]].drop j := by
  have hburst : Burst [2, 3] [2, 1] :=
    ⟨by decide, rfl, bitsOf [2], [], bitsOf [3], bitsOf [1], rfl, rfl, rfl, by decide⟩
  obtain ⟨hreport, j, hread, -⟩ := a_burst_loses_records_of_its_block_only [[1]] [[4]] [2, 3] _
    (Damaged.last (by decide +kernel) hburst)
  exact ⟨hreport, j, hread⟩

end bitcoinstats.leveldb.log
