-- What the reader finds in what the writer wrote: the records that were written
-- whole, in their order, and no report, wherever the file ends.
import BitcoinStats.LevelDB.LogReader

open byte_memory byte_words

namespace bitcoinstats.leveldb.log

/-! ## One physical record -/

/-- A reader of a whole file stands at an offset of a block; its buffer reaches to the end of the
block or of the file. -/
structure At (r : Reader) (o : ℕ) (pending : Slice) : Prop where
  le : o ≤ kBlockSize
  buffer : r.buffer = pending.take (kBlockSize - o)
  rest : r.file.rest = pending.drop (kBlockSize - o)
  eof : r.eof = decide (pending.length < kBlockSize - o)
  sound : r.file.failure = none
  initial : r.initial_offset = 0
  synced : r.resyncing = false

theorem at_new (bytes : Slice) (checksum : Bool) :
    At (Reader.new { rest := bytes, failure := none } checksum 0) kBlockSize bytes where
  le := le_rfl
  buffer := by simp [Reader.new]
  rest := by simp [Reader.new]
  eof := by simp [Reader.new]
  sound := rfl
  initial := rfl
  synced := rfl

/-- A reader that reported nothing on its way, as strict as before. -/
structure Quiet (r' r : Reader) : Prop where
  reports : r'.reports = r.reports
  checksum : r'.checksum = r.checksum

theorem Quiet.trans {r r' r'' : Reader} (h : Quiet r'' r') (h' : Quiet r' r) : Quiet r'' r :=
  ⟨h.reports.trans h'.reports, h.checksum.trans h'.checksum⟩

variable {r : Reader} {o : ℕ} {pending : Slice}

theorem At.buffer_length (h : At r o pending) : r.buffer.length = min (kBlockSize - o) pending.length := by
  rw [h.buffer, List.length_take]

/-- The next block takes the place of a trailer. -/
theorem At.refill (h : At r o pending) (hshort : kBlockSize - o < kHeaderSize)
    (hlen : kBlockSize - o ≤ pending.length) :
    ∃ r', r.ReadPhysicalRecord = r'.ReadPhysicalRecord ∧ At r' 0 (pending.drop (kBlockSize - o)) ∧
      Quiet r' r := by
  have hread : r.file.Read kBlockSize = .ok (r.file.rest.take kBlockSize,
      { r.file with rest := r.file.rest.drop kBlockSize }) := by
    simp only [SequentialFile.Read, h.sound]
  have heof : r.eof = false := by
    rw [h.eof, decide_eq_false_iff_not]
    omega
  have hbuffer : r.buffer.length < kHeaderSize := by
    rw [h.buffer_length]
    omega
  refine ⟨_, ReadPhysicalRecord_refill hbuffer heof hread, ?_, ⟨rfl, rfl⟩⟩
  exact
    { le := Nat.zero_le _
      buffer := by simp [Reader.refilled, h.rest]
      rest := by simp [Reader.refilled, h.rest]
      eof := by simp [Reader.refilled, h.rest]
      sound := h.sound
      initial := h.initial
      synced := h.synced }

/-- Before a fragment the trailer is passed over. -/
theorem At.start (h : At r o pending) (hlen : (trailer o).length ≤ pending.length) :
    ∃ r', r.ReadPhysicalRecord = r'.ReadPhysicalRecord ∧
      At r' (startOf o) (pending.drop (trailer o).length) ∧ Quiet r' r := by
  by_cases hshort : kBlockSize - o < kHeaderSize
  · have htrailer : (trailer o).length = kBlockSize - o := by
      rw [trailer, if_pos hshort, List.length_replicate]
    rw [htrailer] at hlen ⊢
    rw [startOf, if_pos hshort]
    exact h.refill hshort hlen
  · have htrailer : (trailer o).length = 0 := by
      rw [trailer, if_neg hshort, List.length_nil]
    rw [htrailer, startOf, if_neg hshort]
    exact ⟨r, rfl, h, ⟨rfl, rfl⟩⟩

/-- Without the bytes of a header the file is at its end. -/
theorem At.short (h : At r o pending) (hlen : pending.length < kBlockSize - o)
    (hshort : pending.length < kHeaderSize) :
    ∃ r', r.ReadPhysicalRecord = (kEof, [], r') ∧ Quiet r' r := by
  have hbuffer : r.buffer.length < kHeaderSize := by
    rw [h.buffer_length]
    omega
  have heof : ¬ r.eof = false := by
    rw [h.eof, decide_eq_false_iff_not]
    omega
  refine ⟨{ r with buffer := [] }, ?_, ⟨rfl, rfl⟩⟩
  rw [Reader.ReadPhysicalRecord, if_pos hbuffer, dif_neg heof]

theorem typeOf_code (t : RecordType) : typeOf t.code = t.code.toNat := by cases t <;> rfl

/-- The length in a header. -/
theorem header_length {n : ℕ} (h : n < 65536) :
    (UInt8.ofNat (n &&& 255)).toNat ||| ((UInt8.ofNat (n >>> 8)).toNat <<< 8) = n := by
  have hlow : n &&& 255 = n % 256 := Nat.and_two_pow_sub_one_eq_mod n 8
  have hhigh : n >>> 8 = n / 256 := Nat.shiftRight_eq_div_pow n 8
  have hmod : n % 256 < 2 ^ 8 := Nat.mod_lt _ (by decide)
  have ha : (UInt8.ofNat (n &&& 255)).toNat = n % 256 := by
    rw [UInt8.toNat_ofNat', hlow]
    omega
  have hb : (UInt8.ofNat (n >>> 8)).toNat = n / 256 := by
    rw [UInt8.toNat_ofNat', hhigh]
    omega
  rw [ha, hb, Nat.shiftLeft_eq, Nat.mul_comm, Nat.or_comm, ← Nat.two_pow_add_eq_or_of_lt hmod]
  omega

/-- What the reader takes out of a buffer that starts with a header. -/
theorem header_fields (t : RecordType) (payload tail : Slice) :
    (header t payload ++ tail).getD 4 0 = UInt8.ofNat (payload.length &&& 255) ∧
    (header t payload ++ tail).getD 5 0 = UInt8.ofNat (payload.length >>> 8) ∧
    (header t payload ++ tail).getD 6 0 = t.code ∧
    (header t payload ++ tail).drop 6 = t.code :: tail ∧
    (header t payload ++ tail).drop kHeaderSize = tail ∧
    DecodeFixed32 (header t payload ++ tail) =
      crc32c.Mask (crcExtend (typeCrc t) payload) := by
  have hcrc := leBytes_length 4 (crc32c.Mask (crcExtend (typeCrc t) payload)).toNat
  refine ⟨?_, ?_, ?_, ?_, ?_, ?_⟩
  · simp [header, List.getD_eq_getElem?_getD]
  · simp [header, List.getD_eq_getElem?_getD, List.getElem?_append]
  · simp [header, List.getD_eq_getElem?_getD, List.getElem?_append]
  · simp [header, List.drop_append]
  · simp [header, List.drop_append, kHeaderSize]
  · rw [header, List.append_assoc, DecodeFixed32_put]

/-- A header in the buffer gives the type, and the length that decides whether the payload is there. -/
theorem parse_header {t : RecordType} {payload tail : Slice} (ht : t ≠ .kZeroType)
    (hbuffer : r.buffer = header t payload ++ tail) (hlen : payload.length < 65536)
    (hinitial : r.initial_offset = 0) :
    (tail.length < payload.length → r.eof = true →
      ∃ r', r.parsePhysicalRecord = (kEof, [], r') ∧ Quiet r' r) ∧
    (∀ more, tail = payload ++ more → r.parsePhysicalRecord =
      (t.code.toNat, payload, { r with buffer := more })) := by
  obtain ⟨h4, h5, h6, hdrop6, hdrop7, hcrc⟩ := header_fields t payload tail
  have hsize : r.buffer.length = kHeaderSize + tail.length := by
    rw [hbuffer, List.length_append, length_header]
  have hfields : (r.buffer.getD 4 0).toNat ||| ((r.buffer.getD 5 0).toNat <<< 8) = payload.length := by
    rw [hbuffer, h4, h5, header_length hlen]
  have htype : typeOf (r.buffer.getD 6 0) = t.code.toNat := by
    rw [hbuffer, h6, typeOf_code]
  have hzero : ¬ (t.code.toNat = 0 ∧ payload.length = 0) := by
    rintro ⟨hcode, -⟩
    cases t <;> first | exact ht rfl | exact absurd hcode (by decide)
  constructor
  · intro hcut heof
    refine ⟨{ r with buffer := [] }, ?_, ⟨rfl, rfl⟩⟩
    rw [Reader.parsePhysicalRecord]
    simp only [hfields, hsize]
    rw [if_pos (by omega)]
    simp [heof]
  · rintro more rfl
    have hvalue : ¬ (r.checksum = true ∧ crcValue ((r.buffer.drop 6).take (1 + payload.length)) ≠
        crc32c.Unmask (DecodeFixed32 r.buffer)) := by
      rintro ⟨-, hne⟩
      apply hne
      rw [hbuffer, hdrop6, hcrc, Unmask_Mask, Nat.add_comm, List.take_succ_cons,
        List.take_left' rfl, typeCrc, crcValue, crcValue, crcExtend_append]
      rfl
    have hpayload : (r.buffer.drop kHeaderSize).take payload.length = payload := by
      rw [hbuffer, hdrop7, List.take_left' rfl]
    have hmore : r.buffer.drop (kHeaderSize + payload.length) = more := by
      rw [← List.drop_drop, hbuffer, hdrop7, List.drop_left' rfl]
    have hoffset : ∀ x : UInt64, ¬ x < r.initial_offset := by
      intro x
      rw [hinitial, UInt64.not_lt]
      exact UInt64.zero_le
    rw [Reader.parsePhysicalRecord]
    simp only [hfields, htype, hsize, hpayload, hmore, List.length_append]
    rw [if_neg (by omega), if_neg hzero, if_neg hvalue, if_neg (hoffset _)]

theorem availOf_lt (o : ℕ) : availOf o < 65536 := by
  have hblock : kBlockSize = 32768 := rfl
  rw [availOf]
  omega

/-- A header and as many bytes as it says, in the buffer and parsed. -/
theorem At.fragment (h : At r o pending) {front more : Slice} {n : ℕ} (hfront : front.length = kHeaderSize + n)
    (hlen : n ≤ availOf o) (hpending : pending = trailer o ++ front ++ more) :
    ∃ r', r.ReadPhysicalRecord = r'.parsePhysicalRecord ∧ At r' (startOf o) (front ++ more) ∧
      r'.buffer = front ++ more.take (kBlockSize - (startOf o + kHeaderSize + n)) ∧
      r'.file.rest = more.drop (kBlockSize - (startOf o + kHeaderSize + n)) ∧
      Quiet r' r := by
  subst hpending
  obtain ⟨r', heq, hat, hquiet⟩ := h.start (by simp only [List.length_append]; omega)
  have hroom := startOf_add_avail h.le
  rw [List.append_assoc, List.drop_left' rfl] at hat
  have hspace : kBlockSize - startOf o =
      front.length + (kBlockSize - (startOf o + kHeaderSize + n)) := by
    omega
  have hbuffer : r'.buffer = front ++ more.take (kBlockSize - (startOf o + kHeaderSize + n)) := by
    rw [hat.buffer, hspace, List.take_length_add_append]
  have hlong : ¬ r'.buffer.length < kHeaderSize := by
    rw [hbuffer, List.length_append]
    omega
  refine ⟨r', ?_, hat, hbuffer, ?_, hquiet⟩
  · rw [heq, Reader.ReadPhysicalRecord, if_neg hlong]
  · rw [hat.rest, hspace, List.drop_length_add_append]

/-- A physical record that is there whole. -/
theorem At.read (h : At r o pending) {t : RecordType} {payload more : Slice} (ht : t ≠ .kZeroType)
    (hlen : payload.length ≤ availOf o) (hpending : pending = trailer o ++ physical t payload ++ more) :
    ∃ r', r.ReadPhysicalRecord = (t.code.toNat, payload, r') ∧
      At r' (startOf o + kHeaderSize + payload.length) more ∧ Quiet r' r := by
  have hroom := startOf_add_avail h.le
  have hsmall := availOf_lt o
  obtain ⟨r', heq, hat, hbuffer, hrest, hquiet⟩ :=
    h.fragment (length_physical t payload) hlen hpending
  rw [physical, List.append_assoc] at hbuffer
  refine ⟨{ r' with buffer := more.take (kBlockSize - (startOf o + kHeaderSize + payload.length)) },
    ?_, ?_, ⟨hquiet.reports, hquiet.checksum⟩⟩
  · rw [heq]
    exact (parse_header ht hbuffer (by omega) hat.initial).2 _ rfl
  · exact
      { le := by omega
        buffer := rfl
        rest := hrest
        eof := by
          rw [hat.eof, decide_eq_decide]
          simp only [List.length_append, length_physical]
          omega
        sound := hat.sound
        initial := hat.initial
        synced := hat.synced }

/-- A physical record that the end of the file cuts. -/
theorem At.read_cut (h : At r o pending) {t : RecordType} {payload : Slice} (ht : t ≠ .kZeroType)
    (hlen : payload.length ≤ availOf o) (hpending : pending <+: trailer o ++ physical t payload)
    (hcut : pending.length < (trailer o ++ physical t payload).length) :
    ∃ r', r.ReadPhysicalRecord = (kEof, [], r') ∧ Quiet r' r := by
  have hroom := startOf_add_avail h.le
  have hsmall := availOf_lt o
  rw [List.length_append, length_physical] at hcut
  by_cases htrailer : pending.length < (trailer o).length
  · -- in the trailer
    have hshort : kBlockSize - o < kHeaderSize := by
      by_contra hlarge
      rw [trailer, if_neg hlarge] at htrailer
      exact absurd htrailer (by simp)
    rw [trailer, if_pos hshort, List.length_replicate] at htrailer
    exact h.short htrailer (by omega)
  · obtain ⟨r', heq, hat, hquiet⟩ := h.start (by omega)
    have hfront : pending.drop (trailer o).length <+: physical t payload := by
      have := hpending.drop (trailer o).length
      rwa [List.drop_left' rfl] at this
    have hplen : (pending.drop (trailer o).length).length < kHeaderSize + payload.length := by
      rw [List.length_drop]
      omega
    rw [heq]
    by_cases hheader : (pending.drop (trailer o).length).length < kHeaderSize
    · obtain ⟨r'', hread, hsame⟩ := hat.short (by omega) hheader
      exact ⟨r'', hread, hsame.trans hquiet⟩
    · -- behind the header
      obtain ⟨tail, htail⟩ : header t payload <+: pending.drop (trailer o).length :=
        List.prefix_of_prefix_length_le (List.prefix_append _ _) hfront
          (by rw [length_header]; omega)
      have hbuffer : r'.buffer = header t payload ++ tail := by
        rw [hat.buffer, htail, List.take_of_length_le (by omega)]
      have htaillen : tail.length < payload.length := by
        rw [← htail, List.length_append, length_header] at hplen
        omega
      have hlong : ¬ r'.buffer.length < kHeaderSize := by
        rw [hbuffer, List.length_append, length_header]
        omega
      have heof : r'.eof = true := by
        rw [hat.eof, decide_eq_true_eq]
        omega
      rw [Reader.ReadPhysicalRecord, if_neg hlong]
      obtain ⟨r'', hread, hsame⟩ := (parse_header ht hbuffer (by omega) hat.initial).1 htaillen heof
      exact ⟨r'', hread, hsame.trans hquiet⟩

/-! ## One record -/

theorem run_inl {s : Assembly} {result : Option Slice × Reader} (h : s.step = .inl result) :
    s.run = result := by
  rw [Assembly.run]
  split
  · rename_i h'
    rw [h] at h'
    cases h'
    rfl
  · rename_i h'
    rw [h] at h'
    cases h'

theorem run_inr {s s' : Assembly} (h : s.step = .inr s') : s.run = s'.run := by
  rw [Assembly.run]
  split
  · rename_i h'
    rw [h] at h'
    cases h'
  · rename_i h'
    rw [h] at h'
    cases h'
    rfl

theorem step_synced {s : Assembly} {record_type : ℕ} {fragment : Slice} {r' : Reader}
    (hread : s.reader.ReadPhysicalRecord = (record_type, fragment, r')) (hsync : r'.resyncing = false) :
    ∃ offset, s.step = { s with reader := r' }.switch record_type fragment offset := by
  rw [Assembly.step]
  simp only [hread, hsync, Bool.false_eq_true, if_false]
  exact ⟨_, rfl⟩

theorem switch_eof (s : Assembly) (fragment : Slice) (offset : UInt64) :
    s.switch kEof fragment offset = .inl (none, s.reader) := rfl

theorem step_eof {s : Assembly} {fragment : Slice} {r' : Reader}
    (hread : s.reader.ReadPhysicalRecord = (kEof, fragment, r')) :
    ∃ r'', s.step = .inl (none, r'') ∧ Quiet r'' r' := by
  have hmiddle : ¬ kEof = 3 := by decide
  have hlast : ¬ kEof = 4 := by decide
  rw [Assembly.step]
  simp only [hread, if_neg hmiddle, if_neg hlast, switch_eof]
  split
  · exact ⟨_, rfl, rfl, rfl⟩
  · exact ⟨_, rfl, rfl, rfl⟩

/-- The first fragments of a record go into the scratch, and the loop goes on. -/
theorem step_more {s : Assembly} {begin : Bool} {fragment : Slice} {r' : Reader}
    (hread : s.reader.ReadPhysicalRecord = ((fragmentType begin false).code.toNat, fragment, r'))
    (hsync : r'.resyncing = false) (hin : s.in_fragmented_record = !begin) :
    ∃ offset, s.step =
      .inr ⟨r', (if begin then [] else s.scratch) ++ fragment, true, offset⟩ := by
  obtain ⟨offset, hstep⟩ := step_synced hread hsync
  cases begin with
  | true =>
    refine ⟨offset, ?_⟩
    rw [hstep]
    simp [Assembly.switch, fragmentType, RecordType.code, hin]
  | false =>
    refine ⟨s.prospective_record_offset, ?_⟩
    rw [hstep]
    simp [Assembly.switch, fragmentType, RecordType.code, hin]

/-- The last fragment gives the record. -/
theorem step_last {s : Assembly} {begin : Bool} {fragment : Slice} {r' : Reader}
    (hread : s.reader.ReadPhysicalRecord = ((fragmentType begin true).code.toNat, fragment, r'))
    (hsync : r'.resyncing = false) (hin : s.in_fragmented_record = !begin) :
    ∃ offset, s.step =
      .inl (some ((if begin then [] else s.scratch) ++ fragment),
        { r' with last_record_offset := offset }) := by
  obtain ⟨offset, hstep⟩ := step_synced hread hsync
  cases begin with
  | true =>
    refine ⟨offset, ?_⟩
    rw [hstep]
    simp [Assembly.switch, fragmentType, RecordType.code, hin]
  | false =>
    refine ⟨s.prospective_record_offset, ?_⟩
    rw [hstep]
    simp [Assembly.switch, fragmentType, RecordType.code, hin]

theorem fragmentType_ne_zero (begin atEnd : Bool) : fragmentType begin atEnd ≠ .kZeroType := by
  cases begin <;> cases atEnd <;> decide

theorem At.record_offset (h : At r o pending) (offset : UInt64) :
    At { r with last_record_offset := offset } o pending :=
  ⟨h.le, h.buffer, h.rest, h.eof, h.sound, h.initial, h.synced⟩

theorem run_fragments (begin : Bool) (ptr : Slice) {more : Slice} {s : Assembly}
    (h : At s.reader o ((fragments o begin ptr).1 ++ more)) (hin : s.in_fragmented_record = !begin) :
    ∃ r', s.run = (some ((if begin then [] else s.scratch) ++ ptr), r') ∧
      At r' (fragments o begin ptr).2 more ∧ Quiet r' s.reader := by
  induction o, begin, ptr using fragments.induct generalizing s with
  | case1 o begin ptr hfit =>
    rw [fragments, if_pos hfit] at h ⊢
    obtain ⟨r', hread, hat, hquiet⟩ := h.read (fragmentType_ne_zero begin true) hfit rfl
    obtain ⟨offset, hstep⟩ := step_last hread hat.synced hin
    exact ⟨_, run_inl hstep, hat.record_offset offset, ⟨hquiet.reports, hquiet.checksum⟩⟩
  | case2 o begin ptr hmore ih =>
    rw [fragments, if_neg hmore] at h ⊢
    simp only [List.append_assoc] at h
    have hlen : (ptr.take (availOf o)).length = availOf o := by
      rw [List.length_take]
      omega
    rw [← List.append_assoc] at h
    obtain ⟨r', hread, hat, hquiet⟩ := h.read (fragmentType_ne_zero begin false) hlen.le rfl
    rw [hlen, startOf_add_avail h.le] at hat
    obtain ⟨offset, hstep⟩ := step_more hread hat.synced hin
    obtain ⟨r'', hrun, hat', hquiet'⟩ := ih (s := ⟨r', _, true, offset⟩) hat rfl
    refine ⟨r'', ?_, hat', hquiet'.trans hquiet⟩
    rw [run_inr hstep, hrun]
    simp only [Bool.false_eq_true, if_false, List.append_assoc, List.take_append_drop]

/-- A record that the end of the file cuts is left out. -/
theorem run_fragments_cut (begin : Bool) (ptr : Slice) {s : Assembly} (h : At s.reader o pending)
    (hpending : pending <+: (fragments o begin ptr).1)
    (hcut : pending.length < (fragments o begin ptr).1.length)
    (hin : s.in_fragmented_record = !begin) :
    ∃ r', s.run = (none, r') ∧ Quiet r' s.reader := by
  induction o, begin, ptr using fragments.induct generalizing s pending with
  | case1 o begin ptr hfit =>
    rw [fragments, if_pos hfit] at hpending hcut
    obtain ⟨r', hread, hquiet⟩ := h.read_cut (fragmentType_ne_zero begin true) hfit hpending hcut
    obtain ⟨r'', hstep, hsame⟩ := step_eof hread
    exact ⟨r'', run_inl hstep, hsame.trans hquiet⟩
  | case2 o begin ptr hmore ih =>
    rw [fragments, if_neg hmore] at hpending hcut
    have hlen : (ptr.take (availOf o)).length = availOf o := by
      rw [List.length_take]
      omega
    by_cases hfirst : pending.length <
        (trailer o ++ physical (fragmentType begin false) (ptr.take (availOf o))).length
    · have hfront := List.prefix_of_prefix_length_le hpending (List.prefix_append _ _) hfirst.le
      obtain ⟨r', hread, hquiet⟩ :=
        h.read_cut (fragmentType_ne_zero begin false) hlen.le hfront hfirst
      obtain ⟨r'', hstep, hsame⟩ := step_eof hread
      exact ⟨r'', run_inl hstep, hsame.trans hquiet⟩
    · obtain ⟨more, hpending'⟩ := List.prefix_of_prefix_length_le (List.prefix_append _ _) hpending
        (by omega)
      subst hpending'
      obtain ⟨r', hread, hat, hquiet⟩ := h.read (fragmentType_ne_zero begin false) hlen.le rfl
      rw [hlen, startOf_add_avail h.le] at hat
      obtain ⟨offset, hstep⟩ := step_more hread hat.synced hin
      obtain ⟨r'', hrun, hquiet'⟩ := ih (s := ⟨r', _, true, offset⟩) hat
        ((List.prefix_append_right_inj _).mp hpending)
        (by simp only [List.length_append] at hcut ⊢; omega) rfl
      exact ⟨r'', (run_inr hstep).trans hrun, hquiet'.trans hquiet⟩

/-! ## The whole log -/

theorem At.ReadRecord_eq (h : At r o pending) : r.ReadRecord = Assembly.run ⟨r, [], false, 0⟩ := by
  have hoffset : ¬ r.last_record_offset < r.initial_offset := by
    rw [h.initial, UInt64.not_lt]
    exact UInt64.zero_le
  rw [Reader.ReadRecord]
  simp only [if_neg hoffset]
  rfl

theorem readLog_none {r' : Reader} (h : r.ReadRecord = (none, r')) : readLog r = ([], r') := by
  rw [readLog]
  split
  · rename_i h'
    rw [h] at h'
    cases h'
  · rename_i h'
    rw [h] at h'
    cases h'
    rfl

theorem readLog_some {r' : Reader} {record : Slice} (h : r.ReadRecord = (some record, r')) :
    readLog r = (record :: (readLog r').1, (readLog r').2) := by
  rw [readLog]
  split
  · rename_i h'
    rw [h] at h'
    cases h'
    rfl
  · rename_i h'
    rw [h] at h'
    cases h'

/-- The records whose layout lies in the file are read, and nothing is reported. -/
theorem readLog_layout {records : List Slice} (h : At r o pending)
    (hpending : pending <+: (layout o records).1) :
    ∃ k r', readLog r = (records.take k, r') ∧ Quiet r' r ∧
      ∀ i < records.length, (i < k ↔ (layout o (records.take (i + 1))).1.length ≤ pending.length) := by
  induction records generalizing r o pending with
  | nil =>
    have hnil : pending = [] := List.prefix_nil.mp hpending
    subst hnil
    obtain ⟨r', hrun, hquiet⟩ := run_fragments_cut true [] (s := ⟨r, [], false, 0⟩)
      h (List.nil_prefix) (fragments_pos o true []) rfl
    exact ⟨0, r', readLog_none (h.ReadRecord_eq.trans hrun), hquiet, by simp⟩
  | cons record records ih =>
    by_cases hwhole : (fragments o true record).1.length ≤ pending.length
    · obtain ⟨more, hmore⟩ := List.prefix_of_prefix_length_le (List.prefix_append _ _) hpending hwhole
      subst hmore
      obtain ⟨r', hrun, hat, hquiet⟩ := run_fragments true record (s := ⟨r, [], false, 0⟩) h rfl
      have hrest := (List.prefix_append_right_inj _).mp hpending
      obtain ⟨k, r'', hread, hsame, hk⟩ := ih hat hrest
      refine ⟨k + 1, r'', ?_, hsame.trans hquiet, ?_⟩
      · rw [readLog_some (h.ReadRecord_eq.trans hrun), hread]
        rfl
      · intro i hi
        cases i with
        | zero => simp [layout]
        | succ i =>
          have hnext := hk i (by simpa using hi)
          simp only [List.take_succ_cons, layout, List.length_append] at hnext ⊢
          omega
    · obtain ⟨r', hrun, hquiet⟩ := run_fragments_cut true record (s := ⟨r, [], false, 0⟩) h
        (List.prefix_of_prefix_length_le hpending (List.prefix_append _ _) (by omega)) (by omega) rfl
      refine ⟨0, r', readLog_none (h.ReadRecord_eq.trans hrun), hquiet, ?_⟩
      intro i hi
      simp only [List.take_succ_cons, layout, List.length_append]
      omega

/-! ## Offsets -/

theorem fragments_offset {o : ℕ} (ho : o ≤ kBlockSize) (begin : Bool) (ptr : Slice) :
    (fragments o begin ptr).2 % kBlockSize = (o + (fragments o begin ptr).1.length) % kBlockSize := by
  have hheader : kHeaderSize = 7 := rfl
  have hblock : kBlockSize = 32768 := rfl
  have htrailer : ∀ o ≤ kBlockSize, ∃ m, o + (trailer o).length = startOf o + kBlockSize * m := by
    intro o ho
    by_cases hsmall : kBlockSize - o < kHeaderSize
    · refine ⟨1, ?_⟩
      rw [trailer, startOf, if_pos hsmall, if_pos hsmall, List.length_replicate]
      omega
    · refine ⟨0, ?_⟩
      rw [trailer, startOf, if_neg hsmall, if_neg hsmall]
      simp
  induction o, begin, ptr using fragments.induct with
  | case1 o begin ptr hfit =>
    obtain ⟨m, hm⟩ := htrailer o ho
    rw [fragments, if_pos hfit]
    simp only [List.length_append, length_physical]
    rw [← Nat.add_assoc, hm, show startOf o + kBlockSize * m + (kHeaderSize + ptr.length) =
      startOf o + kHeaderSize + ptr.length + kBlockSize * m by omega, Nat.add_mul_mod_self_left]
  | case2 o begin ptr hmore ih =>
    obtain ⟨m, hm⟩ := htrailer o ho
    have hfull := startOf_add_avail ho
    rw [fragments, if_neg hmore]
    simp only [List.length_append, length_physical, List.length_take]
    rw [ih le_rfl, min_eq_left (by omega)]
    rw [show o + ((trailer o).length + (kHeaderSize + availOf o) +
        (fragments kBlockSize false (ptr.drop (availOf o))).1.length) =
      kBlockSize + (fragments kBlockSize false (ptr.drop (availOf o))).1.length + kBlockSize * m by omega,
      Nat.add_mul_mod_self_left]

theorem fragments_le {o : ℕ} (ho : o ≤ kBlockSize) (begin : Bool) (ptr : Slice) :
    (fragments o begin ptr).2 ≤ kBlockSize := by
  induction o, begin, ptr using fragments.induct with
  | case1 o begin ptr h =>
    have := startOf_add_avail ho
    rw [fragments, if_pos h]
    simp only
    omega
  | case2 o begin ptr h ih =>
    rw [fragments, if_neg h]
    exact ih le_rfl

/-- The end of a block is the start of the next. -/
theorem fragments_mod {o : ℕ} (ho : o ≤ kBlockSize) (begin : Bool) (ptr : Slice) :
    fragments (o % kBlockSize) begin ptr = fragments o begin ptr := by
  rcases Nat.lt_or_ge o kBlockSize with hlt | hge
  · rw [Nat.mod_eq_of_lt hlt]
  · have heq : o = kBlockSize := by omega
    subst heq
    have hstart : startOf (kBlockSize % kBlockSize) = startOf kBlockSize := by decide
    have htrailer : trailer (kBlockSize % kBlockSize) = trailer kBlockSize := by decide
    have havail : availOf (kBlockSize % kBlockSize) = availOf kBlockSize := by decide
    rw [fragments, hstart, htrailer, havail]
    conv_rhs => rw [fragments]

theorem layout_mod {o : ℕ} (ho : o ≤ kBlockSize) (records : List Slice) :
    (layout (o % kBlockSize) records).1 = (layout o records).1 := by
  cases records with
  | nil => rfl
  | cons record records => rw [layout, layout, fragments_mod ho]

theorem layout_le {o : ℕ} (ho : o ≤ kBlockSize) (records : List Slice) :
    (layout o records).2 ≤ kBlockSize := by
  induction records generalizing o with
  | nil => exact ho
  | cons record records ih => exact ih (fragments_le ho true record)

theorem layout_offset {o : ℕ} (ho : o ≤ kBlockSize) (records : List Slice) :
    (layout o records).2 % kBlockSize = (o + (layout o records).1.length) % kBlockSize := by
  induction records generalizing o with
  | nil => simp [layout]
  | cons record records ih =>
    have hfirst := fragments_offset ho true record
    simp only [layout]
    rw [ih (fragments_le ho true record), List.length_append, Nat.add_mod, hfirst, ← Nat.add_mod,
      Nat.add_assoc]

theorem layout_append (o : ℕ) (xs ys : List Slice) :
    (layout o (xs ++ ys)).1 = (layout o xs).1 ++ (layout (layout o xs).2 ys).1 := by
  induction xs generalizing o with
  | nil => rfl
  | cons record xs ih => simp only [List.cons_append, layout, ih, List.append_assoc]

theorem layout_take_le (o : ℕ) (records : List Slice) (i : ℕ) :
    (layout o (records.take i)).1.length ≤ (layout o records).1.length := by
  have happend := layout_append o (records.take i) (records.drop i)
  rw [List.take_append_drop] at happend
  rw [happend, List.length_append]
  omega

/-! ## Sessions -/

/-- A file that is opened again and again, each time behind what it has. -/
def runSessions (f : WritableFile) : List (List Slice) → List Status × WritableFile
  | [] => ([], f)
  | records :: sessions =>
    let (ss, w) := (Writer.new f f.contents.length).AddRecords records
    let (rest, f') := runSessions w.dest sessions
    (ss ++ rest, f')

/-- Where all calls succeed all bytes are there. -/
theorem AddRecords_all {w : Writer} {records : List Slice} (ho : w.block_offset ≤ kBlockSize)
    (hok : ∀ s ∈ (w.AddRecords records).1, s.ok = true) :
    (w.AddRecords records).2.dest.contents =
      w.dest.contents ++ (layout w.block_offset records).1 := by
  obtain ⟨hwrote, hstatus⟩ := AddRecords_adds w records ho
  rw [hwrote.contents, List.take_of_length_le]
  rcases List.eq_nil_or_concat' records with rfl | ⟨front, last, rfl⟩
  · exact Nat.zero_le _
  · have hlast := hstatus front.length
    simp only [List.getElem?_concat_length, Option.map_some] at hlast
    rw [List.take_of_length_le (by simp)] at hlast
    obtain ⟨s, hs, heq⟩ := Option.map_eq_some_iff.mp hlast
    rw [hok s (List.mem_of_getElem? hs)] at heq
    simpa using heq.symm

theorem Writer_new_offset (f : WritableFile) (n : ℕ) :
    (Writer.new f n).block_offset ≤ kBlockSize := (Nat.mod_lt n (by decide)).le

/-- The sessions leave one log. -/
theorem runSessions_contents {f : WritableFile} {done : List Slice} {sessions : List (List Slice)}
    (hdone : f.contents = (layout kBlockSize done).1)
    (hok : ∀ s ∈ (runSessions f sessions).1, s.ok = true) :
    (runSessions f sessions).2.contents = (layout kBlockSize (done ++ sessions.flatten)).1 := by
  induction sessions generalizing f done with
  | nil => simpa [runSessions] using hdone
  | cons records sessions ih =>
    simp only [runSessions, List.mem_append] at hok ⊢
    have hle := layout_le le_rfl done
    have hoffset : f.contents.length % kBlockSize = (layout kBlockSize done).2 % kBlockSize := by
      rw [layout_offset le_rfl, ← hdone, Nat.add_mod_left]
    have hall := AddRecords_all (Writer_new_offset f _) (fun s hs => hok s (Or.inl hs))
    rw [List.flatten_cons, ← List.append_assoc]
    apply ih
    · rw [hall, layout_append, ← layout_mod hle, ← hoffset, ← hdone]
      rfl
    · exact fun s hs => hok s (Or.inr hs)

/-! ## What is recovered -/

/-- A log that was written in any number of sessions and is cut anywhere: the records that lie whole
before the cut are read in their order, and nothing is reported. -/
theorem a_cut_log_gives_the_records_before_the_cut (sessions : List (List Slice)) (room : ℕ)
    (hok : ∀ s ∈ (runSessions { contents := [], room := room } sessions).1, s.ok = true) (n : ℕ)
    (checksum : Bool) :
    let file := (runSessions { contents := [], room := room } sessions).2.contents
    let read := readLog (Reader.new { rest := file.take n, failure := none } checksum 0)
    file = (layout kBlockSize sessions.flatten).1 ∧ read.2.reports = [] ∧
      ∃ k, read.1 = sessions.flatten.take k ∧ ∀ i < sessions.flatten.length,
        (i < k ↔ (layout kBlockSize (sessions.flatten.take (i + 1))).1.length ≤ n) := by
  have hnew : (⟨[], room⟩ : WritableFile).contents = (layout kBlockSize []).1 := rfl
  have hfile := runSessions_contents hnew hok
  rw [List.nil_append] at hfile
  intro file read
  have hpending : file.take n <+: (layout kBlockSize sessions.flatten).1 := by
    rw [← hfile]
    exact List.take_prefix n file
  obtain ⟨k, r', hread, hquiet, hk⟩ := readLog_layout (at_new (file.take n) checksum) hpending
  refine ⟨hfile, ?_, k, ?_, ?_⟩
  · change (readLog _).2.reports = []
    rw [hread]
    exact hquiet.reports
  · change (readLog _).1 = _
    rw [hread]
  · intro i hi
    have hle : (layout kBlockSize (sessions.flatten.take (i + 1))).1.length ≤ file.length := by
      change _ ≤ (runSessions { contents := [], room := room } sessions).2.contents.length
      rw [hfile]
      exact layout_take_le kBlockSize _ _
    rw [hk i hi, List.length_take]
    omega

theorem two_sessions_cut_in_the_third_record :
    (readLog (Reader.new { rest := (runSessions { contents := [], room := 30 }
      [[[1, 2]], [[], [3]]]).2.contents.take 20, failure := none } true 0)).1 = [[1, 2], []] := by
  obtain ⟨-, -, k, hread, hk⟩ := a_cut_log_gives_the_records_before_the_cut [[[1, 2]], [[], [3]]] 30
    (by decide +kernel) 20 true
  have hsecond : 1 < k := (hk 1 (by decide)).mpr (by decide +kernel)
  have hthird : ¬ 2 < k := fun h => absurd ((hk 2 (by decide)).mp h) (by decide +kernel)
  have htwo : k = 2 := by omega
  rw [hread, htwo]
  rfl

end bitcoinstats.leveldb.log
