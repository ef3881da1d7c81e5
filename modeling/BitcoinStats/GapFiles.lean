-- Block files with bytes between the records, and what the scan does at one of
-- their gaps.
import BitcoinStats.ScanOrder

open byte_memory keyed_set bitcoinstats.bitcoin_address

namespace bitcoinstats.block_chain

/-! ## Files with gaps -/

def magicBytes : List UInt8 := leBytes 4 MAGIC_ID.toNat

/-- The magic number starts at none of the first `n` places of the bytes. -/
def NoMagicBefore (bytes : List UInt8) (n : Nat) : Prop :=
  ∀ i < n, (bytes.drop i).take 4 ≠ magicBytes

/-- A record with the bytes in front of it. No magic number starts in these, not
even one that goes on in that of the record. -/
structure GapRecord where
  gap : List UInt8
  record : BlockRecord
  gap_lt : gap.length < 2 ^ 24
  noMagic : NoMagicBefore (gap ++ magicBytes) gap.length

def GapRecord.bytes (r : GapRecord) : List UInt8 := r.gap ++ r.record.bytes

def gapRecordBytes (records : List GapRecord) : List UInt8 := records.flatMap GapRecord.bytes

/-- One `blk?????.dat`: records with gaps, and a gap behind the last one. -/
structure GapFile where
  records : List GapRecord
  trailing : List UInt8
  trailing_lt : trailing.length < 2 ^ 24
  noMagic : NoMagicBefore trailing trailing.length

def GapFile.bytes (f : GapFile) : List UInt8 := gapRecordBytes f.records ++ f.trailing

variable (H : Hashes)

/-- The headers of the records from the position `start` of a file on. -/
def gapRecordHeaders (fileIndex : Nat) : Nat → List GapRecord → List BlockHeader
  | _, [] => []
  | start, r :: rs => r.record.header H fileIndex (start + r.gap.length) ::
    gapRecordHeaders fileIndex (start + r.bytes.length) rs

/-- The headers of all records of the files from `fileIndex` on, in file order. -/
def gapFileHeaders : Nat → List GapFile → List BlockHeader
  | _, [] => []
  | fileIndex, f :: fs =>
    gapRecordHeaders H fileIndex 0 f.records ++ gapFileHeaders (fileIndex + 1) fs

variable {H}

theorem GapRecord.length_bytes (r : GapRecord) :
    r.bytes.length = r.gap.length + r.record.bytes.length := by
  simp [GapRecord.bytes]

theorem gapRecordBytes_append (xs ys : List GapRecord) :
    gapRecordBytes (xs ++ ys) = gapRecordBytes xs ++ gapRecordBytes ys := by
  simp [gapRecordBytes]

theorem gapRecordBytes_cons (r : GapRecord) (rs : List GapRecord) :
    gapRecordBytes (r :: rs) = r.bytes ++ gapRecordBytes rs := rfl

theorem magicBytes_length : magicBytes.length = 4 := leBytes_length 4 _

/-! ## The number at a place -/

/-- Four bytes are the magic number if their value is. -/
theorem magic_of_value {bs : List UInt8} (hlen : bs.length = 4)
    (h : UInt32.ofNat (leVal bs) = MAGIC_ID) : bs = magicBytes := by
  have hlt : leVal bs < 2 ^ 32 := by
    have hval := leVal_lt bs
    rw [hlen] at hval
    exact hval
  have hval := congrArg UInt32.toNat h
  rw [UInt32.toNat_ofNat_of_lt' hlt] at hval
  rw [magicBytes, ← hval, ← hlen, leBytes_leVal]

variable {b : BlockChainImpl} {fph position : Nat} {bytes : List UInt8}

/-- `fread` of a number in front of the end of the file. -/
theorem freadU32_word (h : b.Open fph bytes position) (hle : position + 4 ≤ bytes.length) :
    b.freadU32 fph = (some (UInt32.ofNat (leVal ((bytes.drop position).take 4))),
      b.setFile fph { bytes, position := position + 4 }) := by
  have hlen : ((bytes.drop position).take 4).length = 4 := by
    rw [List.length_take, List.length_drop]
    omega
  have hread := fread_open h (List.take_append_drop 4 (bytes.drop position)).symm
  rw [hlen] at hread
  unfold BlockChainImpl.freadU32
  rw [hread]
  simp only [hlen, if_true]

theorem freadU32_magic (h : b.Open fph bytes position) {rest : List UInt8}
    (hbytes : bytes.drop position = magicBytes ++ rest) :
    b.freadU32 fph =
      (some MAGIC_ID, b.setFile fph { bytes, position := position + 4 }) :=
  freadU32_open h (by decide) hbytes

/-- Where no magic number starts, another number is read. -/
theorem freadU32_other (h : b.Open fph bytes position) (hle : position + 4 ≤ bytes.length)
    (hmagic : (bytes.drop position).take 4 ≠ magicBytes) :
    ∃ n, n ≠ MAGIC_ID ∧ b.freadU32 fph =
      (some n, b.setFile fph { bytes, position := position + 4 }) := by
  refine ⟨_, ?_, freadU32_word h hle⟩
  intro hval
  apply hmagic
  refine magic_of_value ?_ hval
  rw [List.length_take, List.length_drop]
  omega

/-! ## The search -/

/-- What the search sees at a place in front of the end of the bytes that were read. -/
theorem readLe_searchMemory (heap : Memory) {chunk : List UInt8} {i : Nat}
    (hle : i + 4 ≤ chunk.length) :
    readLe (searchMemory heap chunk) i 4 = leVal ((chunk.drop i).take 4) := by
  rw [readLe, searchMemory, window_overlay hle]

theorem not_magic_word (heap : Memory) {chunk : List UInt8} {i : Nat} (hle : i + 4 ≤ chunk.length)
    (hmagic : (chunk.drop i).take 4 ≠ magicBytes) :
    UInt32.ofNat (readLe (searchMemory heap chunk) i 4) ≠ MAGIC_ID := by
  rw [readLe_searchMemory heap hle]
  intro hval
  refine hmagic (magic_of_value ?_ hval)
  rw [List.length_take, List.length_drop]
  omega

/-- The first place of the magic number among the bytes that were read. -/
theorem searchMagic_found (heap : Memory) {chunk rest : List UInt8} {i : Nat}
    (hbefore : NoMagicBefore chunk i) (hbytes : chunk.drop i = magicBytes ++ rest) :
    searchMagic (searchMemory heap chunk) chunk.length = some i := by
  have hlen := congrArg List.length hbytes
  rw [List.length_drop, List.length_append, magicBytes_length] at hlen
  rw [searchMagic, List.find?_range_eq_some]
  refine ⟨?_, List.mem_range.mpr (by omega), ?_⟩
  · rw [readLe_searchMemory heap (by omega), hbytes, List.take_left' magicBytes_length]
    decide
  · intro j hj
    simpa using not_magic_word heap (by omega) (hbefore j hj)

/-- Behind the bytes that were read the search sees a zero, and the magic number
has none: it is not found over the end. -/
theorem searchMagic_none (heap : Memory) {chunk : List UInt8}
    (hbefore : NoMagicBefore chunk chunk.length) (hlt : chunk.length < MAX_BLOCK_SIZE.toNat) :
    searchMagic (searchMemory heap chunk) chunk.length = none := by
  rw [searchMagic, List.find?_eq_none]
  intro i hi
  have hi := List.mem_range.mp hi
  rcases Nat.lt_or_ge chunk.length (i + 4) with hover | hle
  · intro hmagic
    have hwindow : window (searchMemory heap chunk) i 4 = magicBytes :=
      magic_of_value (window_length _ _ _) (of_decide_eq_true hmagic)
    have hmem : searchMemory heap chunk chunk.length ∈ magicBytes := by
      have hget := window_getElem (searchMemory heap chunk) i 4 (chunk.length - i)
        (by rw [window_length]; omega)
      rw [Nat.add_sub_cancel' hi.le] at hget
      rw [← hget, ← hwindow]
      exact List.getElem_mem _
    have hzero : searchMemory heap chunk chunk.length = 0 := by
      simp [searchMemory, overlay, hlt]
    rw [hzero] at hmem
    exact absurd hmem (by decide)
  · simpa using not_magic_word heap hle (hbefore i hi)

/-! ## Bytes without a magic number -/

/-- The places are also free of it in bytes that start with these. -/
theorem NoMagicBefore.append {xs : List UInt8} {n : Nat} (h : NoMagicBefore xs n)
    (hle : n + 3 ≤ xs.length) (ys : List UInt8) : NoMagicBefore (xs ++ ys) n := by
  intro i hi
  have hdrop : ((xs ++ ys).drop i).take 4 = (xs.drop i).take 4 := by
    rw [List.drop_append_of_le_length (by omega), List.take_append_of_le_length]
    rw [List.length_drop]
    omega
  rw [hdrop]
  exact h i hi

theorem NoMagicBefore.drop {xs : List UInt8} {n : Nat} (h : NoMagicBefore xs n) (j : Nat) :
    NoMagicBefore (xs.drop j) (n - j) := by
  intro i hi
  rw [List.drop_drop]
  exact h (j + i) (by omega)

/-- A gap, from any place of it on, and the record behind it. -/
theorem GapRecord.noMagic_drop (r : GapRecord) {j : Nat} (hj : j ≤ r.gap.length)
    (rest : List UInt8) :
    NoMagicBefore (r.gap.drop j ++ (magicBytes ++ rest)) (r.gap.drop j).length := by
  have hdrop := r.noMagic.drop j
  rw [List.drop_append_of_le_length hj] at hdrop
  rw [List.length_drop, ← List.append_assoc]
  refine hdrop.append ?_ rest
  rw [List.length_append, List.length_drop, magicBytes_length]
  omega

theorem BlockRecord.bytes_eq (r : BlockRecord) :
    r.bytes = magicBytes ++ (leBytes 4 r.data.length ++ r.data) := by
  rw [BlockRecord.bytes, magicBytes, List.append_assoc]

/-! ## Open and closed files -/

/-- The first `n` files are open, and these follow on the disk. -/
structure Closed (b : BlockChainImpl) (n : Nat) (files : List GapFile) : Prop where
  opened : b.mBlockDataFiles.length = n
  disk : ∀ i, b.disk (n + i) = (files[i]?).map GapFile.bytes
  count : n + files.length < 2 ^ 32

/-- The file `n` is scanned and stands at `position`, and these follow on the disk. -/
structure InsideFile (b : BlockChainImpl) (n : Nat) (f : GapFile) (files : List GapFile)
    (position : Nat) : Prop where
  closed : Closed b (n + 1) files
  isOpen : b.Open n f.bytes position
  index : b.mBlockIndex = UInt32.ofNat n

variable {n : Nat} {f f' : GapFile} {files : List GapFile}

theorem InsideFile.index_toNat (h : InsideFile b n f files position) : b.mBlockIndex.toNat = n := by
  have hcount := h.closed.count
  rw [h.index, UInt32.toNat_ofNat_of_lt' (by rw [UInt32.size]; omega)]

theorem InsideFile.lt (h : InsideFile b n f files position) :
    b.mBlockIndex.toNat < b.mBlockDataFiles.length := by
  rw [h.index_toNat, h.closed.opened]
  omega

theorem InsideFile.setFile (h : InsideFile b n f files position) (position' : Nat) :
    InsideFile (b.setFile n { bytes := f.bytes, position := position' }) n f files position' where
  closed :=
    { opened := by rw [← h.closed.opened]; simp [BlockChainImpl.setFile]
      disk := h.closed.disk
      count := h.closed.count }
  isOpen := open_setFile h.isOpen _
  index := h.index

/-- The next file is opened, and stands at its start. -/
theorem Closed.openBlock (h : Closed b n (f :: files)) :
    b.openBlock = (true, b.opened f.bytes) ∧ InsideFile (b.opened f.bytes) n f files 0 := by
  have hcount := h.count
  rw [List.length_cons] at hcount
  have hdisk : b.disk n = some f.bytes := h.disk 0
  constructor
  · rw [openBlock_some h.opened (by omega) hdisk, BlockChainImpl.opened, h.opened]
  · refine ⟨⟨?_, ?_, by omega⟩, ?_, ?_⟩
    · simp [BlockChainImpl.opened, BlockChainImpl.withFiles, h.opened]
    · intro i
      have hnext := h.disk (i + 1)
      rw [List.getElem?_cons_succ, ← Nat.add_assoc, Nat.add_right_comm] at hnext
      exact hnext
    · simp [BlockChainImpl.Open, BlockChainImpl.opened, BlockChainImpl.withFiles, ← h.opened]
    · rw [← h.opened]
      rfl

theorem Closed.openBlock_nil (h : Closed b n []) : b.openBlock.1 = false := by
  rw [openBlock_none h.opened h.count (h.disk 0)]

/-! ## The bytes at a place of a file -/

variable {done rest : List GapRecord} {r : GapRecord}

/-- The bytes from a place in the gap in front of a record on. -/
theorem GapFile.drop_record (hsplit : f.records = done ++ r :: rest) {j : Nat}
    (hj : j ≤ r.gap.length) :
    f.bytes.drop ((gapRecordBytes done).length + j) = r.gap.drop j ++ (magicBytes ++
      (leBytes 4 r.record.data.length ++
        (r.record.data ++ (gapRecordBytes rest ++ f.trailing)))) := by
  rw [← List.drop_drop, GapFile.bytes, hsplit, gapRecordBytes_append, List.append_assoc,
    List.drop_left, gapRecordBytes_cons, GapRecord.bytes, BlockRecord.bytes_eq]
  simp only [List.append_assoc]
  rw [List.drop_append_of_le_length hj]

/-- The bytes from a place behind the last record on. -/
theorem GapFile.drop_trailing (f : GapFile) (j : Nat) :
    f.bytes.drop ((gapRecordBytes f.records).length + j) = f.trailing.drop j := by
  rw [← List.drop_drop, GapFile.bytes, List.drop_left]

/-- The number at the start of a record. -/
theorem freadU32_record (h : InsideFile b n f files (gapRecordBytes done).length)
    (hsplit : f.records = done ++ r :: rest) (hgap : r.gap = []) :
    b.freadU32 n = (some MAGIC_ID,
      b.setFile n { bytes := f.bytes, position := (gapRecordBytes done).length + 4 }) := by
  have hbytes := GapFile.drop_record hsplit (Nat.zero_le r.gap.length)
  rw [Nat.add_zero, List.drop_zero, hgap, List.nil_append] at hbytes
  exact freadU32_magic h.isOpen hbytes

/-- The number at the start of a gap in front of a record. -/
theorem freadU32_gap (h : InsideFile b n f files (gapRecordBytes done).length)
    (hsplit : f.records = done ++ r :: rest) (hgap : r.gap ≠ []) :
    ∃ w, w ≠ MAGIC_ID ∧ b.freadU32 n = (some w,
      b.setFile n { bytes := f.bytes, position := (gapRecordBytes done).length + 4 }) := by
  have hbytes := GapFile.drop_record hsplit (Nat.zero_le r.gap.length)
  rw [Nat.add_zero] at hbytes
  have hpos := List.length_pos_of_ne_nil hgap
  have hlen := congrArg List.length hbytes
  simp only [List.length_drop, List.length_append, magicBytes_length] at hlen
  refine freadU32_other h.isOpen (by omega) ?_
  rw [hbytes]
  exact r.noMagic_drop (Nat.zero_le _) _ 0 hpos

/-- The number behind the last record: none with up to three bytes left. -/
theorem freadU32_end (h : InsideFile b n f files (gapRecordBytes f.records).length)
    (hshort : f.trailing.length < 4) :
    ∃ q, b.freadU32 n = (none, b.setFile n { bytes := f.bytes, position := q }) := by
  refine ⟨_, freadU32_short h.isOpen ?_⟩
  rw [GapFile.bytes, List.length_append]
  omega

theorem freadU32_trailing (h : InsideFile b n f files (gapRecordBytes f.records).length)
    (hfour : 4 ≤ f.trailing.length) :
    ∃ w, w ≠ MAGIC_ID ∧ b.freadU32 n = (some w,
      b.setFile n { bytes := f.bytes, position := (gapRecordBytes f.records).length + 4 }) := by
  have hbytes := f.drop_trailing 0
  rw [Nat.add_zero] at hbytes
  refine freadU32_other h.isOpen ?_ ?_
  · rw [GapFile.bytes, List.length_append]
    omega
  · rw [hbytes]
    exact f.noMagic 0 (by omega)

/-! ## The search from a place in a gap -/

theorem toNat_MAX_BLOCK_SIZE : MAX_BLOCK_SIZE.toNat = 33554432 := rfl

/-- The search in front of a record finds it. -/
theorem skipToMagic_record (h : InsideFile b n f files position)
    (hsplit : f.records = done ++ r :: rest) {j : Nat} (hj : j ≤ r.gap.length)
    {lastBlockRead : UInt32} (hlast : lastBlockRead.toNat = (gapRecordBytes done).length + j)
    (hfits : (gapRecordBytes done).length + r.gap.length < 2 ^ 32) :
    b.skipToMagic n lastBlockRead = (n, true, b.setFile n
      { bytes := f.bytes, position := (gapRecordBytes done).length + r.gap.length + 4 }) := by
  have hbytes := GapFile.drop_record hsplit hj
  have hgap := r.gap_lt
  have hmax := toNat_MAX_BLOCK_SIZE
  rw [← hlast] at hbytes
  obtain ⟨tail, htail⟩ : ∃ tail, (f.bytes.drop lastBlockRead.toNat).take MAX_BLOCK_SIZE.toNat =
      r.gap.drop j ++ (magicBytes ++ tail) := by
    rw [hbytes, List.take_append, List.take_of_length_le (by rw [List.length_drop]; omega),
      List.take_append, List.take_of_length_le
        (by rw [magicBytes_length, List.length_drop]; omega)]
    exact ⟨_, rfl⟩
  have hread := fread_search h.isOpen lastBlockRead.toNat
  rw [htail] at hread
  have hfound := searchMagic_found b.heap (r.noMagic_drop hj tail) List.drop_left
  -- the place that was found, and the number that is read there again
  have hpos : (lastBlockRead + UInt32.ofNat (r.gap.drop j).length).toNat =
      (gapRecordBytes done).length + r.gap.length := by
    rw [UInt32.toNat_add, hlast, UInt32.toNat_ofNat_of_lt'
      (by rw [UInt32.size, List.length_drop]; omega), List.length_drop]
    omega
  have hagain := GapFile.drop_record hsplit (le_refl r.gap.length)
  rw [List.drop_length, List.nil_append] at hagain
  have hfile := h.setFile ((gapRecordBytes done).length + r.gap.length)
  have hmagic := freadU32_magic hfile.isOpen hagain
  have hend := h.setFile (lastBlockRead.toNat + (r.gap.drop j ++ (magicBytes ++ tail)).length)
  unfold BlockChainImpl.skipToMagic
  simp only [hread]
  rw [show (b.setFile n _).heap = b.heap from rfl, hfound]
  simp only [hpos, BlockChainImpl.fseek, hend.isOpen.file_eq, File.fseek, setFile_setFile, hmagic,
    Option.isSome_some]

/-- Behind the last record the search finds nothing. -/
theorem skipToMagic_trailing (h : InsideFile b n f files position) (j : Nat)
    {lastBlockRead : UInt32} (hlast : lastBlockRead.toNat = (gapRecordBytes f.records).length + j) :
    ∃ b', Closed b' (n + 1) files ∧ b.skipToMagic n lastBlockRead =
      if b'.openBlock.1 then
        let i := b'.openBlock.2.mBlockIndex.toNat
        let (r, b'') := b'.openBlock.2.freadU32 i
        (i, r = some MAGIC_ID, b'')
      else (n, false, b'.openBlock.2) := by
  have hbytes := f.drop_trailing j
  have htrailing := f.trailing_lt
  have hmax := toNat_MAX_BLOCK_SIZE
  rw [← hlast] at hbytes
  have hread := fread_search h.isOpen lastBlockRead.toNat
  rw [hbytes, List.take_of_length_le (by rw [List.length_drop]; omega)] at hread
  have hnone : searchMagic (searchMemory b.heap (f.trailing.drop j)) (f.trailing.drop j).length =
      none := by
    have hno := f.noMagic.drop j
    rw [← List.length_drop] at hno
    exact searchMagic_none b.heap hno (by rw [List.length_drop]; omega)
  refine ⟨_, (h.setFile (lastBlockRead.toNat + (f.trailing.drop j).length)).closed, ?_⟩
  unfold BlockChainImpl.skipToMagic
  simp only [hread]
  rw [show (b.setFile n _).heap = b.heap from rfl, hnone]

/-- After that search the next file must start with the magic number. -/
theorem skipToMagic_next (h : InsideFile b n f (f' :: files) position) (j : Nat)
    {lastBlockRead : UInt32}
    (hlast : lastBlockRead.toNat = (gapRecordBytes f.records).length + j) :
    ∃ b', InsideFile b' (n + 1) f' files 0 ∧ b.skipToMagic n lastBlockRead =
      (n + 1, decide ((b'.freadU32 (n + 1)).1 = some MAGIC_ID), (b'.freadU32 (n + 1)).2) := by
  obtain ⟨b', hclosed, hskip⟩ := skipToMagic_trailing h j hlast
  obtain ⟨hopen, hinside⟩ := hclosed.openBlock
  refine ⟨_, hinside, ?_⟩
  rw [hskip, hopen]
  simp only [hinside.index_toNat, if_true]

theorem skipToMagic_last (h : InsideFile b n f [] position) (j : Nat) {lastBlockRead : UInt32}
    (hlast : lastBlockRead.toNat = (gapRecordBytes f.records).length + j) :
    (b.skipToMagic n lastBlockRead).2.1 = false := by
  obtain ⟨b', hclosed, hskip⟩ := skipToMagic_trailing h j hlast
  rw [hskip, hclosed.openBlock_nil]
  rfl

end bitcoinstats.block_chain
