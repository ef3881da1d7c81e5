-- The scan visits every record of well-formed block files once, in order.
import BitcoinStats.BlockFiles

open byte_memory keyed_set bitcoinstats.bitcoin_address

namespace bitcoinstats.block_chain

/-! ## Well-formed block files -/

/-- The data of a block, with a length that the scan accepts. -/
structure BlockRecord where
  data : List UInt8
  prefix_le : 80 ≤ data.length
  length_lt : data.length < MAX_BLOCK_SIZE.toNat

/-- The magic number, the length, and the data. -/
def BlockRecord.bytes (r : BlockRecord) : List UInt8 :=
  leBytes 4 MAGIC_ID.toNat ++ leBytes 4 r.data.length ++ r.data

def recordBytes (records : List BlockRecord) : List UInt8 := records.flatMap BlockRecord.bytes

/-- One `blk?????.dat`: records, and zero bytes behind them. -/
structure BlockFile where
  records : List BlockRecord
  zeros : Nat
  records_ne : records ≠ []
  length_lt : (recordBytes records).length + zeros < 2 ^ 31

def BlockFile.bytes (f : BlockFile) : List UInt8 :=
  recordBytes f.records ++ List.replicate f.zeros 0

variable (H : Hashes)

/-- The header of the record at the position `start` of file `fileIndex`. -/
def BlockRecord.header (r : BlockRecord) (fileIndex start : Nat) : BlockHeader :=
  { hash := H.doubleSHA256 (r.data.take 80)
    mFileIndex := UInt32.ofNat fileIndex
    mFileOffset := UInt32.ofNat (start + 8)
    mBlockLength := UInt32.ofNat r.data.length
    mPreviousBlockHash := Vector.ofFn (fun i => r.data.getD (4 + i) 0) }

/-- The headers of the records from the position `start` of a file on. -/
def recordHeaders (fileIndex : Nat) : Nat → List BlockRecord → List BlockHeader
  | _, [] => []
  | start, r :: rs =>
    r.header H fileIndex start :: recordHeaders fileIndex (start + r.bytes.length) rs

/-- The headers of all records of the files from `fileIndex` on, in file order. -/
def fileHeaders : Nat → List BlockFile → List BlockHeader
  | _, [] => []
  | fileIndex, f :: fs => recordHeaders H fileIndex 0 f.records ++ fileHeaders (fileIndex + 1) fs

theorem BlockRecord.length_bytes (r : BlockRecord) : r.bytes.length = r.data.length + 8 := by
  simp [BlockRecord.bytes]
  omega

theorem BlockFile.length_bytes (f : BlockFile) :
    f.bytes.length = (recordBytes f.records).length + f.zeros := by
  simp [BlockFile.bytes]

/-! ## The operations on one file -/

/-- What the scan may change besides the headers. -/
def BlockChainImpl.withFiles (b : BlockChainImpl) (mBlockDataFiles : List File)
    (mBlockIndex mFileLength : UInt32) : BlockChainImpl :=
  { b with mBlockDataFiles, mBlockIndex, mFileLength }

/-- The file `fph` is open, with these bytes, at this position. -/
def BlockChainImpl.Open (b : BlockChainImpl) (fph : Nat) (bytes : List UInt8) (position : Nat) :
    Prop := b.mBlockDataFiles[fph]? = some { bytes, position }

variable {H} {b : BlockChainImpl} {fph position : Nat} {bytes : List UInt8}

theorem BlockChainImpl.Open.file_eq (h : b.Open fph bytes position) :
    b.file fph = { bytes, position } := by
  rw [BlockChainImpl.file, List.getD_eq_getElem?_getD, h]
  rfl

theorem open_setFile (h : b.Open fph bytes position) (f : File) :
    (b.setFile fph f).Open fph f.bytes f.position := by
  have hlt : fph < b.mBlockDataFiles.length := (List.getElem?_eq_some_iff.mp h).1
  simp [BlockChainImpl.Open, BlockChainImpl.setFile, hlt]

theorem setFile_setFile (b : BlockChainImpl) (fph : Nat) (f f' : File) :
    (b.setFile fph f).setFile fph f' = b.setFile fph f' := by
  simp [BlockChainImpl.setFile]

/-- `fread` where the bytes are known. -/
theorem fread_open (h : b.Open fph bytes position) {chunk rest : List UInt8}
    (hbytes : bytes.drop position = chunk ++ rest) :
    b.fread fph chunk.length =
      (chunk, b.setFile fph { bytes, position := position + chunk.length }) := by
  simp [BlockChainImpl.fread, h.file_eq, File.chunk, File.fread, hbytes]

/-- `fread` where fewer bytes are left than it is asked for. -/
theorem fread_short (h : b.Open fph bytes position) {n : Nat} (hn : bytes.length ≤ position + n) :
    b.fread fph n = (bytes.drop position,
      b.setFile fph { bytes, position := position + (bytes.length - position) }) := by
  have htake : (bytes.drop position).take n = bytes.drop position :=
    List.take_of_length_le (by simp; omega)
  simp [BlockChainImpl.fread, h.file_eq, File.chunk, File.fread, htake]

theorem freadU32_open (h : b.Open fph bytes position) {n : Nat} (hn : n < 2 ^ 32)
    {rest : List UInt8} (hbytes : bytes.drop position = leBytes 4 n ++ rest) :
    b.freadU32 fph =
      (some (UInt32.ofNat n), b.setFile fph { bytes, position := position + 4 }) := by
  have hread := fread_open h hbytes
  rw [leBytes_length] at hread
  unfold BlockChainImpl.freadU32
  rw [hread]
  simp only [leBytes_length, if_true, leVal_leBytes_of_lt (by simpa using hn : n < 256 ^ 4)]

/-- Fewer than four bytes are no number. -/
theorem freadU32_short (h : b.Open fph bytes position) (hn : bytes.length < position + 4) :
    b.freadU32 fph =
      (none, b.setFile fph { bytes, position := position + (bytes.length - position) }) := by
  unfold BlockChainImpl.freadU32
  rw [fread_short h (by omega)]
  simp only
  rw [if_neg (by simp; omega)]

/-! ## One header -/

theorem prefixHeader_record (r : BlockRecord) (fileIndex start : Nat) :
    prefixHeader H (UInt32.ofNat fileIndex) (UInt32.ofNat (start + 8))
      (UInt32.ofNat r.data.length) (r.data.take 80) = r.header H fileIndex start := by
  have hprev : (Vector.ofFn fun i : Fin 32 => (r.data.take 80).getD (4 + i) 0) =
      Vector.ofFn fun i : Fin 32 => r.data.getD (4 + i) 0 := by
    congr 1
    funext i
    have hi := i.isLt
    simp only [List.getD_eq_getElem?_getD, List.getElem?_take]
    rw [if_pos (by omega)]
  simp only [prefixHeader, BlockRecord.header, hprev]

/-- The state once a header was read from the file `fph`. -/
def BlockChainImpl.afterHeader (b : BlockChainImpl) (fph : Nat) (f : File) (header : BlockHeader) :
    BlockChainImpl :=
  { b.setFile fph f with
    mLastBlockHeader := header
    mBlockHeaderSet := b.mBlockHeaderSet.insert header }

/-- A record lies in front of the end of its file. -/
theorem record_end_le {start : Nat} {r : BlockRecord} {rest : List UInt8}
    (hbytes : bytes.drop start = leBytes 4 MAGIC_ID.toNat ++
      (leBytes 4 r.data.length ++ (r.data ++ rest))) :
    start + r.bytes.length ≤ bytes.length := by
  have hcount := congrArg List.length hbytes
  simp only [List.length_drop, List.length_append, leBytes_length] at hcount
  rw [r.length_bytes]
  omega

/-- Behind the magic number the header of the record is read, and the file is
left at the next record. -/
theorem readHeader_record {start : Nat} (fileIndex : Nat) (h : b.Open fph bytes (start + 4))
    (r : BlockRecord) {rest : List UInt8}
    (hbytes : bytes.drop (start + 4) = leBytes 4 r.data.length ++ (r.data ++ rest))
    (hend : start + r.bytes.length < 2 ^ 32) (hindex : b.mBlockIndex = UInt32.ofNat fileIndex) :
    b.readHeader H fph = (true, b.afterHeader fph { bytes, position := start + r.bytes.length }
      (r.header H fileIndex start)) := by
  have hmax : MAX_BLOCK_SIZE.toNat = 33554432 := rfl
  have hlt := r.length_lt
  have hle := r.prefix_le
  have hfits : start + r.data.length + 8 < 2 ^ 32 := by
    rw [r.length_bytes] at hend
    omega
  have hdata : bytes.drop (start + 8) = r.data.take 80 ++ (r.data.drop 80 ++ rest) := by
    rw [show start + 8 = start + 4 + 4 from rfl, ← List.drop_drop, hbytes,
      List.drop_left' (leBytes_length 4 _), ← List.append_assoc, List.take_append_drop]
  have htake : (r.data.take 80).length = 80 := by
    rw [List.length_take]
    omega
  have hL : (UInt32.ofNat r.data.length).toNat = r.data.length := by
    simp
    omega
  have hsmall : UInt32.ofNat r.data.length < MAX_BLOCK_SIZE := by
    rw [UInt32.lt_iff_toNat_lt, hL]
    exact hlt
  -- the position behind the block, with the 32 bit sums of the code
  have hseek : (UInt32.ofNat (start + 8 + 80) + (UInt32.ofNat r.data.length - 80)).toNat =
      start + r.bytes.length := by
    rw [UInt32.toNat_add, UInt32.toNat_sub_of_le _ _
      (by rw [UInt32.le_iff_toNat_le, hL]; exact hle), hL, r.length_bytes]
    simp
    omega
  have h1 := open_setFile h { bytes, position := start + 4 + 4 }
  have hread := fread_open h1 hdata
  rw [htake, setFile_setFile] at hread
  have h2 := open_setFile h { bytes, position := start + 4 + 4 + 80 }
  unfold BlockChainImpl.readHeader
  rw [freadU32_open h (by omega) hbytes]
  simp only [hsmall, if_true, hread, htake, h1.file_eq, h2.file_eq, BlockChainImpl.fseek,
    setFile_setFile, File.ftell, File.fseek]
  rw [show start + 4 + 4 = start + 8 from rfl, hseek, ← prefixHeader_record, ← hindex]
  rfl

/-! ## The place of the scan -/

variable (H)

/-- The scan stands in file `front.length` behind the records `done`, with
the headers `pending` to come. -/
structure InFile (files : List BlockFile) (b : BlockChainImpl) (front : List File) (f : BlockFile)
    (done rest : List BlockRecord) : Prop where
  file_at : files[front.length]? = some f
  split : f.records = done ++ rest
  files_eq : b.mBlockDataFiles =
    front ++ [{ bytes := f.bytes, position := (recordBytes done).length }]
  index_eq : b.mBlockIndex = UInt32.ofNat front.length

/-- The headers that are still to come. -/
def pendingHeaders (files : List BlockFile) (fileIndex start : Nat) (rest : List BlockRecord) :
    List BlockHeader :=
  recordHeaders H fileIndex start rest ++ fileHeaders H (fileIndex + 1) (files.drop (fileIndex + 1))

/-- The files are on the disk and the scan has the headers `pending` to come:
it stands at a record or at the zero bytes of a file, or is past the last one. -/
structure Scanning (files : List BlockFile) (b : BlockChainImpl) (pending : List BlockHeader) :
    Prop where
  disk : ∀ i, b.disk i = (files[i]?).map BlockFile.bytes
  count : files.length < 2 ^ 32
  place : (∃ front f done rest, InFile files b front f done rest ∧
      pending = pendingHeaders H files front.length (recordBytes done).length rest) ∨
    pending = [] ∧ b.mBlockDataFiles.length ≤ b.mBlockIndex.toNat

variable {H} {files : List BlockFile} {front : List File} {f : BlockFile}
  {done rest : List BlockRecord} {pending : List BlockHeader}

theorem InFile.lt (h : InFile files b front f done rest) : front.length < files.length :=
  (List.getElem?_eq_some_iff.mp h.file_at).1

theorem InFile.is_open (h : InFile files b front f done rest) :
    b.Open front.length f.bytes (recordBytes done).length := by
  rw [BlockChainImpl.Open, h.files_eq]
  simp

theorem InFile.index_toNat (h : InFile files b front f done rest) (hc : files.length < 2 ^ 32) :
    b.mBlockIndex.toNat = front.length := by
  have hlt := h.lt
  rw [h.index_eq]
  simp
  omega

theorem recordBytes_append (xs ys : List BlockRecord) :
    recordBytes (xs ++ ys) = recordBytes xs ++ recordBytes ys := by
  simp [recordBytes]

theorem recordBytes_cons (r : BlockRecord) (rs : List BlockRecord) :
    recordBytes (r :: rs) = r.bytes ++ recordBytes rs := rfl

/-- What is left of the file behind the records `done`. -/
theorem InFile.drop_eq (h : InFile files b front f done rest) :
    f.bytes.drop (recordBytes done).length = recordBytes rest ++ List.replicate f.zeros 0 := by
  rw [BlockFile.bytes, h.split, recordBytes_append, List.append_assoc, List.drop_left]

theorem BlockFile.bytes_lt (f : BlockFile) : f.bytes.length < 2 ^ 31 := by
  rw [f.length_bytes]
  exact f.length_lt

theorem readMagic_some {n : UInt32} {b' : BlockChainImpl} {i : Nat} (hi : b.mBlockIndex.toNat = i)
    (h : b.freadU32 i = (some n, b')) :
    b.readMagic = ({ fph := i, lastBlockRead := (b.file i).ftell, magicID := some n }, b') := by
  unfold BlockChainImpl.readMagic
  simp only [hi, h, Option.isSome_some, if_true]

theorem readBlockHeader_none {m : MagicRead} {b1 : BlockChainImpl}
    (hlt : b.mBlockIndex.toNat < b.mBlockDataFiles.length)
    (hm : b.readMagic = (m, b1)) (hmagic : m.magicID = none) :
    b.readBlockHeader H = (false, b1) := by
  unfold BlockChainImpl.readBlockHeader
  rw [if_pos hlt, hm]
  simp only [hmagic]

theorem readBlockHeader_magic {m : MagicRead} {b1 : BlockChainImpl}
    (hlt : b.mBlockIndex.toNat < b.mBlockDataFiles.length)
    (hm : b.readMagic = (m, b1)) (hmagic : m.magicID = some MAGIC_ID) :
    b.readBlockHeader H = b1.readHeader H m.fph := by
  unfold BlockChainImpl.readBlockHeader
  rw [if_pos hlt, hm]
  simp only [hmagic, ne_eq, not_true_eq_false, if_false]

theorem readBlockHeader_search {m : MagicRead} {b1 : BlockChainImpl}
    (hlt : b.mBlockIndex.toNat < b.mBlockDataFiles.length)
    (hm : b.readMagic = (m, b1)) {w : UInt32} (hmagic : m.magicID = some w) (hw : w ≠ MAGIC_ID) :
    b.readBlockHeader H =
      let s := b1.skipToMagic m.fph m.lastBlockRead
      if s.2.1 then s.2.2.readHeader H s.1 else (false, s.2.2) := by
  unfold BlockChainImpl.readBlockHeader
  rw [if_pos hlt, hm]
  simp only [hmagic, ne_eq, hw, not_false_eq_true, if_true]

/-- A record that follows is read, and the scan stands behind it. -/
theorem readBlockHeader_record {r : BlockRecord} (hc : files.length < 2 ^ 32)
    (h : InFile files b front f done (r :: rest)) :
    b.readBlockHeader H = (true, b.afterHeader front.length
      { bytes := f.bytes, position := (recordBytes (done ++ [r])).length }
      (r.header H front.length (recordBytes done).length)) := by
  have hidx := h.index_toNat hc
  have hbytes : f.bytes.drop (recordBytes done).length = leBytes 4 MAGIC_ID.toNat ++
      (leBytes 4 r.data.length ++ (r.data ++ (recordBytes rest ++ List.replicate f.zeros 0))) := by
    rw [h.drop_eq, recordBytes_cons, BlockRecord.bytes]
    simp
  have hmagic := freadU32_open h.is_open (by decide) hbytes
  have hrest : f.bytes.drop ((recordBytes done).length + 4) = leBytes 4 r.data.length ++
      (r.data ++ (recordBytes rest ++ List.replicate f.zeros 0)) := by
    rw [← List.drop_drop, hbytes, List.drop_left' (leBytes_length 4 _)]
  have hopen := open_setFile h.is_open { bytes := f.bytes, position := (recordBytes done).length + 4 }
  have hend : (recordBytes (done ++ [r])).length = (recordBytes done).length + r.bytes.length := by
    simp [recordBytes]
  have hin : b.mBlockIndex.toNat < b.mBlockDataFiles.length := by
    rw [hidx, h.files_eq]
    simp
  rw [readBlockHeader_magic hin (readMagic_some hidx hmagic) rfl,
    readHeader_record front.length hopen r hrest
      ((record_end_le hbytes).trans_lt (f.bytes_lt.trans (by decide))) h.index_eq, hend]
  simp only [BlockChainImpl.afterHeader, setFile_setFile]
  rfl

/-! ## The end of a file -/

theorem openBlock_some {n : Nat} (hn : b.mBlockDataFiles.length = n) (hc : n < 2 ^ 32)
    (hdisk : b.disk n = some bytes) :
    b.openBlock = (true, b.withFiles (b.mBlockDataFiles ++ [{ bytes, position := 0 }])
      (UInt32.ofNat n) (UInt32.ofNat bytes.length)) := by
  have hidx : (UInt32.ofNat n).toNat = n := by
    simp
    omega
  unfold BlockChainImpl.openBlock
  simp only [hn, hidx, hdisk]
  rfl

theorem openBlock_none {n : Nat} (hn : b.mBlockDataFiles.length = n) (hc : n < 2 ^ 32)
    (hdisk : b.disk n = none) :
    b.openBlock = (false, b.withFiles b.mBlockDataFiles (UInt32.ofNat n) b.mFileLength) := by
  have hidx : (UInt32.ofNat n).toNat = n := by
    simp
    omega
  unfold BlockChainImpl.openBlock
  simp only [hn, hidx, hdisk]
  rfl

/-- Opening a file changes nothing but the files. -/
theorem openBlock_frame (b : BlockChainImpl) : ∃ mBlockDataFiles mBlockIndex mFileLength,
    b.openBlock.2 = b.withFiles mBlockDataFiles mBlockIndex mFileLength := by
  unfold BlockChainImpl.openBlock
  simp only
  split
  · exact ⟨_, _, _, rfl⟩
  · exact ⟨_, _, _, rfl⟩

/-- The state with the first file that is not open yet opened as well. -/
def BlockChainImpl.opened (b : BlockChainImpl) (bytes : List UInt8) : BlockChainImpl :=
  b.withFiles (b.mBlockDataFiles ++ [{ bytes, position := 0 }])
    (UInt32.ofNat b.mBlockDataFiles.length) (UInt32.ofNat bytes.length)

/-- The first record of a file that was just opened is read. -/
theorem opened_first {f : BlockFile} {r : BlockRecord} {rs : List BlockRecord}
    (hrec : f.records = r :: rs) (n : Nat) (hn : b.mBlockDataFiles.length = n) (hc : n < 2 ^ 32) :
    (b.opened f.bytes).mBlockIndex.toNat = n ∧
    (b.opened f.bytes).freadU32 n =
      (some MAGIC_ID, (b.opened f.bytes).setFile n { bytes := f.bytes, position := 4 }) ∧
    ((b.opened f.bytes).setFile n { bytes := f.bytes, position := 4 }).readHeader H n =
      (true, (b.opened f.bytes).afterHeader n
        { bytes := f.bytes, position := (recordBytes [r]).length } (r.header H n 0)) := by
  have hopen : (b.opened f.bytes).Open n f.bytes 0 := by
    subst hn
    simp [BlockChainImpl.Open, BlockChainImpl.opened, BlockChainImpl.withFiles]
  have hbytes : f.bytes.drop 0 = leBytes 4 MAGIC_ID.toNat ++
      (leBytes 4 r.data.length ++ (r.data ++ (recordBytes rs ++ List.replicate f.zeros 0))) := by
    rw [List.drop_zero, BlockFile.bytes, hrec, recordBytes_cons, BlockRecord.bytes]
    simp
  have hrest : f.bytes.drop (0 + 4) = leBytes 4 r.data.length ++
      (r.data ++ (recordBytes rs ++ List.replicate f.zeros 0)) := by
    rw [← List.drop_drop, hbytes, List.drop_left' (leBytes_length 4 _)]
  refine ⟨?_, freadU32_open hopen (by decide) hbytes, ?_⟩
  · simp [BlockChainImpl.opened, BlockChainImpl.withFiles, hn]
    omega
  · have hread := readHeader_record (H := H) n (open_setFile hopen
      { bytes := f.bytes, position := 0 + 4 }) r hrest
      ((record_end_le hbytes).trans_lt (f.bytes_lt.trans (by decide)))
      (by simp [BlockChainImpl.opened, BlockChainImpl.withFiles, BlockChainImpl.setFile, hn])
    rw [Nat.zero_add] at hread
    rw [hread]
    simp [BlockChainImpl.afterHeader, setFile_setFile, recordBytes]
    rfl

/-- No word of a zeroed block is the magic number, whatever lies behind the
block: its first byte is not. -/
theorem searchMagic_zeros (heap : Memory) (n : Nat) :
    searchMagic (searchMemory heap (List.replicate n 0)) n = none := by
  rw [searchMagic, List.find?_eq_none]
  intro i hi
  have hlt := List.mem_range.mp hi
  have hbyte : searchMemory heap (List.replicate n 0) i = 0 := by
    simp [searchMemory, overlay, List.getD_eq_getElem?_getD, hlt]
  have hval : readLe (searchMemory heap (List.replicate n 0)) i 4 % 256 = 0 := by
    rw [readLe_succ, hbyte]
    simp
  have hlt4 := readLe_lt (searchMemory heap (List.replicate n 0)) i 4
  intro hmagic
  have hnat := congrArg UInt32.toNat (of_decide_eq_true hmagic)
  rw [UInt32.toNat_ofNat_of_lt' (by simpa using hlt4)] at hnat
  rw [hnat] at hval
  exact absurd hval (by decide)

/-- At the end of the bytes of a file the next one is opened. -/
theorem readMagic_end {i : Nat} {b' : BlockChainImpl} (hi : b.mBlockIndex.toNat = i)
    (h : b.freadU32 i = (none, b')) :
    b.readMagic =
      if b'.openBlock.1 then
        let fph := b'.openBlock.2.mBlockIndex.toNat
        let (r, b'') := b'.openBlock.2.freadU32 fph
        ({ fph, lastBlockRead := (b''.file fph).ftell, magicID := r }, b'')
      else ({ fph := i, lastBlockRead := (b.file i).ftell, magicID := none }, b'.openBlock.2) := by
  unfold BlockChainImpl.readMagic
  simp only [hi, h, Option.isSome_none, Bool.false_eq_true, if_false]

/-- The bytes that the search reads from a place of an open file. -/
theorem fread_search (h : b.Open fph bytes position) (p : Nat) :
    (b.fseek fph p).fread fph MAX_BLOCK_SIZE.toNat =
      ((bytes.drop p).take MAX_BLOCK_SIZE.toNat, b.setFile fph
        { bytes, position := p + ((bytes.drop p).take MAX_BLOCK_SIZE.toNat).length }) := by
  have hseek := open_setFile h { bytes, position := p }
  simp only [BlockChainImpl.fseek, h.file_eq, File.fseek, BlockChainImpl.fread, hseek.file_eq,
    File.chunk, File.fread, setFile_setFile]

/-- Among zero bytes there is no header, and the next file is opened. -/
theorem skipToMagic_zeros {position' z : Nat} (h : b.Open fph bytes position')
    (hlast : position < 2 ^ 32) (hbytes : bytes.drop position = List.replicate z 0) :
    ∃ q, b.skipToMagic fph ({ bytes, position } : File).ftell =
      let b' := b.setFile fph { bytes, position := q }
      if b'.openBlock.1 then
        let n := b'.openBlock.2.mBlockIndex.toNat
        let (r, b'') := b'.openBlock.2.freadU32 n
        (n, r = some MAGIC_ID, b'')
      else (fph, false, b'.openBlock.2) := by
  have hseek : ({ bytes, position } : File).ftell.toNat = position := by
    simp [File.ftell]
    omega
  obtain ⟨c, hc⟩ : ∃ c, c = min MAX_BLOCK_SIZE.toNat z := ⟨_, rfl⟩
  refine ⟨position + c, ?_⟩
  have hchunk : (bytes.drop position).take MAX_BLOCK_SIZE.toNat = List.replicate c 0 := by
    rw [hbytes, List.take_replicate, hc]
  have hread := fread_search h position
  rw [hchunk, List.length_replicate] at hread
  unfold BlockChainImpl.skipToMagic
  simp only [hseek, hread, List.length_replicate, searchMagic_zeros]

theorem InFile.drop_end (h : InFile files b front f done []) :
    f.bytes.drop (recordBytes done).length = List.replicate f.zeros 0 := by
  rw [h.drop_eq]
  rfl

/-- The number behind the last record: none with up to three zero bytes, else 0. -/
theorem InFile.freadU32_zeros (h : InFile files b front f done []) :
    (∃ q, b.freadU32 front.length =
      (none, b.setFile front.length { bytes := f.bytes, position := q })) ∨
    ∃ q, b.freadU32 front.length =
      (some 0, b.setFile front.length { bytes := f.bytes, position := q }) := by
  rcases Nat.lt_or_ge f.zeros 4 with hz | hz
  · have hlen := congrArg List.length h.drop_end
    simp only [List.length_drop, List.length_replicate] at hlen
    exact Or.inl ⟨_, freadU32_short h.is_open (by omega)⟩
  · have hfour : List.replicate f.zeros (0 : UInt8) =
        leBytes 4 0 ++ List.replicate (f.zeros - 4) 0 := by
      have hle : leBytes 4 0 = List.replicate 4 0 := by decide
      rw [hle, List.replicate_append_replicate, Nat.add_sub_cancel' hz]
    exact Or.inr ⟨_, freadU32_open h.is_open (by decide) (h.drop_end.trans hfour)⟩

/-- Behind the last record of a file the scan goes on with the next file, with
no more than three zero bytes as with any number of them. -/
theorem readBlockHeader_end (hc : files.length < 2 ^ 32) (h : InFile files b front f done []) :
    ∃ q, ∀ b', b' = b.setFile front.length { bytes := f.bytes, position := q } →
      (∀ b1, b'.openBlock = (false, b1) → b.readBlockHeader H = (false, b1)) ∧
      ∀ b1 b2 n, b'.openBlock = (true, b1) → b1.mBlockIndex.toNat = n →
        b1.freadU32 n = (some MAGIC_ID, b2) → b.readBlockHeader H = b2.readHeader H n := by
  have hidx := h.index_toNat hc
  have hin : b.mBlockIndex.toNat < b.mBlockDataFiles.length := by
    rw [hidx, h.files_eq]
    simp
  rcases h.freadU32_zeros with ⟨q, hread⟩ | ⟨q, hread⟩
  · refine ⟨q, ?_⟩
    rintro b' rfl
    have hend := readMagic_end hidx hread
    constructor
    · intro b1 hopen
      rw [hopen] at hend
      simp only [Bool.false_eq_true, if_false] at hend
      exact readBlockHeader_none hin hend rfl
    · intro b1 b2 n hopen hn hmagic
      simp only [hopen, if_true, hn, hmagic] at hend
      exact readBlockHeader_magic hin hend rfl
  · have hposle : (recordBytes done).length < 2 ^ 32 := by
      have hf31 := f.length_lt
      rw [h.split, List.append_nil] at hf31
      omega
    obtain ⟨q', hskip⟩ := skipToMagic_zeros (open_setFile h.is_open
      { bytes := f.bytes, position := q }) hposle h.drop_end
    rw [setFile_setFile] at hskip
    have hmagic0 := readMagic_some hidx hread
    rw [h.is_open.file_eq] at hmagic0
    refine ⟨q', ?_⟩
    rintro b' rfl
    rw [readBlockHeader_search hin hmagic0 rfl (by decide), hskip]
    constructor
    · intro b1 hopen
      simp [hopen]
    · intro b1 b2 n hopen hn hmagic
      simp only [hopen, if_true, hn, hmagic, decide_true]

/-- The first record of the next file follows the last one of a file. -/
theorem readBlockHeader_next (hc : files.length < 2 ^ 32) (h : InFile files b front f done [])
    (hdisk : ∀ i, b.disk i = (files[i]?).map BlockFile.bytes) {f' : BlockFile} {r : BlockRecord}
    {rs : List BlockRecord} (hf : files[front.length + 1]? = some f') (hrec : f'.records = r :: rs) :
    ∃ q, b.readBlockHeader H =
      (true, ((b.setFile front.length { bytes := f.bytes, position := q }).opened f'.bytes).afterHeader
        (front.length + 1) { bytes := f'.bytes, position := (recordBytes [r]).length }
        (r.header H (front.length + 1) 0)) := by
  have hlt : front.length + 1 < files.length := (List.getElem?_eq_some_iff.mp hf).1
  obtain ⟨q, hend⟩ := readBlockHeader_end (H := H) hc h
  obtain ⟨b', hb'⟩ : ∃ b', b' = b.setFile front.length { bytes := f.bytes, position := q } :=
    ⟨_, rfl⟩
  have hlen : b'.mBlockDataFiles.length = front.length + 1 := by
    simp [hb', BlockChainImpl.setFile, h.files_eq]
  have hd : b'.disk (front.length + 1) = some f'.bytes := by
    rw [hb', show (b.setFile front.length _).disk = b.disk from rfl, hdisk, hf]
    rfl
  have hopen : b'.openBlock = (true, b'.opened f'.bytes) := by
    rw [openBlock_some hlen (by omega) hd, BlockChainImpl.opened, hlen]
  obtain ⟨hn, hmagic, hheader⟩ := opened_first (H := H) (b := b') hrec _ hlen (by omega)
  refine ⟨q, ?_⟩
  rw [← hb', (hend b' hb').2 _ _ _ hopen hn hmagic, hheader]

/-- Behind the last record of the last file the scan ends. -/
theorem readBlockHeader_done (hc : files.length < 2 ^ 32) (h : InFile files b front f done [])
    (hdisk : ∀ i, b.disk i = (files[i]?).map BlockFile.bytes)
    (hf : files[front.length + 1]? = none) :
    ∃ mBlockDataFiles mFileLength, mBlockDataFiles.length = front.length + 1 ∧
      b.readBlockHeader H = (false, b.withFiles mBlockDataFiles (UInt32.ofNat (front.length + 1))
        mFileLength) := by
  have hlt := h.lt
  obtain ⟨q, hend⟩ := readBlockHeader_end (H := H) hc h
  obtain ⟨b', hb'⟩ : ∃ b', b' = b.setFile front.length { bytes := f.bytes, position := q } :=
    ⟨_, rfl⟩
  have hlen : b'.mBlockDataFiles.length = front.length + 1 := by
    simp [hb', BlockChainImpl.setFile, h.files_eq]
  have hd : b'.disk (front.length + 1) = none := by
    rw [hb', show (b.setFile front.length _).disk = b.disk from rfl, hdisk, hf]
    rfl
  have hge : files.length ≤ front.length + 1 := List.getElem?_eq_none_iff.mp hf
  refine ⟨b'.mBlockDataFiles, b'.mFileLength, hlen, ?_⟩
  rcases Nat.lt_or_ge (front.length + 1) (2 ^ 32) with hsmall | hbig
  · rw [(hend b' hb').1 _ (openBlock_none hlen hsmall hd), hb']
    rfl
  · omega

/-! ## The whole scan -/

/-- What one read of a header changes: it is the last one and in the set. -/
structure HeaderRead (b : BlockChainImpl) (header : BlockHeader) (b' : BlockChainImpl) : Prop where
  last : b'.mLastBlockHeader = header
  set : b'.mBlockHeaderSet = b.mBlockHeaderSet.insert header
  count : b'.mScanCount = b.mScanCount
  max : b'.mMaxBlocks = b.mMaxBlocks

theorem afterHeader_read (fph : Nat) (file : File) (header : BlockHeader) :
    HeaderRead b header (b.afterHeader fph file header) := ⟨rfl, rfl, rfl, rfl⟩

theorem InFile.afterHeader {r : BlockRecord} (h : InFile files b front f done (r :: rest))
    (header : BlockHeader) : InFile files (b.afterHeader front.length
      { bytes := f.bytes, position := (recordBytes (done ++ [r])).length } header)
      front f (done ++ [r]) rest where
  file_at := h.file_at
  split := by simp [h.split]
  files_eq := by simp [BlockChainImpl.afterHeader, BlockChainImpl.setFile, h.files_eq]
  index_eq := h.index_eq

/-- The scan in the next file, behind its first record. -/
theorem InFile.nextFile (h : InFile files b front f done []) {f' : BlockFile} {r : BlockRecord}
    {rs : List BlockRecord} (hf : files[front.length + 1]? = some f') (hrec : f'.records = r :: rs)
    (q : Nat) (header : BlockHeader) :
    InFile files
      (((b.setFile front.length { bytes := f.bytes, position := q }).opened f'.bytes).afterHeader
        (front.length + 1) { bytes := f'.bytes, position := (recordBytes [r]).length } header)
      (front ++ [{ bytes := f.bytes, position := q }]) f' [r] rs where
  file_at := by simpa using hf
  split := by simp [hrec]
  files_eq := by
    simp [BlockChainImpl.afterHeader, BlockChainImpl.opened, BlockChainImpl.setFile,
      BlockChainImpl.withFiles, h.files_eq]
  index_eq := by
    simp [BlockChainImpl.afterHeader, BlockChainImpl.opened, BlockChainImpl.setFile,
      BlockChainImpl.withFiles, h.files_eq]

theorem pendingHeaders_cons (r : BlockRecord) :
    pendingHeaders H files front.length (recordBytes done).length (r :: rest) =
      r.header H front.length (recordBytes done).length ::
        pendingHeaders H files front.length (recordBytes (done ++ [r])).length rest := by
  simp [pendingHeaders, recordHeaders, recordBytes]

/-- Behind the last record the next header is the first one of the next file. -/
theorem pendingHeaders_nil {f' : BlockFile} {r : BlockRecord} {rs : List BlockRecord}
    (hf : files[front.length + 1]? = some f') (hrec : f'.records = r :: rs) (start : Nat)
    (file : File) :
    pendingHeaders H files front.length start [] =
      r.header H (front.length + 1) 0 ::
        pendingHeaders H files (front ++ [file]).length (recordBytes [r]).length rs := by
  have hdrop : files.drop (front.length + 1) = f' :: files.drop (front.length + 2) := by
    obtain ⟨hlt, rfl⟩ := List.getElem?_eq_some_iff.mp hf
    exact List.drop_eq_getElem_cons hlt
  simp [pendingHeaders, hdrop, fileHeaders, hrec, recordHeaders, recordBytes]

/-- One read takes the next header. -/
theorem readBlockHeader_step {header : BlockHeader} (h : Scanning H files b (header :: pending)) :
    ∃ b', b.readBlockHeader H = (true, b') ∧ Scanning H files b' pending ∧
      HeaderRead b header b' := by
  obtain ⟨hdisk, hcount, hplace⟩ := h
  rcases hplace with ⟨front, f, done, rest, hin, hpending⟩ | ⟨hnil, -⟩
  · cases rest with
    | cons r rest =>
      rw [pendingHeaders_cons] at hpending
      obtain ⟨rfl, rfl⟩ := List.cons.inj hpending
      exact ⟨_, readBlockHeader_record hcount hin,
        ⟨hdisk, hcount, Or.inl ⟨front, f, done ++ [r], rest, hin.afterHeader _, rfl⟩⟩,
        afterHeader_read _ _ _⟩
    | nil =>
      rcases hf : files[front.length + 1]? with _ | f'
      · rw [pendingHeaders, List.drop_eq_nil_of_le (List.getElem?_eq_none_iff.mp hf)] at hpending
        cases hpending
      · obtain ⟨r, rs, hrec⟩ : ∃ r rs, f'.records = r :: rs :=
          List.exists_cons_of_ne_nil f'.records_ne
        obtain ⟨q, hread⟩ := readBlockHeader_next (H := H) hcount hin hdisk hf hrec
        rw [pendingHeaders_nil hf hrec _ { bytes := f.bytes, position := q }] at hpending
        obtain ⟨rfl, rfl⟩ := List.cons.inj hpending
        exact ⟨_, hread,
          ⟨hdisk, hcount, Or.inl ⟨_, f', [r], rs, hin.nextFile hf hrec q _, rfl⟩⟩,
          ⟨rfl, rfl, rfl, rfl⟩⟩
  · cases hnil

/-- With no header to come, a read finds none and changes neither the set nor
the last header. -/
theorem readBlockHeader_stop (h : Scanning H files b []) :
    ∃ b', b.readBlockHeader H = (false, b') ∧ Scanning H files b' [] ∧
      b'.mLastBlockHeader = b.mLastBlockHeader ∧ b'.mBlockHeaderSet = b.mBlockHeaderSet ∧
      b'.mScanCount = b.mScanCount := by
  obtain ⟨hdisk, hcount, hplace⟩ := h
  rcases hplace with ⟨front, f, done, rest, hin, hpending⟩ | ⟨-, hpast⟩
  · have hrest : rest = [] := by
      cases rest with
      | nil => rfl
      | cons r rest =>
        rw [pendingHeaders_cons] at hpending
        cases hpending
    subst hrest
    have hf : files[front.length + 1]? = none := by
      rcases hf : files[front.length + 1]? with _ | f'
      · rfl
      · obtain ⟨r, rs, hrec⟩ := List.exists_cons_of_ne_nil f'.records_ne
        rw [pendingHeaders_nil hf hrec _ default] at hpending
        cases hpending
    obtain ⟨fs, len, hlen, hread⟩ := readBlockHeader_done (H := H) hcount hin hdisk hf
    have hlt := hin.lt
    refine ⟨_, hread, ⟨hdisk, hcount, ?_⟩, rfl, rfl, rfl⟩
    rcases Nat.lt_or_ge (front.length + 1) (2 ^ 32) with hsmall | hbig
    · refine Or.inr ⟨rfl, ?_⟩
      simp only [BlockChainImpl.withFiles, hlen]
      simp
      omega
    · omega
  · refine ⟨b, ?_, ⟨hdisk, hcount, Or.inr ⟨rfl, hpast⟩⟩, rfl, rfl, rfl⟩
    unfold BlockChainImpl.readBlockHeader
    rw [if_neg (by omega)]

/-! ## Any read of a header -/

/-- Nothing but the files has changed. -/
def FilesOnly (b b' : BlockChainImpl) : Prop :=
  ∃ mBlockDataFiles mBlockIndex mFileLength,
    b' = b.withFiles mBlockDataFiles mBlockIndex mFileLength

theorem FilesOnly.trans {b b' b'' : BlockChainImpl} (h : FilesOnly b b') (h' : FilesOnly b' b'') :
    FilesOnly b b'' := by
  obtain ⟨fs, i, n, rfl⟩ := h
  obtain ⟨fs', i', n', rfl⟩ := h'
  exact ⟨fs', i', n', rfl⟩

theorem filesOnly_openBlock (b : BlockChainImpl) : FilesOnly b b.openBlock.2 := openBlock_frame b

theorem filesOnly_fseek (b : BlockChainImpl) (fph position : Nat) :
    FilesOnly b (b.fseek fph position) := ⟨_, _, _, rfl⟩

theorem filesOnly_fread (b : BlockChainImpl) (fph n : Nat) : FilesOnly b (b.fread fph n).2 :=
  ⟨_, _, _, rfl⟩

theorem filesOnly_freadU32 (b : BlockChainImpl) (fph : Nat) : FilesOnly b (b.freadU32 fph).2 :=
  ⟨_, _, _, rfl⟩

theorem filesOnly_readMagic (b : BlockChainImpl) : FilesOnly b b.readMagic.2 := by
  unfold BlockChainImpl.readMagic
  have hread := filesOnly_freadU32 b b.mBlockIndex.toNat
  have hopen := hread.trans (filesOnly_openBlock _)
  simp only
  split
  · exact hread
  · split
    · exact hopen.trans (filesOnly_freadU32 _ _)
    · exact hopen

theorem filesOnly_skipToMagic (b : BlockChainImpl) (fph : Nat) (lastBlockRead : UInt32) :
    FilesOnly b (b.skipToMagic fph lastBlockRead).2.2 := by
  unfold BlockChainImpl.skipToMagic
  have hread := (filesOnly_fseek b fph lastBlockRead.toNat).trans
    (filesOnly_fread _ fph MAX_BLOCK_SIZE.toNat)
  simp only
  split
  · exact (hread.trans (filesOnly_fseek _ _ _)).trans (filesOnly_freadU32 _ _)
  · have hopen := hread.trans (filesOnly_openBlock _)
    split
    · exact hopen.trans (filesOnly_freadU32 _ _)
    · exact hopen

/-- A read changes the files, and the last header and the set when it finds one. -/
def ReadResult (b : BlockChainImpl) (r : Bool × BlockChainImpl) : Prop :=
  r.1 = false ∧ FilesOnly b r.2 ∨ r.1 = true ∧ ∃ header, HeaderRead b header r.2

theorem ReadResult.of_filesOnly {b b' : BlockChainImpl} {r : Bool × BlockChainImpl}
    (h : FilesOnly b b') (hr : ReadResult b' r) : ReadResult b r := by
  rcases hr with ⟨hfalse, hfiles⟩ | ⟨htrue, header, hread⟩
  · exact Or.inl ⟨hfalse, h.trans hfiles⟩
  · obtain ⟨fs, i, n, rfl⟩ := h
    exact Or.inr ⟨htrue, header, ⟨hread.last, hread.set, hread.count, hread.max⟩⟩

theorem readHeader_cases (b : BlockChainImpl) (fph : Nat) : ReadResult b (b.readHeader H fph) := by
  unfold BlockChainImpl.readHeader
  have hlength := filesOnly_freadU32 b fph
  simp only
  split
  · exact Or.inl ⟨rfl, hlength⟩
  · split
    · split
      · exact Or.inr ⟨rfl, _, ⟨rfl, rfl, rfl, rfl⟩⟩
      · exact Or.inl ⟨rfl, hlength.trans (filesOnly_fread _ _ _)⟩
    · exact Or.inl ⟨rfl, hlength⟩

/-- A read ends without a header, or it comes to the header behind a magic number. -/
theorem readBlockHeader_outcome (b : BlockChainImpl) : ∃ b1, FilesOnly b b1 ∧
    (b.readBlockHeader H = (false, b1) ∨ ∃ fph, b.readBlockHeader H = b1.readHeader H fph) := by
  unfold BlockChainImpl.readBlockHeader
  have hmagic := filesOnly_readMagic b
  rcases hr : b.readMagic with ⟨m, b1⟩
  rw [hr] at hmagic
  split
  · simp only
    split
    · exact ⟨b1, hmagic, Or.inl rfl⟩
    · have hskip := hmagic.trans (filesOnly_skipToMagic b1 m.fph m.lastBlockRead)
      rcases hs : b1.skipToMagic m.fph m.lastBlockRead with ⟨fph, found, b2⟩
      rw [hs] at hskip
      split
      · simp only
        split
        · exact ⟨b2, hskip, Or.inr ⟨fph, rfl⟩⟩
        · exact ⟨b2, hskip, Or.inl rfl⟩
      · exact ⟨b1, hmagic, Or.inr ⟨m.fph, rfl⟩⟩
  · exact ⟨b, ⟨_, _, _, rfl⟩, Or.inl rfl⟩

theorem readBlockHeader_cases (b : BlockChainImpl) : ReadResult b (b.readBlockHeader H) := by
  rcases readBlockHeader_outcome (H := H) b with ⟨b1, hfiles, hfalse | ⟨fph, hheader⟩⟩
  · rw [hfalse]
    exact Or.inl ⟨rfl, hfiles⟩
  · rw [hheader]
    exact .of_filesOnly hfiles (readHeader_cases b1 fph)

/-! ## Any number of calls -/

/-- The constructor leaves the scan before the first record of the first file. -/
theorem scanning_new (memory : BlockChainImpl) (maxBlocks : UInt32)
    (hdisk : ∀ i, memory.disk i = (files[i]?).map BlockFile.bytes) (hcount : files.length < 2 ^ 32) :
    Scanning H files (BlockChainImpl.new memory maxBlocks) (fileHeaders H 0 files) := by
  unfold BlockChainImpl.new
  obtain ⟨b, hb⟩ : ∃ b, b = memory.initialised maxBlocks := ⟨_, rfl⟩
  have hnone : b.mBlockDataFiles = [] := by rw [hb, BlockChainImpl.initialised]
  have hd : b.disk = memory.disk := by rw [hb, BlockChainImpl.initialised]
  have hlen : b.mBlockDataFiles.length = 0 := by rw [hnone, List.length_nil]
  rw [← hd] at hdisk
  rw [← hb]
  cases files with
  | nil =>
    rw [openBlock_none hlen (by omega) (hdisk 0)]
    exact ⟨hdisk, hcount, Or.inr ⟨rfl, by simp [BlockChainImpl.withFiles, hnone]⟩⟩
  | cons f fs =>
    rw [openBlock_some hlen (by omega) (hdisk 0)]
    exact ⟨hdisk, hcount, Or.inl ⟨[], f, [], f.records,
      ⟨rfl, rfl, by simp [BlockChainImpl.withFiles, hnone, recordBytes], rfl⟩, rfl⟩⟩

theorem Scanning.congr {b' : BlockChainImpl} (h : Scanning H files b pending)
    (hdisk : b'.disk = b.disk) (hfiles : b'.mBlockDataFiles = b.mBlockDataFiles)
    (hindex : b'.mBlockIndex = b.mBlockIndex) : Scanning H files b' pending where
  disk := by
    rw [hdisk]
    exact h.disk
  count := h.count
  place := by
    rw [hfiles, hindex]
    rcases h.place with ⟨front, f, done, rest, hin, hpending⟩ | hpast
    · exact Or.inl ⟨front, f, done, rest,
        ⟨hin.file_at, hin.split, hfiles.trans hin.files_eq, hindex.trans hin.index_eq⟩, hpending⟩
    · exact Or.inr hpast

/-- The caller's `lastBlockRead` and the interface after `n` calls of `scanBlockChain`. -/
def afterScans (H : Hashes) (s : UInt32 × BlockChainImpl) : Nat → UInt32 × BlockChainImpl
  | 0 => s
  | n + 1 => ((afterScans H s n).2.scanBlockChain H (afterScans H s n).1).2

/-- The answer of the call `n`, the first one being the call 0. -/
def scanAnswer (H : Hashes) (s : UInt32 × BlockChainImpl) (n : Nat) : Bool :=
  ((afterScans H s n).2.scanBlockChain H (afterScans H s n).1).1

variable (H)

/-- The number of records of the files. -/
def recordCount (files : List BlockFile) : Nat := (files.map (fun f => f.records.length)).sum

theorem length_recordHeaders (fileIndex start : Nat) (rs : List BlockRecord) :
    (recordHeaders H fileIndex start rs).length = rs.length := by
  induction rs generalizing start with
  | nil => rfl
  | cons r rs ih => simp [recordHeaders, ih]

theorem length_fileHeaders (fileIndex : Nat) (files : List BlockFile) :
    (fileHeaders H fileIndex files).length = recordCount files := by
  induction files generalizing fileIndex with
  | nil => rfl
  | cons f fs ih => simp [fileHeaders, recordCount, length_recordHeaders, ih]

theorem length_le_recordCount (files : List BlockFile) : files.length ≤ recordCount files := by
  induction files with
  | nil => simp
  | cons f fs ih =>
    have hpos := List.length_pos_of_ne_nil f.records_ne
    simp only [recordCount, List.length_cons, List.map_cons, List.sum_cons] at ih ⊢
    omega

/-- What holds after `n` calls: the first `n` headers are read. -/
structure ScannedTo (files : List BlockFile) (maxBlocks : UInt32) (n : Nat) (b : BlockChainImpl) :
    Prop where
  scanning : Scanning H files b ((fileHeaders H 0 files).drop n)
  set : b.mBlockHeaderSet =
    (KeyedSet.empty _).insertAll ((fileHeaders H 0 files).take n)
  count : b.mScanCount = UInt32.ofNat n
  max : b.mMaxBlocks = maxBlocks

variable {H} {maxBlocks : UInt32} {n : Nat}

theorem scannedTo_new (memory : BlockChainImpl)
    (hdisk : ∀ i, memory.disk i = (files[i]?).map BlockFile.bytes) (hcount : files.length < 2 ^ 32) :
    ScannedTo H files maxBlocks 0 (BlockChainImpl.new memory maxBlocks) := by
  obtain ⟨fs, index, length, hopen⟩ := openBlock_frame (memory.initialised maxBlocks)
  refine ⟨scanning_new memory maxBlocks hdisk hcount, ?_, ?_, ?_⟩
  all_goals
    rw [BlockChainImpl.new, hopen]
    rfl

/-- One call: it answers `false`, and the next header is the last one. -/
theorem scannedTo_step (h : ScannedTo H files maxBlocks n b)
    (hn : n < (fileHeaders H 0 files).length)
    (hmax : (fileHeaders H 0 files).length ≤ maxBlocks.toNat) (lastBlockRead : UInt32) :
    ∃ b', b.scanBlockChain H lastBlockRead = (false, UInt32.ofNat n, b') ∧
      ScannedTo H files maxBlocks (n + 1) b' ∧
      b'.mLastBlockHeader = (fileHeaders H 0 files)[n] := by
  have hscan := h.scanning
  rw [List.drop_eq_getElem_cons hn] at hscan
  obtain ⟨b1, hread, hnext, hheader⟩ := readBlockHeader_step hscan
  have hlt := maxBlocks.toNat_lt
  have hcount : b1.mScanCount < b1.mMaxBlocks := by
    rw [hheader.count, hheader.max, h.count, h.max, UInt32.lt_iff_toNat_lt,
      UInt32.toNat_ofNat_of_lt' (by rw [UInt32.size]; omega)]
    omega
  refine ⟨{ b1 with mScanCount := b1.mScanCount + 1 }, ?_, ⟨hnext.congr rfl rfl rfl, ?_, ?_, ?_⟩,
    hheader.last⟩
  · unfold BlockChainImpl.scanBlockChain
    rw [hread]
    simp only [hcount, and_self, if_true]
    rw [hheader.count, h.count]
  · rw [hheader.set, h.set, List.take_succ_eq_append_getElem hn, KeyedSet.insertAll_append]
    rfl
  · rw [hheader.count, h.count]
    apply UInt32.toNat_inj.mp
    simp
  · exact hheader.max.trans h.max

/-- The call after the last header answers `true`. -/
theorem scannedTo_stop (h : ScannedTo H files maxBlocks (fileHeaders H 0 files).length b)
    (lastBlockRead : UInt32) :
    ∃ b', b.scanBlockChain H lastBlockRead = (true, lastBlockRead, b') ∧
      b'.mLastBlockHeader = b.mLastBlockHeader ∧ b'.mBlockHeaderSet = b.mBlockHeaderSet ∧
      b'.mScanCount = b.mScanCount := by
  have hscan := h.scanning
  rw [List.drop_length] at hscan
  obtain ⟨b1, hread, -, hlast, hset, hcount⟩ := readBlockHeader_stop hscan
  refine ⟨b1, ?_, hlast, hset, hcount⟩
  unfold BlockChainImpl.scanBlockChain
  rw [hread]
  rfl

/-- The run: after `n` calls the first `n` headers are read. -/
theorem scannedTo_run {s : UInt32 × BlockChainImpl} (h : ScannedTo H files maxBlocks 0 s.2)
    (hmax : (fileHeaders H 0 files).length ≤ maxBlocks.toNat)
    (hn : n ≤ (fileHeaders H 0 files).length) : ScannedTo H files maxBlocks n (afterScans H s n).2 := by
  induction n with
  | zero => exact h
  | succ n ih =>
    obtain ⟨b', hcall, hnext, -⟩ := scannedTo_step (ih (by omega)) hn hmax (afterScans H s n).1
    rw [afterScans, hcall]
    exact hnext

/-- After the call that answers `true` all headers are in the set, and the
last one is that of the last record. -/
theorem scanned_all {s : UInt32 × BlockChainImpl} (h : ScannedTo H files maxBlocks 0 s.2)
    (hmax : (fileHeaders H 0 files).length ≤ maxBlocks.toNat) :
    (afterScans H s ((fileHeaders H 0 files).length + 1)).2.mBlockHeaderSet =
      (KeyedSet.empty _).insertAll (fileHeaders H 0 files) ∧
    (afterScans H s ((fileHeaders H 0 files).length + 1)).2.mScanCount =
      UInt32.ofNat (fileHeaders H 0 files).length ∧
    ∀ header, (fileHeaders H 0 files).getLast? = some header →
      (afterScans H s ((fileHeaders H 0 files).length + 1)).2.mLastBlockHeader = header := by
  have hall := scannedTo_run h hmax (le_refl _)
  obtain ⟨bEnd, hcall, hlast, hset, hcount⟩ :=
    scannedTo_stop hall (afterScans H s (fileHeaders H 0 files).length).1
  rw [afterScans, hcall]
  refine ⟨by rw [hset, hall.set, List.take_length], hcount.trans hall.count, ?_⟩
  intro header hheader
  obtain ⟨k, hk⟩ : ∃ k, (fileHeaders H 0 files).length = k + 1 := by
    rcases hl : fileHeaders H 0 files with _ | ⟨x, xs⟩
    · rw [hl] at hheader
      cases hheader
    · exact ⟨xs.length, rfl⟩
  obtain ⟨b', hcallk, -, hlastk⟩ :=
    scannedTo_step (scannedTo_run h hmax (by omega : k ≤ _)) (by omega) hmax (afterScans H s k).1
  rw [List.getLast?_eq_getElem?, hk, Nat.add_sub_cancel, List.getElem?_eq_getElem (by omega)]
    at hheader
  rw [hlast, hk, afterScans, hcallk]
  exact hlastk.trans (Option.some.inj hheader)

/-! ## Four records -/

/-- 80 bytes of block data: the version 1, the hash of the previous block,
a merkle root, a time and bits of 0, and a nonce. -/
def sampleData (previousBlock : Hash256) (nonce : UInt8) : List UInt8 :=
  [1, 0, 0, 0] ++ previousBlock.toList ++ List.replicate 40 0 ++ [nonce, 0, 0, 0]

theorem sampleData_length (previousBlock : Hash256) (nonce : UInt8) :
    (sampleData previousBlock nonce).length = 80 := by
  simp [sampleData]

def sampleRecord (previousBlock : Hash256) (nonce : UInt8) : BlockRecord where
  data := sampleData previousBlock nonce
  prefix_le := by rw [sampleData_length]
  length_lt := by
    rw [sampleData_length]
    decide

def firstSHA256 : Hash256 :=
  #v[197, 240, 110, 23, 89, 236, 237, 226, 226, 0, 60, 20, 181, 5, 154, 85,
    60, 239, 56, 197, 33, 211, 130, 66, 220, 194, 45, 108, 55, 34, 86, 250]

def firstHash : Hash256 :=
  #v[159, 84, 219, 254, 148, 33, 124, 71, 62, 154, 205, 95, 82, 48, 61, 133,
    206, 30, 245, 229, 99, 167, 229, 91, 55, 138, 213, 85, 8, 159, 221, 77]

def secondSHA256 : Hash256 :=
  #v[40, 212, 192, 207, 238, 243, 97, 125, 176, 187, 7, 19, 178, 79, 66, 0,
    182, 5, 33, 37, 68, 211, 176, 33, 226, 85, 67, 153, 44, 184, 201, 173]

def secondHash : Hash256 :=
  #v[253, 165, 175, 84, 50, 242, 154, 146, 115, 141, 15, 164, 16, 216, 191, 156,
    175, 30, 23, 253, 151, 1, 247, 214, 190, 155, 229, 69, 193, 53, 230, 89]

def thirdSHA256 : Hash256 :=
  #v[196, 46, 191, 43, 186, 24, 199, 50, 229, 21, 123, 130, 116, 106, 110, 155,
    52, 103, 120, 118, 193, 93, 112, 4, 63, 31, 135, 194, 230, 178, 85, 146]

def thirdHash : Hash256 :=
  #v[216, 138, 216, 230, 41, 44, 243, 56, 183, 145, 99, 220, 25, 72, 225, 168,
    123, 1, 67, 251, 22, 185, 77, 88, 152, 95, 144, 236, 60, 230, 0, 96]

def staleSHA256 : Hash256 :=
  #v[100, 181, 190, 195, 151, 185, 78, 46, 222, 217, 56, 246, 102, 83, 96, 27,
    159, 251, 136, 22, 235, 37, 252, 245, 100, 107, 69, 173, 119, 92, 176, 74]

def staleHash : Hash256 :=
  #v[9, 114, 82, 129, 64, 106, 212, 137, 128, 185, 216, 204, 16, 159, 115, 133,
    12, 95, 49, 238, 23, 42, 202, 138, 63, 212, 98, 27, 97, 244, 150, 48]

/-- SHA-256 on the four blocks and on their hashes. -/
def sampleHashes : Hashes where
  computeSHA256 bytes :=
    if bytes = sampleData (Vector.replicate 32 0) 0 then firstSHA256
    else if bytes = firstSHA256.toList then firstHash
    else if bytes = sampleData firstHash 1 then secondSHA256
    else if bytes = secondSHA256.toList then secondHash
    else if bytes = sampleData secondHash 2 then thirdSHA256
    else if bytes = thirdSHA256.toList then thirdHash
    else if bytes = sampleData firstHash 3 then staleSHA256
    else staleHash
  computeRIPEMD160 _ := Vector.replicate 20 0

theorem sampleRecord_bytes (previousBlock : Hash256) (nonce : UInt8) :
    (sampleRecord previousBlock nonce).bytes.length = 88 := by
  rw [BlockRecord.length_bytes, sampleRecord, sampleData_length]

/-- Three blocks in a row, and behind them a second block on the first. -/
def sampleFile : BlockFile where
  records := [sampleRecord (Vector.replicate 32 0) 0, sampleRecord firstHash 1,
    sampleRecord secondHash 2, sampleRecord firstHash 3]
  zeros := 5
  records_ne := List.cons_ne_nil _ _
  length_lt := by simp [recordBytes, sampleRecord_bytes]

def sampleMemory : BlockChainImpl :=
  { (default : BlockChainImpl) with disk := fun i => ([sampleFile][i]?).map BlockFile.bytes }

/-! ## The scan of all files -/

/-- `scanBlockChain` answers `false` once for each record, in file order, and
then `true`. The set then holds the first header with each hash, and the last
header is that of the last record. -/
theorem the_scan_visits_every_record_once_in_order (H : Hashes) (files : List BlockFile)
    (memory : BlockChainImpl) (maxBlocks lastBlockRead : UInt32)
    (hdisk : ∀ i, memory.disk i = (files[i]?).map BlockFile.bytes)
    (hmax : recordCount files ≤ maxBlocks.toNat) :
    let s := (lastBlockRead, BlockChainImpl.new memory maxBlocks)
    let headers := fileHeaders H 0 files
    headers.length = recordCount files ∧
    (∀ n (hn : n < headers.length), scanAnswer H s n = false ∧
      (afterScans H s (n + 1)).1 = UInt32.ofNat n ∧
      (afterScans H s (n + 1)).2.mLastBlockHeader = headers[n]) ∧
    scanAnswer H s headers.length = true ∧
    (∀ header, header ∈ (afterScans H s (headers.length + 1)).2.mBlockHeaderSet ↔
      headers.find? (fun h => h.hash = header.hash) = some header) ∧
    ∀ header, headers.getLast? = some header →
      (afterScans H s (headers.length + 1)).2.mLastBlockHeader = header := by
  intro s headers
  have hlen : headers.length = recordCount files := length_fileHeaders H 0 files
  have hfiles := length_le_recordCount files
  have hlt := maxBlocks.toNat_lt
  have hstart : ScannedTo H files maxBlocks 0 s.2 := scannedTo_new memory hdisk (by omega)
  have hfit : (fileHeaders H 0 files).length ≤ maxBlocks.toNat := hlen.trans_le hmax
  obtain ⟨hset, -, hlast⟩ := scanned_all hstart hfit
  refine ⟨hlen, ?_, ?_, ?_, hlast⟩
  · intro n hn
    obtain ⟨b', hcall, -, hlastn⟩ :=
      scannedTo_step (scannedTo_run hstart hfit hn.le) hn hfit (afterScans H s n).1
    exact ⟨by rw [scanAnswer, hcall], by rw [afterScans, hcall], by rw [afterScans, hcall, hlastn]⟩
  · obtain ⟨bEnd, hcall, -⟩ := scannedTo_stop (scannedTo_run hstart hfit (le_refl _))
      (afterScans H s headers.length).1
    rw [scanAnswer, hcall]
  · intro header
    rw [hset, KeyedSet.mem_insertAll_empty]

theorem the_scan_visits_four_records_in_order :
    let s := (0, BlockChainImpl.new sampleMemory 4)
    let headers := fileHeaders sampleHashes 0 [sampleFile]
    headers.length = recordCount [sampleFile] ∧
    (∀ n (hn : n < headers.length), scanAnswer sampleHashes s n = false ∧
      (afterScans sampleHashes s (n + 1)).1 = UInt32.ofNat n ∧
      (afterScans sampleHashes s (n + 1)).2.mLastBlockHeader = headers[n]) ∧
    scanAnswer sampleHashes s headers.length = true ∧
    (∀ header, header ∈ (afterScans sampleHashes s (headers.length + 1)).2.mBlockHeaderSet ↔
      headers.find? (fun h => h.hash = header.hash) = some header) ∧
    ∀ header, headers.getLast? = some header →
      (afterScans sampleHashes s (headers.length + 1)).2.mLastBlockHeader = header :=
  the_scan_visits_every_record_once_in_order sampleHashes [sampleFile] sampleMemory 4 0
    (fun _ => rfl) (by decide)

end bitcoinstats.block_chain
