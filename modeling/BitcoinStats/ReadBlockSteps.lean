-- What each call on the built chain can do, stated once: the ways in which a
-- `readBlock` or a `readSingleTransaction` comes back, and the state it leaves.
import BitcoinStats.ReadBlock
import BitcoinStats.ParserRules

open byte_memory keyed_set exec runs bitcoinstats.bitcoin_address

namespace bitcoinstats.block_chain

/-! ## The data of a block -/

/-- The bytes of the block in its file, as far as the file has them. -/
def BlockChainImpl.chunkOf (b : BlockChainImpl) (header : BlockHeader) : List UInt8 :=
  ((b.file header.mFileIndex.toNat).bytes.drop header.mFileOffset.toNat).take
    header.mBlockLength.toNat

/-- `fread` of the block returns 1. -/
def BlockChainImpl.CanRead (b : BlockChainImpl) (header : BlockHeader) : Prop :=
  header.mBlockLength ≠ 0 ∧ (b.chunkOf header).length = header.mBlockLength.toNat

instance (b : BlockChainImpl) (header : BlockHeader) : Decidable (b.CanRead header) :=
  inferInstanceAs (Decidable (_ ∧ _))

/-- The block data buffer behind the read: what it held before lies behind the block. -/
def BlockChainImpl.dataOf (b : BlockChainImpl) (header : BlockHeader) : Memory :=
  overlay (b.chunkOf header) b.mBlockDataBuffer

variable (H : Hashes)

/-- The state in which the parser starts on the block. -/
def BlockChainImpl.blockStart (b : BlockChainImpl) (blockIndex : UInt32) (header : BlockHeader) :
    ParseState :=
  b.parseState
    { b.mSingleReadBlock.startRead b.mBlockCount blockIndex header with
      computedBlockHash := H.doubleSHA256 (window (b.dataOf header) 0 80) }
    b.mTransactionCount

def BlockChainImpl.parseRun (b : BlockChainImpl) (blockIndex : UInt32) (header : BlockHeader) :
    EStateM.Result Shutdown ParseState Bool :=
  (processBlockData H (b.dataOf header) header.mBlockLength).run (b.blockStart H blockIndex header)

/-- The interface once the parser has stopped in the state `s`. -/
def BlockChainImpl.afterParse (b : BlockChainImpl) (header : BlockHeader) (s : ParseState) :
    BlockChainImpl :=
  { b.withGlobals s with
    mBlockDataFiles := b.mBlockDataFiles.set header.mFileIndex.toNat
      { bytes := (b.file header.mFileIndex.toNat).bytes
        position := header.mFileOffset.toNat + header.mBlockLength.toNat }
    mBlockDataBuffer := b.dataOf header
    mSingleReadBlock := s.block
    mTransactionCount := s.transactionIndex }

/-! ## Files -/

theorem file_setFile {b : BlockChainImpl} {fph : Nat} (h : fph < b.mBlockDataFiles.length)
    (f : File) : (b.setFile fph f).file fph = f := by
  unfold BlockChainImpl.file BlockChainImpl.setFile
  simp [h]

/-- There is no file there: nothing is stored, and nothing is read. -/
theorem setFile_of_le {b : BlockChainImpl} {fph : Nat} (h : b.mBlockDataFiles.length ≤ fph)
    (f : File) : b.setFile fph f = b := by
  unfold BlockChainImpl.setFile
  rw [List.set_eq_of_length_le h]

theorem file_of_le {b : BlockChainImpl} {fph : Nat} (h : b.mBlockDataFiles.length ≤ fph) :
    b.file fph = default := by
  unfold BlockChainImpl.file
  simp [h]

theorem fread_fst (b : BlockChainImpl) (fph position n : Nat) :
    ((b.fseek fph position).fread fph n).1 = ((b.file fph).bytes.drop position).take n := by
  rcases Nat.lt_or_ge fph b.mBlockDataFiles.length with h | h
  · unfold BlockChainImpl.fread BlockChainImpl.fseek
    rw [file_setFile h]
    rfl
  · unfold BlockChainImpl.fread BlockChainImpl.fseek
    rw [setFile_of_le h, file_of_le h]
    have hempty : (default : File).bytes = [] := rfl
    simp [File.chunk, hempty]

theorem fread_snd {b : BlockChainImpl} {fph position n : Nat}
    (hfull : (((b.file fph).bytes.drop position).take n).length = n) :
    ((b.fseek fph position).fread fph n).2 =
      b.setFile fph { bytes := (b.file fph).bytes, position := position + n } := by
  rcases Nat.lt_or_ge fph b.mBlockDataFiles.length with h | h
  · unfold BlockChainImpl.fread BlockChainImpl.fseek
    rw [file_setFile h]
    unfold File.fread File.chunk File.fseek
    simp only [hfull]
    unfold BlockChainImpl.setFile
    simp
  · unfold BlockChainImpl.fread BlockChainImpl.fseek
    rw [setFile_of_le h, setFile_of_le h, setFile_of_le h]

/-! ## `readBlock` -/

/-- The interface with the data of the block in the buffer. -/
def BlockChainImpl.blockRead (b : BlockChainImpl) (blockIndex : UInt32) (header : BlockHeader) :
    BlockChainImpl :=
  { b.setFile header.mFileIndex.toNat
      { bytes := (b.file header.mFileIndex.toNat).bytes
        position := header.mFileOffset.toNat + header.mBlockLength.toNat } with
    mBlockDataBuffer := b.dataOf header
    mSingleReadBlock := b.mSingleReadBlock.startRead b.mBlockCount blockIndex header }

theorem startRead_fread (b : BlockChainImpl) (blockIndex : UInt32) (header : BlockHeader) :
    ∃ b1, (b.startRead blockIndex header).fread header.mFileIndex.toNat header.mBlockLength.toNat =
        (b.chunkOf header, b1) ∧
      (b.CanRead header → { b1 with
        mBlockDataBuffer := overlay (b.chunkOf header) b1.mBlockDataBuffer } =
          b.blockRead blockIndex header) := by
  have hfst := fread_fst b header.mFileIndex.toNat header.mFileOffset.toNat header.mBlockLength.toNat
  obtain ⟨b0, hb0⟩ : ∃ b0, b0 = ((b.fseek header.mFileIndex.toNat header.mFileOffset.toNat).fread
    header.mFileIndex.toNat header.mBlockLength.toNat).2 := ⟨_, rfl⟩
  refine ⟨{ b0 with
    mSingleReadBlock := b.mSingleReadBlock.startRead b.mBlockCount blockIndex header }, ?_, ?_⟩
  · rw [hb0, BlockChainImpl.chunkOf, ← hfst]
    rfl
  · intro hcan
    rw [fread_snd hcan.2] at hb0
    rw [hb0]
    rfl

theorem parseBlock_blockRead (b : BlockChainImpl) (blockIndex : UInt32) (header : BlockHeader) :
    (b.blockRead blockIndex header).parseBlock H =
      match b.parseRun H blockIndex header with
      | .ok ret s => .ok (ret, b.afterParse header s)
      | .error reason _ => .error reason := by
  have hrun : (processBlockData H (b.blockRead blockIndex header).mBlockDataBuffer
      (b.blockRead blockIndex header).mSingleReadBlock.blockLength).run
        ((b.blockRead blockIndex header).parseState
          { (b.blockRead blockIndex header).mSingleReadBlock with
            computedBlockHash :=
              H.doubleSHA256 (window (b.blockRead blockIndex header).mBlockDataBuffer 0 80) }
          (b.blockRead blockIndex header).mTransactionCount) = b.parseRun H blockIndex header := rfl
  unfold BlockChainImpl.parseBlock
  simp only
  rw [hrun]
  cases b.parseRun H blockIndex header with
  | ok ret s => rfl
  | error reason s => rfl

/-- The ways of `readBlock` behind its range check. -/
theorem readBlockAt_eq (b : BlockChainImpl) (blockIndex : UInt32) (header : BlockHeader) :
    b.readBlockAt H blockIndex header =
      if b.CanRead header then
        match b.parseRun H blockIndex header with
        | .ok true s =>
          ((b.afterParse header s).processTransactions s.block).map (fun b' => (true, b'.takeWarning))
        | .ok false s => .ok (false, (b.afterParse header s).takeWarning)
        | .error reason _ => .error reason
      else .error .failedToReadInputBlock := by
  obtain ⟨b1, hread, hfull⟩ := startRead_fread b blockIndex header
  unfold BlockChainImpl.readBlockAt
  rw [hread]
  simp only
  by_cases hcan : b.CanRead header
  · rw [if_pos hcan, if_pos (by exact hcan), hfull hcan, parseBlock_blockRead]
    cases b.parseRun H blockIndex header with
    | error reason s => rfl
    | ok ret s =>
      cases ret with
      | false => rfl
      | true =>
        have hblock : (b.afterParse header s).mSingleReadBlock = s.block := rfl
        cases hfind : (b.afterParse header s).processTransactions s.block with
        | ok b2 => simp [hblock, hfind, bind, Except.bind, Except.map]
        | error reason => simp [hblock, hfind, bind, Except.bind, Except.map]
  · rw [if_neg hcan, if_neg (by exact hcan)]

/-! ## `processTransactions` -/

theorem findInputs_ok {b b' : BlockChainImpl} {block : BlockImpl} {ts : List BlockTransaction}
    (h : b.findInputs block ts = .ok b') :
    (∀ t ∈ ts, ∀ hash ∈ block.spentHashes t, (b.mTransactionSet.lookup hash).isSome) ∧
      ∃ inputs outputs, b' = { b with mTotalInputCount := inputs, mTotalOutputCount := outputs } := by
  induction ts generalizing b with
  | nil =>
    obtain rfl := Except.ok.inj h
    exact ⟨nofun, _, _, rfl⟩
  | cons t ts ih =>
    unfold BlockChainImpl.findInputs at h
    simp only at h
    split at h
    · rename_i hfound
      obtain ⟨hall, inputs, outputs, rfl⟩ := ih h
      refine ⟨?_, inputs, outputs, rfl⟩
      intro t' ht'
      rcases List.mem_cons.mp ht' with rfl | ht'
      · exact hfound
      · exact hall t' ht'
    · cases h

/-- The transactions of a block that passes are in the index, and so is all
that they spend. -/
structure Indexed (b : BlockChainImpl) (block : BlockImpl) (b' : BlockChainImpl) : Prop where
  set_eq : b'.mTransactionSet =
    b.mTransactionSet.insertAll (block.transactionList.map BlockTransaction.location)
  count_eq : b'.mTotalTransactionCount = b.mTotalTransactionCount + block.transactionCount
  spent : ∀ t ∈ block.transactionList, ∀ hash ∈ block.spentHashes t,
    (b'.mTransactionSet.lookup hash).isSome
  frame : ∃ total inputs outputs set, b' = { b with
    mTotalTransactionCount := total, mTotalInputCount := inputs, mTotalOutputCount := outputs,
    mTransactionSet := set }

theorem processTransactions_ok {b b' : BlockChainImpl} {block : BlockImpl}
    (h : b.processTransactions block = .ok b') : Indexed b block b' := by
  unfold BlockChainImpl.processTransactions at h
  obtain ⟨hall, inputs, outputs, rfl⟩ := findInputs_ok h
  exact ⟨rfl, rfl, hall, _, _, _, _, rfl⟩

/-! ## The cases of `readBlock` -/

def BlockChainImpl.headerAt (b : BlockChainImpl) (blockIndex : UInt32) : BlockHeader :=
  b.mBlockChainHeaders.getD blockIndex.toNat default

/-- The data of the block was read, and the parser stopped in `s`. -/
structure Parsed (b : BlockChainImpl) (blockIndex : UInt32) (ret : Bool) (s : ParseState) : Prop where
  inRange : blockIndex < b.mBlockCount
  canRead : b.CanRead (b.headerAt blockIndex)
  run : b.parseRun H blockIndex (b.headerAt blockIndex) = .ok ret s

theorem readBlock_inRange {b : BlockChainImpl} {blockIndex : UInt32} (h : blockIndex < b.mBlockCount) :
    b.readBlock H blockIndex = b.readBlockAt H blockIndex (b.headerAt blockIndex) := by
  unfold BlockChainImpl.readBlock
  rw [if_neg (UInt32.not_le.mpr h)]
  rfl

/-- What a call of `readBlock` that comes back has done: nothing at all, half
of it for a block that the parser turned down, or all of it. -/
theorem readBlock_cases {b b' : BlockChainImpl} {blockIndex : UInt32} {returned : Bool}
    (h : b.readBlock H blockIndex = .ok (returned, b')) :
    (b.mBlockCount ≤ blockIndex ∧ returned = false ∧ b' = b) ∨
    (returned = false ∧ ∃ s, Parsed H b blockIndex false s ∧
      b' = (b.afterParse (b.headerAt blockIndex) s).takeWarning) ∨
    (returned = true ∧ ∃ s b2, Parsed H b blockIndex true s ∧
      Indexed (b.afterParse (b.headerAt blockIndex) s) s.block b2 ∧ b' = b2.takeWarning) := by
  rcases UInt32.lt_or_le blockIndex b.mBlockCount with hrange | hrange
  · rw [readBlock_inRange H hrange, readBlockAt_eq] at h
    by_cases hcan : b.CanRead (b.headerAt blockIndex)
    · rw [if_pos hcan] at h
      cases hrun : b.parseRun H blockIndex (b.headerAt blockIndex) with
      | error reason s =>
        rw [hrun] at h
        cases h
      | ok ret s =>
        rw [hrun] at h
        cases ret with
        | false =>
          obtain ⟨rfl, rfl⟩ := Prod.mk.inj (Except.ok.inj h)
          exact Or.inr (Or.inl ⟨rfl, s, ⟨hrange, hcan, hrun⟩, rfl⟩)
        | true =>
          simp only at h
          cases hfind : (b.afterParse (b.headerAt blockIndex) s).processTransactions s.block with
          | error reason =>
            rw [hfind] at h
            cases h
          | ok b2 =>
            rw [hfind] at h
            obtain ⟨rfl, rfl⟩ := Prod.mk.inj (Except.ok.inj h)
            exact Or.inr (Or.inr ⟨rfl, s, b2, ⟨hrange, hcan, hrun⟩, processTransactions_ok hfind, rfl⟩)
    · rw [if_neg hcan] at h
      cases h
  · unfold BlockChainImpl.readBlock at h
    rw [if_pos hrange] at h
    obtain ⟨rfl, rfl⟩ := Prod.mk.inj (Except.ok.inj h)
    exact Or.inl ⟨hrange, rfl, rfl⟩

/-- A block that the parser turns down comes back as such. -/
theorem readBlock_rejected {b : BlockChainImpl} {blockIndex : UInt32} {s : ParseState}
    (h : Parsed H b blockIndex false s) : b.readBlock H blockIndex =
      .ok (false, (b.afterParse (b.headerAt blockIndex) s).takeWarning) := by
  rw [readBlock_inRange H h.inRange, readBlockAt_eq, if_pos h.canRead, h.run]

/-- What the parser keeps holds behind it. -/
theorem Parsed.invariant {b : BlockChainImpl} {blockIndex : UInt32} {ret : Bool} {s : ParseState}
    {I : ParseState → Prop} (hI : InvariantOfParser H I) (h : Parsed H b blockIndex ret s)
    (hstart : I ((b.blockStart H blockIndex (b.headerAt blockIndex)).setBlockData
      (b.dataOf (b.headerAt blockIndex)) (b.headerAt blockIndex).mBlockLength)) : I s := by
  have hkeep := hI.keeps _ hstart
  have hrun : (readBlockData H).run ((b.blockStart H blockIndex (b.headerAt blockIndex)).setBlockData
      (b.dataOf (b.headerAt blockIndex)) (b.headerAt blockIndex).mBlockLength) = .ok ret s := h.run
  rw [hrun] at hkeep
  exact hkeep

/-- What no call of `readBlock` touches. -/
structure BlockFrame (b b' : BlockChainImpl) : Prop where
  disk : b'.disk = b.disk
  set : b'.mBlockHeaderSet = b.mBlockHeaderSet
  last : b'.mLastBlockHeader = b.mLastBlockHeader
  headers : b'.mBlockChainHeaders = b.mBlockChainHeaders
  count : b'.mBlockCount = b.mBlockCount
  transactionBlock : b'.mSingleTransactionBlock = b.mSingleTransactionBlock

theorem afterParse_frame (b : BlockChainImpl) (header : BlockHeader) (s : ParseState) :
    BlockFrame b (b.afterParse header s) := ⟨rfl, rfl, rfl, rfl, rfl, rfl⟩

theorem readBlock_frame {b b' : BlockChainImpl} {blockIndex : UInt32} {returned : Bool}
    (h : b.readBlock H blockIndex = .ok (returned, b')) : BlockFrame b b' := by
  rcases readBlock_cases H h with ⟨-, -, rfl⟩ | ⟨-, s, -, rfl⟩ | ⟨-, s, b2, -, hindexed, rfl⟩
  · exact ⟨rfl, rfl, rfl, rfl, rfl, rfl⟩
  · obtain ⟨hdisk, hset, hlast, hheaders, hcount, hblock⟩ :=
      afterParse_frame b (b.headerAt blockIndex) s
    exact ⟨hdisk, hset, hlast, hheaders, hcount, hblock⟩
  · obtain ⟨total, inputs, outputs, set, rfl⟩ := hindexed.frame
    obtain ⟨hdisk, hset, hlast, hheaders, hcount, hblock⟩ :=
      afterParse_frame b (b.headerAt blockIndex) s
    exact ⟨hdisk, hset, hlast, hheaders, hcount, hblock⟩

/-! ## Before the first read -/

/-- Nothing has changed but the files and what the scan collects. -/
def ScanOnly (b b' : BlockChainImpl) : Prop :=
  ∃ mBlockDataFiles mBlockIndex mFileLength mLastBlockHeader mBlockHeaderSet mScanCount,
    b' = { b.withFiles mBlockDataFiles mBlockIndex mFileLength with
      mLastBlockHeader := mLastBlockHeader
      mBlockHeaderSet := mBlockHeaderSet
      mScanCount := mScanCount }

theorem ScanOnly.trans {b b' b'' : BlockChainImpl} (h : ScanOnly b b') (h' : ScanOnly b' b'') :
    ScanOnly b b'' := by
  obtain ⟨fs, i, n, last, set, count, rfl⟩ := h
  obtain ⟨fs', i', n', last', set', count', rfl⟩ := h'
  exact ⟨fs', i', n', last', set', count', rfl⟩

theorem FilesOnly.scanOnly {b b' : BlockChainImpl} (h : FilesOnly b b') : ScanOnly b b' := by
  obtain ⟨fs, i, n, rfl⟩ := h
  exact ⟨fs, i, n, b.mLastBlockHeader, b.mBlockHeaderSet, b.mScanCount, rfl⟩

theorem scanOnly_readHeader (b : BlockChainImpl) (fph : Nat) :
    ScanOnly b (b.readHeader H fph).2 := by
  unfold BlockChainImpl.readHeader
  have hlength := filesOnly_freadU32 b fph
  have hread := hlength.trans (filesOnly_fread (b.freadU32 fph).2 fph 80)
  simp only
  split
  · exact hlength.scanOnly
  · split
    · split
      · exact hread.scanOnly.trans ⟨_, _, _, _, _, _, rfl⟩
      · exact hread.scanOnly
    · exact hlength.scanOnly

theorem scanOnly_readBlockHeader (b : BlockChainImpl) : ScanOnly b (b.readBlockHeader H).2 := by
  rcases readBlockHeader_outcome (H := H) b with ⟨b1, hfiles, hfalse | ⟨fph, hheader⟩⟩
  · rw [hfalse]
    exact hfiles.scanOnly
  · rw [hheader]
    exact hfiles.scanOnly.trans (scanOnly_readHeader H b1 fph)

theorem scanOnly_scanBlockChain (b : BlockChainImpl) (lastBlockRead : UInt32) :
    ScanOnly b (b.scanBlockChain H lastBlockRead).2.2 := by
  have hread := scanOnly_readBlockHeader H b
  unfold BlockChainImpl.scanBlockChain
  simp only
  split
  · exact hread.trans ⟨_, _, _, _, _, _, rfl⟩
  · exact hread

/-- A build changes the chain and starts the count of the scan anew. -/
theorem buildBlockChain_frame {b b' : BlockChainImpl} {blockCount : UInt32}
    (h : b.buildBlockChain = some (blockCount, b')) :
    ∃ headers count scanned, b' = { b with
      mBlockChainHeaders := headers, mBlockCount := count, mScanCount := scanned } := by
  unfold BlockChainImpl.buildBlockChain at h
  split at h
  · simp only [Option.bind_eq_bind, Option.bind_eq_some_iff] at h
    obtain ⟨_, -, _, -, hb'⟩ := h
    obtain ⟨-, rfl⟩ := Prod.mk.inj (Option.some.inj hb')
    exact ⟨_, _, _, rfl⟩
  · obtain ⟨-, rfl⟩ := Prod.mk.inj (Option.some.inj h)
    exact ⟨b.mBlockChainHeaders, b.mBlockCount, b.mScanCount, rfl⟩

/-- No block was read yet. -/
structure Unread (b : BlockChainImpl) : Prop where
  nextBlockHash : b.mSingleReadBlock.nextBlockHash = none
  mTransactionSet : b.mTransactionSet = .empty _
  mTransactionCount : b.mTransactionCount = 0
  mTotalTransactionCount : b.mTotalTransactionCount = 0
  mTotalInputCount : b.mTotalInputCount = 0
  mTotalOutputCount : b.mTotalOutputCount = 0

/-- Scans and builds read no block. -/
theorem Reached.unread {b : BlockChainImpl} (h : Reached H b) : Unread b := by
  induction h with
  | new memory maxBlocks =>
    obtain ⟨fs, i, n, hopen⟩ := openBlock_frame (memory.initialised maxBlocks)
    rw [BlockChainImpl.new, hopen]
    exact ⟨rfl, rfl, rfl, rfl, rfl, rfl⟩
  | @scan b lastBlockRead _ ih =>
    obtain ⟨fs, i, n, last, set, count, hscan⟩ := scanOnly_scanBlockChain H b lastBlockRead
    rw [hscan]
    exact ⟨ih.nextBlockHash, ih.mTransactionSet, ih.mTransactionCount, ih.mTotalTransactionCount,
      ih.mTotalInputCount, ih.mTotalOutputCount⟩
  | build _ hbuild ih =>
    obtain ⟨headers, count, scanned, rfl⟩ := buildBlockChain_frame hbuild
    exact ⟨ih.nextBlockHash, ih.mTransactionSet, ih.mTransactionCount, ih.mTotalTransactionCount,
      ih.mTotalInputCount, ih.mTotalOutputCount⟩

/-! ## A chain of one block -/

/-- The memory of an interface whose one file has one block. -/
def oneBlock (blockData : List UInt8) : BlockChainImpl :=
  { (default : BlockChainImpl) with
    disk := fun i =>
      if i = 0 then some (leBytes 4 MAGIC_ID.toNat ++ leBytes 4 blockData.length ++ blockData)
      else none }

/-- The interface once the block is scanned. -/
def oneBlockScanned (blockData : List UInt8) : BlockChainImpl :=
  ((BlockChainImpl.new (oneBlock blockData) 4).scanBlockChain H 0).2.2

theorem oneBlockScanned_reached (blockData : List UInt8) : Reached H (oneBlockScanned H blockData) :=
  (Reached.new (oneBlock blockData) 4).scan 0

/-- The SHA-256 hash of 80 zero bytes, and of it in turn. -/
def zeroHeaderSHA256 : Hash256 :=
  #v[91, 111, 181, 142, 97, 250, 71, 89, 57, 118, 125, 104, 164, 70, 249, 127,
    27, 255, 2, 192, 229, 147, 90, 62, 168, 187, 81, 230, 81, 87, 131, 216]

def zeroHeaderHash : Hash256 :=
  #v[75, 231, 87, 14, 143, 112, 235, 9, 54, 64, 200, 70, 130, 116, 186, 117,
    151, 69, 167, 170, 43, 125, 37, 171, 30, 4, 33, 178, 89, 132, 80, 20]

/-- SHA-256 on a header of zeros and on its hash. -/
def zeroHeaderHashes : Hashes where
  computeSHA256 bytes := if bytes = List.replicate 80 0 then zeroHeaderSHA256 else zeroHeaderHash
  computeRIPEMD160 _ := Vector.replicate 20 0

/-- The states of a build and of the call of `readBlock` behind it. -/
structure BuildAndRead where
  blockCount : UInt32
  built : BlockChainImpl
  returned : Bool
  read : BlockChainImpl

def BlockChainImpl.buildAndRead (b : BlockChainImpl) (blockIndex : UInt32) : Option BuildAndRead := do
  let (blockCount, built) ← b.buildBlockChain
  let (returned, read) ← (built.readBlock H blockIndex).toOption
  some { blockCount, built, returned, read }

theorem buildAndRead_eq {b : BlockChainImpl} {blockIndex : UInt32} {r : BuildAndRead}
    (h : b.buildAndRead H blockIndex = some r) :
    b.buildBlockChain = some (r.blockCount, r.built) ∧
      r.built.readBlock H blockIndex = .ok (r.returned, r.read) := by
  unfold BlockChainImpl.buildAndRead at h
  obtain ⟨⟨blockCount, built⟩, hbuild, h⟩ := Option.bind_eq_some_iff.mp h
  obtain ⟨⟨returned, read⟩, hread, h⟩ := Option.bind_eq_some_iff.mp h
  obtain rfl := Option.some.inj h
  exact ⟨hbuild, toOption_eq_some.mp hread⟩

/-- A transaction that spends nothing and pays nothing. -/
def plainTransaction (version : Nat) : List UInt8 :=
  leBytes 4 version ++ [1] ++ (List.replicate 32 0 ++ leBytes 4 0xFFFFFFFF ++ [0] ++ leBytes 4 0) ++
    [0] ++ leBytes 4 0

end bitcoinstats.block_chain
