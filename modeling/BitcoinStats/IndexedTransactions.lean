-- Every transaction of the blocks that `readBlock` gives is read again through
-- the index: where the block puts it, and how the files stay as they were.
import BitcoinStats.TransactionIndex

open byte_memory keyed_set walk exec cursor runs bitcoinstats.bitcoin_address

namespace bitcoinstats.block_chain

variable {H : Hashes}

/-! ## The lengths of the blocks -/

/-- No block that was scanned is too long for the block data buffer. -/
structure ShortBlocks (b : BlockChainImpl) : Prop where
  scanned : ∀ header ∈ b.mBlockHeaderSet, header.mBlockLength < MAX_BLOCK_SIZE
  chain : ∀ header ∈ b.mBlockChainHeaders, header.mBlockLength < MAX_BLOCK_SIZE

theorem default_short : (default : BlockHeader).mBlockLength < MAX_BLOCK_SIZE := by decide

theorem readHeader_short {b : BlockChainImpl} {fph : Nat} (h : (b.readHeader H fph).1 = true) :
    (b.readHeader H fph).2.mLastBlockHeader.mBlockLength < MAX_BLOCK_SIZE := by
  unfold BlockChainImpl.readHeader at h ⊢
  simp only at h ⊢
  split at h
  · cases h
  · split at h
    · rename_i hshort
      rw [if_pos hshort]
      split at h
      · rename_i hlength
        rw [if_pos hlength]
        exact hshort
      · cases h
    · cases h

theorem readBlockHeader_short {b : BlockChainImpl} (h : (b.readBlockHeader H).1 = true) :
    (b.readBlockHeader H).2.mLastBlockHeader.mBlockLength < MAX_BLOCK_SIZE := by
  unfold BlockChainImpl.readBlockHeader at h ⊢
  split at h
  · rename_i hfile
    rw [if_pos hfile]
    simp only at h ⊢
    split at h
    · cases h
    · split at h
      · rename_i hmagic
        rw [if_pos hmagic]
        split at h
        · rename_i hfound
          rw [if_pos hfound]
          exact readHeader_short h
        · cases h
      · rename_i hmagic
        rw [if_neg hmagic]
        exact readHeader_short h
  · cases h

theorem shortBlocks_scan {b : BlockChainImpl} (h : ShortBlocks b) (lastBlockRead : UInt32) :
    ShortBlocks (b.scanBlockChain H lastBlockRead).2.2 := by
  have hread : ShortBlocks (b.readBlockHeader H).2 := by
    obtain ⟨fs, i, n, last, set, count, hscan⟩ := scanOnly_readBlockHeader H b
    have hchain : (b.readBlockHeader H).2.mBlockChainHeaders = b.mBlockChainHeaders := by
      rw [hscan]
      rfl
    refine ⟨?_, by rw [hchain]; exact h.chain⟩
    rcases readBlockHeader_cases (H := H) b with ⟨-, fs, i, n, hfiles⟩ | ⟨htrue, header, hheader⟩
    · rw [hfiles]
      exact h.scanned
    · have hshort := readBlockHeader_short htrue
      rw [hheader.last] at hshort
      intro other hother
      rw [hheader.set] at hother
      rcases KeyedSet.mem_insert hother with hold | rfl
      · exact h.scanned other hold
      · exact hshort
  unfold BlockChainImpl.scanBlockChain
  simp only
  split
  · exact ⟨hread.scanned, hread.chain⟩
  · exact hread

/-- A header of the array is one that was there, or one that was written. -/
theorem mem_storeHeaders {headers : List BlockHeader} {writes : List (UInt32 × BlockHeader)}
    {header : BlockHeader} (h : header ∈ storeHeaders headers writes) :
    header ∈ headers ∨ header ∈ writes.map Prod.snd := by
  induction writes generalizing headers with
  | nil => exact Or.inl h
  | cons write writes ih =>
    rcases ih h with hold | hnew
    · rcases List.mem_or_eq_of_mem_set hold with hbefore | rfl
      · exact Or.inl hbefore
      · exact Or.inr List.mem_cons_self
    · exact Or.inr (List.mem_cons_of_mem _ hnew)

theorem headerWrites_headers (index : UInt32) (l : List BlockHeader) :
    (headerWrites index l).map Prod.snd = l := by
  induction l generalizing index with
  | nil => rfl
  | cons header l ih => rw [headerWrites, List.map_cons, ih]

theorem shortBlocks_build {b b' : BlockChainImpl} {blockCount : UInt32} (h : ShortBlocks b)
    (hbuild : b.buildBlockChain = some (blockCount, b')) : ShortBlocks b' := by
  unfold BlockChainImpl.buildBlockChain at hbuild
  split at hbuild
  · simp only [Option.bind_eq_bind, Option.bind_eq_some_iff] at hbuild
    obtain ⟨count, -, writes, hgather, hb'⟩ := hbuild
    obtain ⟨-, rfl⟩ := Prod.mk.inj (Option.some.inj hb')
    rw [gatherHeaders_eq] at hgather
    obtain ⟨l, hsteps, rfl⟩ := Option.map_eq_some_iff.mp hgather
    refine ⟨h.scanned, ?_⟩
    intro header hheader
    rcases mem_storeHeaders hheader with hblank | hwritten
    · rw [List.eq_of_mem_replicate hblank]
      exact default_short
    · rw [headerWrites_headers] at hwritten
      exact h.scanned header (steps_stored hsteps
        (fun _ hfound => (KeyedSet.lookup_eq_some.mp hfound).1) header hwritten)
  · obtain ⟨-, rfl⟩ := Prod.mk.inj (Option.some.inj hbuild)
    exact h

theorem Reached.shortBlocks {b : BlockChainImpl} (h : Reached H b) : ShortBlocks b := by
  induction h with
  | new memory maxBlocks =>
    obtain ⟨fs, i, n, hopen⟩ := openBlock_frame (memory.initialised maxBlocks)
    rw [BlockChainImpl.new, hopen]
    exact ⟨fun _ h => absurd h List.not_mem_nil, fun _ h => absurd h List.not_mem_nil⟩
  | scan lastBlockRead _ ih => exact shortBlocks_scan ih lastBlockRead
  | build _ hbuild ih => exact shortBlocks_build ih hbuild

theorem ShortBlocks.headerAt {b : BlockChainImpl} (h : ShortBlocks b) (blockIndex : UInt32) :
    (b.headerAt blockIndex).mBlockLength < MAX_BLOCK_SIZE := by
  unfold BlockChainImpl.headerAt
  rw [List.getD_eq_getElem?_getD]
  cases hget : b.mBlockChainHeaders[blockIndex.toNat]? with
  | none => exact default_short
  | some header => exact h.chain header (List.mem_of_getElem? hget)

theorem ShortBlocks.step {b b' : BlockChainImpl} {call : ReadCall} (h : ShortBlocks b)
    (hstep : ReadStep H b call b') : ShortBlocks b' := by
  have hframe : BlockFrame b b' := by
    cases hstep with
    | nothing hread => exact readBlock_frame H hread
    | block hread => exact readBlock_frame H hread
  refine ⟨?_, ?_⟩
  · rw [hframe.set]
    exact h.scanned
  · rw [hframe.headers]
    exact h.chain

/-! ## The files behind a call -/

/-- The files are as they were, but that the one of the block was read to the
end of the block. -/
theorem readBlock_files {b b' : BlockChainImpl} {blockIndex : UInt32} {returned : Bool}
    (h : b.readBlock H blockIndex = .ok (returned, b')) :
    b'.mBlockDataFiles = b.mBlockDataFiles ∨
    (blockIndex < b.mBlockCount ∧
      b'.mBlockDataFiles = b.mBlockDataFiles.set (b.headerAt blockIndex).mFileIndex.toNat
        { bytes := (b.file (b.headerAt blockIndex).mFileIndex.toNat).bytes
          position := (b.headerAt blockIndex).mFileOffset.toNat +
            (b.headerAt blockIndex).mBlockLength.toNat }) := by
  rcases readBlock_cases H h with ⟨-, -, rfl⟩ | ⟨-, s, hs, rfl⟩ | ⟨-, s, b2, hs, hindexed, rfl⟩
  · exact Or.inl rfl
  · exact Or.inr ⟨hs.inRange, rfl⟩
  · obtain ⟨total, inputs, outputs, set, rfl⟩ := hindexed.frame
    exact Or.inr ⟨hs.inRange, rfl⟩

theorem LeadsTo.of_files {b b' : BlockChainImpl} {f : FileLocation} {w : TransactionWire}
    (h : LeadsTo b f w) (hbytes : b'.fileBytes = b.fileBytes)
    (hposition : (b'.file f.mFileIndex.toNat).position < 2 ^ 32) : LeadsTo b' f w where
  inFiles := by
    have hlength := congrArg List.length hbytes
    unfold BlockChainImpl.fileBytes at hlength
    rw [List.length_map, List.length_map] at hlength
    rw [hlength]
    exact h.inFiles
  short := h.short
  length := h.length
  chunk := by
    have hfile : (b'.file f.mFileIndex.toNat).bytes = (b.file f.mFileIndex.toNat).bytes := by
      rw [file_eq_getD, file_eq_getD, hbytes]
    have hchunk := h.chunk
    unfold BlockChainImpl.transactionChunk at hchunk ⊢
    rw [hfile]
    exact hchunk
  position := hposition

/-- Later reads do not touch what a place leads to. -/
theorem LeadsTo.readBlock {b b' : BlockChainImpl} {f : FileLocation} {w : TransactionWire}
    {blockIndex : UInt32} {returned : Bool} (h : LeadsTo b f w)
    (hend : blockIndex < b.mBlockCount → (b.headerAt blockIndex).mFileOffset.toNat +
      (b.headerAt blockIndex).mBlockLength.toNat < 2 ^ 32)
    (hread : b.readBlock H blockIndex = .ok (returned, b')) : LeadsTo b' f w := by
  rcases readBlock_files hread with hsame | ⟨hrange, hset⟩
  · refine h.of_files ?_ ?_
    · unfold BlockChainImpl.fileBytes
      rw [hsame]
    · have hposition := h.position
      unfold BlockChainImpl.file at hposition ⊢
      rw [hsame]
      exact hposition
  · obtain ⟨fph, hfph⟩ : ∃ fph, fph = (b.headerAt blockIndex).mFileIndex.toNat := ⟨_, rfl⟩
    obtain ⟨file, hfile⟩ : ∃ file : File, file =
      { bytes := (b.file (b.headerAt blockIndex).mFileIndex.toNat).bytes
        position := (b.headerAt blockIndex).mFileOffset.toNat +
          (b.headerAt blockIndex).mBlockLength.toNat } := ⟨_, rfl⟩
    have hfiles : b'.mBlockDataFiles = (b.setFile fph file).mBlockDataFiles := by
      rw [hset, hfph, hfile]
      rfl
    refine h.of_files ?_ ?_
    · have hbytes : file.bytes = (b.file fph).bytes := by rw [hfile, hfph]
      rw [← setFile_fileBytes hbytes]
      unfold BlockChainImpl.fileBytes
      rw [hfiles]
    · have hsame : b'.file f.mFileIndex.toNat = (b.setFile fph file).file f.mFileIndex.toNat := by
        unfold BlockChainImpl.file
        rw [hfiles]
      rw [hsame]
      by_cases hindex : f.mFileIndex.toNat = fph
      · rw [hindex, file_setFile (by rw [← hindex]; exact h.inFiles), hfile]
        exact hend hrange
      · have hother : (b.setFile fph file).file f.mFileIndex.toNat = b.file f.mFileIndex.toNat := by
          unfold BlockChainImpl.file BlockChainImpl.setFile
          rw [List.getD_eq_getElem?_getD, List.getD_eq_getElem?_getD, List.getElem?_set_ne]
          exact fun heq => hindex heq.symm
        rw [hother]
        exact h.position

/-! ## The transactions of a block -/

/-- The transaction of the block is the one on the wire, and its place leads there. -/
structure Rereads (H : Hashes) (b : BlockChainImpl) (block : BlockImpl) (t : BlockTransaction)
    (w : TransactionWire) : Prop where
  leads : LeadsTo b t.location w
  fits : w.Fits 0 0
  hash : t.transactionHash = H.doubleSHA256 w.bytes
  value : block.transactionValue t = w.value
  bytes : block.transactionBytes t = w.bytes

/-- A transaction that fits behind others fits alone. -/
theorem TransactionWire.Fits.alone {w : TransactionWire} {tin tout : UInt32} (h : w.Fits tin tout)
    (hin : tin < MAX_BLOCK_INPUTS) (hout : tout < MAX_BLOCK_OUTPUTS) : w.Fits 0 0 := by
  have hinputs := h.inputs
  have houtputs := h.outputs
  rw [UInt32.lt_iff_toNat_lt, w.add_inputs hin, w.inputs_length] at hinputs
  rw [UInt32.lt_iff_toNat_lt, w.add_outputs hout, w.outputs_length] at houtputs
  refine ⟨?_, ?_⟩
  · rw [UInt32.zero_add, UInt32.lt_iff_toNat_lt]
    omega
  · rw [UInt32.zero_add, UInt32.lt_iff_toNat_lt]
    omega

theorem TransactionsFit.alone {tin tout : UInt32} {ws : List TransactionWire}
    (h : TransactionsFit tin tout ws) (hin : tin < MAX_BLOCK_INPUTS)
    (hout : tout < MAX_BLOCK_OUTPUTS) : ∀ w ∈ ws, w.Fits 0 0 := by
  induction h with
  | nil => exact nofun
  | cons fits rest ih =>
    intro w hw
    rcases List.mem_cons.mp hw with rfl | hw
    · exact fits.alone hin hout
    · exact ih fits.inputs fits.outputs w hw

/-- The bytes of a block before, of and behind its transaction `k`. -/
theorem WholeBlock.bytes_split (w : WholeBlock) (k : Nat) (hk : k < w.transactions.length) :
    ∃ front behind, w.bytes = front ++ w.transactions[k].bytes ++ behind ∧
      front.length = 80 + w.transactionCount.bytes.length +
        ((w.transactions.take k).flatMap TransactionWire.bytes).length := by
  refine ⟨w.header.bytes ++ w.transactionCount.bytes ++
    (w.transactions.take k).flatMap TransactionWire.bytes,
    (w.transactions.drop (k + 1)).flatMap TransactionWire.bytes, ?_, ?_⟩
  · have hsplit : w.transactions =
        w.transactions.take k ++ w.transactions[k] :: w.transactions.drop (k + 1) := by
      rw [List.getElem_cons_drop, List.take_append_drop]
    have hbody : w.transactions.flatMap TransactionWire.bytes =
        (w.transactions.take k).flatMap TransactionWire.bytes ++ (w.transactions[k].bytes ++
          (w.transactions.drop (k + 1)).flatMap TransactionWire.bytes) := by
      conv_lhs => rw [hsplit]
      rw [List.flatMap_append, List.flatMap_cons]
    unfold WholeBlock.bytes
    rw [hbody]
    simp only [List.append_assoc]
  · rw [List.length_append, List.length_append, w.header.bytes_length]

/-- A block whose data starts whole gives what is there. -/
theorem Parsed.startsWhole {b : BlockChainImpl} {blockIndex : UInt32} {s : ParseState}
    (h : Parsed H b blockIndex true s)
    (hwhole : StartsWhole (b.chunkOf (b.headerAt blockIndex)) ∨
      StartsRejected (b.chunkOf (b.headerAt blockIndex))) :
    ∃ (w : WholeBlock) (rest : List UInt8),
      b.chunkOf (b.headerAt blockIndex) = w.bytes ++ rest ∧
      BlockRead H (b.parseStart H blockIndex) s w.header w.transactionCount w.transactions := by
  have hrun := h.run_eq
  rcases hwhole with ⟨w, rest, hbytes⟩ | ⟨w, rest, hbytes⟩
  · obtain ⟨s', hok, hread⟩ := w.readBlockData_run H (s := b.parseStart H blockIndex) rfl rfl
      (holds_overlay_append hbytes b.mBlockDataBuffer)
    rw [hrun] at hok
    obtain ⟨-, rfl⟩ := EStateM.Result.ok.inj hok
    exact ⟨w, rest, hbytes, hread⟩
  · obtain ⟨s', hok, -⟩ := w.readBlockData_run H (s := b.parseStart H blockIndex) rfl rfl
      (holds_overlay_append hbytes b.mBlockDataBuffer)
    rw [hrun] at hok
    cases hok

/-- The bytes of transaction `k` in the file, behind those of the block before it. -/
theorem WholeBlock.transaction_chunk {b : BlockChainImpl} {header : BlockHeader} {w : WholeBlock}
    {rest : List UInt8} (hbytes : b.chunkOf header = w.bytes ++ rest) (k : Nat)
    (hk : k < w.transactions.length) {p : Nat}
    (hp : p = 80 + w.transactionCount.bytes.length +
      ((w.transactions.take k).flatMap TransactionWire.bytes).length) :
    ((b.file header.mFileIndex.toNat).bytes.drop (header.mFileOffset.toNat + p)).take
        w.transactions[k].bytes.length = w.transactions[k].bytes ∧
      p + w.transactions[k].bytes.length ≤ header.mBlockLength.toNat := by
  obtain ⟨front, behind, hsplit, hfront⟩ := w.bytes_split k hk
  rw [hsplit, List.append_assoc] at hbytes
  have hlength : (b.chunkOf header).length ≤ header.mBlockLength.toNat := List.length_take_le _ _
  have hparts := congrArg List.length hbytes
  rw [List.length_append, List.length_append] at hparts
  rw [hp, ← hfront]
  refine ⟨slice_of_slice hbytes, ?_⟩
  omega

/-- What the record of a transaction says of its place, as long as 32 bits hold it. -/
theorem TransactionWire.record_place (w : TransactionWire) (p : Nat)
    (tin tout fileIndex fileOffset index : UInt32)
    (h : fileOffset.toNat + (p + w.bytes.length) < 2 ^ 32) :
    (w.record H p tin tout fileIndex fileOffset index).transactionLength.toNat = w.bytes.length ∧
    (w.record H p tin tout fileIndex fileOffset index).fileOffset.toNat = fileOffset.toNat + p ∧
    ((w.record H p tin tout fileIndex fileOffset index).fileOffset - fileOffset).toNat = p ∧
    (w.record H p tin tout fileIndex fileOffset index).transactionHash =
      H.doubleSHA256 w.bytes := by
  have hlength : (UInt32.ofNat w.bytes.length).toNat = w.bytes.length :=
    UInt32.toNat_ofNat_of_lt' (by show _ < 2 ^ 32; omega)
  have hp : (UInt32.ofNat p).toNat = p := UInt32.toNat_ofNat_of_lt' (by show _ < 2 ^ 32; omega)
  unfold TransactionWire.record
  refine ⟨hlength, ?_, ?_, ?_⟩
  · dsimp only
    rw [UInt32.toNat_add, hp, Nat.mod_eq_of_lt (by omega)]
  · dsimp only
    rw [UInt32.add_comm, UInt32.add_sub_cancel, hp]
  · dsimp only
    rw [hlength, List.take_length]

theorem CanRead.inFiles {b : BlockChainImpl} {header : BlockHeader} (h : b.CanRead header) :
    header.mFileIndex.toNat < b.mBlockDataFiles.length := by
  by_contra hge
  obtain ⟨hpos, hlength⟩ := h
  have hempty : (default : File).bytes = [] := rfl
  unfold BlockChainImpl.chunkOf at hlength
  rw [file_of_le (Nat.not_lt.mp hge), hempty, List.drop_nil, List.take_nil, List.length_nil] at hlength
  exact hpos (UInt32.toNat_inj.mp hlength.symm)

/-- Behind the call that gives the block each of its transactions can be read again. -/
theorem Parsed.rereads {b b' : BlockChainImpl} {blockIndex : UInt32} {s : ParseState}
    (h : Parsed H b blockIndex true s)
    (hshort : (b.headerAt blockIndex).mBlockLength < MAX_BLOCK_SIZE)
    (hend : (b.headerAt blockIndex).mFileOffset.toNat + (b.headerAt blockIndex).mBlockLength.toNat <
      2 ^ 32)
    (hwhole : StartsWhole (b.chunkOf (b.headerAt blockIndex)) ∨
      StartsRejected (b.chunkOf (b.headerAt blockIndex)))
    (hfiles : b'.mBlockDataFiles = b.mBlockDataFiles.set (b.headerAt blockIndex).mFileIndex.toNat
      { bytes := (b.file (b.headerAt blockIndex).mFileIndex.toNat).bytes
        position := (b.headerAt blockIndex).mFileOffset.toNat +
          (b.headerAt blockIndex).mBlockLength.toNat }) :
    ∀ t ∈ s.block.transactionList, ∃ w, Rereads H b' s.block t w := by
  obtain ⟨whole, rest, hbytes, hread⟩ := h.startsWhole hwhole
  obtain ⟨header, hheader⟩ : ∃ header, header = b.headerAt blockIndex := ⟨_, rfl⟩
  rw [← hheader] at hshort hend hbytes hfiles
  have hcan : b.CanRead header := by
    rw [hheader]
    exact h.canRead
  have hcount : s.block.transactionCount = whole.transactionCount.value :=
    congrArg BlockImpl.Frame.transactionCount hread.frame
  have hdata : s.block.mBlockData = overlay (b.chunkOf header) b.mBlockDataBuffer := by
    rw [hread.mBlockData, hheader]
    rfl
  have hfileIndex : s.block.fileIndex = header.mFileIndex := by
    rw [hread.transactions.below.fileIndex, hheader]
    rfl
  have hfileOffset : s.block.fileOffset = header.mFileOffset := by
    rw [hread.transactions.below.fileOffset, hheader]
    rfl
  intro t ht
  obtain ⟨k, hk, rfl⟩ := List.mem_map.mp ht
  rw [List.mem_range, hcount, ← whole.length_eq] at hk
  obtain ⟨p, hp⟩ : ∃ p, p = 80 + whole.transactionCount.bytes.length +
    ((whole.transactions.take k).flatMap TransactionWire.bytes).length := ⟨_, rfl⟩
  obtain ⟨w, hw⟩ : ∃ w, w = whole.transactions[k] := ⟨_, rfl⟩
  obtain ⟨hchunk, hinside⟩ := whole.transaction_chunk hbytes k hk hp
  rw [← hw] at hchunk hinside
  obtain ⟨tin, tout, hstored, -, -⟩ := hread.transactions.stored.get H whole.fit (by decide)
    (by decide) k hk
  have hmem : Holds s.block.mBlockData p w.bytes := by
    have hall : Holds s.block.mBlockData 0 whole.bytes := by
      rw [hdata]
      exact holds_overlay_append hbytes _
    have hbody := ((holds_append _ _ _ _).mp hall).2.flatMap_getElem k hk
    rw [List.length_append, whole.header.bytes_length, Nat.zero_add, ← hp, ← hw] at hbody
    exact hbody
  obtain ⟨index, hrecord⟩ : ∃ index, TransactionStored H s.block k p tin tout index w := by
    have hstart : (b.parseStart H blockIndex).block.mBlockRead = 0 := rfl
    rw [hstart, Nat.zero_add, Nat.zero_add, ← hp, ← hw] at hstored
    exact ⟨_, hstored⟩
  obtain ⟨hlength, hoffset, hback, hhash⟩ := w.record_place (H := H) p tin tout
    s.block.fileIndex s.block.fileOffset index (by rw [hfileOffset]; omega)
  rw [← hrecord.record] at hlength hoffset hback hhash
  have hindex : (s.block.mTransactions k).fileIndex = header.mFileIndex := by
    rw [hrecord.record]
    exact hfileIndex
  have hfile : b'.file header.mFileIndex.toNat =
      { bytes := (b.file header.mFileIndex.toNat).bytes
        position := header.mFileOffset.toNat + header.mBlockLength.toNat } := by
    unfold BlockChainImpl.file
    rw [hfiles, List.getD_eq_getElem?_getD, List.getElem?_set_self (CanRead.inFiles hcan)]
    rfl
  refine ⟨w, ⟨?_, ?_, ?_, ?_, ?_⟩, ?_, hhash, transactionValue_of_stored H hrecord hmem, ?_⟩
  · show (s.block.mTransactions k).fileIndex.toNat < b'.mBlockDataFiles.length
    rw [hindex, hfiles, List.length_set]
    exact CanRead.inFiles hcan
  · show (s.block.mTransactions k).transactionLength < MAX_BLOCK_SIZE
    rw [UInt32.lt_iff_toNat_lt] at hshort ⊢
    rw [hlength]
    omega
  · exact hlength
  · show ((b'.file (s.block.mTransactions k).fileIndex.toNat).bytes.drop
      (s.block.mTransactions k).fileOffset.toNat).take
        (s.block.mTransactions k).transactionLength.toNat = w.bytes
    rw [hindex, hfile, hoffset, hlength, hfileOffset]
    exact hchunk
  · show (b'.file (s.block.mTransactions k).fileIndex.toNat).position < 2 ^ 32
    rw [hindex, hfile]
    exact hend
  · exact whole.fit.alone (by decide) (by decide) w (by rw [hw]; exact List.getElem_mem hk)
  · unfold BlockImpl.transactionBytes
    rw [hback, hlength]
    exact hmem

/-! ## Along a run -/

theorem Rereads.readBlock {b b' : BlockChainImpl} {block : BlockImpl} {t : BlockTransaction}
    {w : TransactionWire} {blockIndex : UInt32} {returned : Bool} (h : Rereads H b block t w)
    (hend : blockIndex < b.mBlockCount → (b.headerAt blockIndex).mFileOffset.toNat +
      (b.headerAt blockIndex).mBlockLength.toNat < 2 ^ 32)
    (hread : b.readBlock H blockIndex = .ok (returned, b')) : Rereads H b' block t w :=
  ⟨h.leads.readBlock hend hread, h.fits, h.hash, h.value, h.bytes⟩

theorem rereads_given {b b' : BlockChainImpl} {blockIndex : UInt32} (hshort : ShortBlocks b)
    (h : b.readBlock H blockIndex = .ok (true, b'))
    (hwhole : ReadsWhole b ⟨blockIndex, some b'.mSingleReadBlock⟩) :
    ∀ t ∈ b'.mSingleReadBlock.transactionList, ∃ w, Rereads H b' b'.mSingleReadBlock t w := by
  rcases readBlock_cases H h with ⟨-, hfalse, -⟩ | ⟨hfalse, -⟩ | ⟨-, s, b2, hs, hindexed, hb'⟩
  · cases hfalse
  · cases hfalse
  · obtain ⟨hend, hstarts⟩ := hwhole hs.inRange
    obtain ⟨total, inputs, outputs, set, rfl⟩ := hindexed.frame
    have hfiles : b'.mBlockDataFiles = b.mBlockDataFiles.set
        (b.headerAt blockIndex).mFileIndex.toNat
        { bytes := (b.file (b.headerAt blockIndex).mFileIndex.toNat).bytes
          position := (b.headerAt blockIndex).mFileOffset.toNat +
            (b.headerAt blockIndex).mBlockLength.toNat } := by
      rw [hb']
      rfl
    have hblock : b'.mSingleReadBlock = { s.block with warning := s.gIsWarning } := by
      rw [hb']
      rfl
    intro t ht
    rw [hblock] at ht ⊢
    obtain ⟨w, hw⟩ := hs.rereads (hshort.headerAt blockIndex) hend hstarts hfiles t ht
    exact ⟨w, hw.leads, hw.fits, hw.hash, hw.value, hw.bytes⟩

theorem rereads_of_run {b0 b : BlockChainImpl} {calls : List ReadCall} (hshort : ShortBlocks b0)
    (hrun : Run (Meeting ReadsWhole (ReadStep H)) b0 calls b) :
    ShortBlocks b ∧ ∀ block ∈ blocksGiven calls, ∀ t ∈ block.transactionList,
      ∃ w, Rereads H b block t w := by
  induction hrun with
  | nil => exact ⟨hshort, nofun⟩
  | snoc _ last ih =>
    obtain ⟨hwhole, hstep⟩ := last
    obtain ⟨hbefore, hall⟩ := ih
    refine ⟨hbefore.step hstep, ?_⟩
    rw [blocksGiven_concat]
    intro block hblock t ht
    cases hstep with
    | nothing hread =>
      rw [Option.toList_none, List.append_nil] at hblock
      obtain ⟨w, hw⟩ := hall block hblock t ht
      exact ⟨w, hw.readBlock (fun hrange => (hwhole hrange).1) hread⟩
    | block hread =>
      rcases List.mem_append.mp hblock with hold | hnew
      · obtain ⟨w, hw⟩ := hall block hold t ht
        exact ⟨w, hw.readBlock (fun hrange => (hwhole hrange).1) hread⟩
      · obtain rfl := List.mem_singleton.mp hnew
        exact rereads_given hbefore hread hwhole t ht

/-- The place of a transaction with the same bytes does as well. -/
theorem Rereads.leadsTo {b : BlockChainImpl} {block block' : BlockImpl} {t t' : BlockTransaction}
    {w w' : TransactionWire} (h : Rereads H b block t w) (h' : Rereads H b block' t' w')
    (hbytes : block.transactionBytes t = block'.transactionBytes t') : LeadsTo b t'.location w := by
  rw [h.bytes, h'.bytes] at hbytes
  obtain ⟨hin, hshort, hlength, hchunk, hposition⟩ := h'.leads
  exact ⟨hin, hshort, by rw [hlength, hbytes], by rw [hchunk, hbytes], hposition⟩

theorem readsAgain_of_rereads {b : BlockChainImpl} {blocks : List BlockImpl}
    (hset : ∀ hash, b.mTransactionSet.lookup hash =
      (locations blocks).find? (fun f => f.hash = hash))
    (hfree : CollisionFree blocks)
    (hall : ∀ block ∈ blocks, ∀ t ∈ block.transactionList, ∃ w, Rereads H b block t w) :
    ReadsAgain H b blocks := by
  intro block hblock t ht
  have hmem : t.location ∈ locations blocks := mem_locations.mpr ⟨block, hblock, t, ht, rfl⟩
  cases hfind : (locations blocks).find? (fun f => f.hash = t.transactionHash) with
  | none =>
    have hnone := List.find?_eq_none.mp hfind t.location hmem
    exact absurd (decide_eq_true rfl) hnone
  | some f =>
    obtain ⟨block', hblock', t', ht', rfl⟩ := mem_locations.mp (List.mem_of_find?_eq_some hfind)
    have hfound := List.find?_some hfind
    have hhash : t'.transactionHash = t.transactionHash := of_decide_eq_true hfound
    obtain ⟨w, hw⟩ := hall block hblock t ht
    obtain ⟨w', hw'⟩ := hall block' hblock' t' ht'
    have hleads := hw.leadsTo hw' (hfree block hblock t ht block' hblock' t' ht' hhash.symm)
    obtain ⟨b', hread, hvalue, hlength, hlocation, hfiles⟩ := readTransactionAt_wire hleads hw.fits
    have hsame : ({ t'.location with hash := H.doubleSHA256 w.bytes } : FileLocation) = t'.location := by
      rw [← hw.hash, ← hhash]
      rfl
    rw [hsame] at hlocation
    have hcall : b.readSingleTransaction H t.transactionHash = .ok (true, b') := by
      unfold BlockChainImpl.readSingleTransaction
      rw [hset, hfind]
      exact hread
    obtain ⟨fs, buffer, single, warning, report, stack, -, rfl⟩ :=
      rereadOnly_readTransactionAt H hread
    refine ⟨t'.location, _, rfl, hcall, ⟨?_, ?_, ?_, hlocation, hfiles, rfl, rfl, rfl⟩⟩
    · rw [hvalue, hw.value]
    · rw [hlength]
      apply UInt32.toNat_inj.mp
      exact hleads.length.trans hw.leads.length.symm
    · exact (congrArg FileLocation.hash hlocation).trans hhash

/-- In every run the index is closed and has the first transaction with each
hash. Each transaction is read again from there in the runs whose blocks all
are whole in their files. -/
theorem the_transactions_are_read_again_when_their_blocks_are_whole (H : Hashes)
    (b0 b : BlockChainImpl) (calls : List ReadCall) (hreached : Reached H b0)
    (hrun : Run (ReadStep H) b0 calls b) :
    ClosedIndex b (blocksGiven calls) ∧
      (Run (Meeting ReadsWhole (ReadStep H)) b0 calls b → CollisionFree (blocksGiven calls) →
        ReadsAgain H b (blocksGiven calls)) := by
  obtain ⟨hset, hspent⟩ := closedIndex_of_run hreached.unread.mTransactionSet hrun
  have hfirst : ∀ hash, b.mTransactionSet.lookup hash =
      (locations (blocksGiven calls)).find? (fun f => f.hash = hash) := by
    intro hash
    rw [hset, KeyedSet.lookup_insertAll, KeyedSet.lookup_empty, Option.none_or]
  refine ⟨⟨hfirst, hspent⟩, ?_⟩
  intro hmeets hfree
  exact readsAgain_of_rereads hfirst hfree (rereads_of_run hreached.shortBlocks hmeets).2

/-! ## A block that is whole, and one that is cut short -/

/-- One transaction behind a header of zeros. -/
def plainBlock : List UInt8 := List.replicate 80 0 ++ [1] ++ plainTransaction 1

/-- The block without the lock time of its transaction. -/
def cutBlock : List UInt8 := plainBlock.take 128

def plainSHA256 : Hash256 :=
  #v[67, 26, 28, 191, 87, 254, 82, 253, 194, 197, 92, 161, 93, 182, 238, 212,
    92, 111, 234, 28, 119, 69, 222, 242, 19, 5, 252, 1, 19, 147, 24, 198]

def plainHash : Hash256 :=
  #v[223, 222, 31, 24, 250, 210, 221, 249, 163, 90, 108, 37, 142, 244, 169, 239,
    129, 39, 97, 143, 22, 157, 98, 96, 47, 71, 125, 93, 21, 75, 99, 230]

/-- SHA-256 on the header and the transaction, and on its results there. -/
def plainHashes : Hashes where
  computeSHA256 bytes :=
    if bytes = List.replicate 80 0 then zeroHeaderSHA256
    else if bytes = zeroHeaderSHA256.toList then zeroHeaderHash
    else if bytes = plainTransaction 1 then plainSHA256
    else plainHash
  computeRIPEMD160 _ := Vector.replicate 20 0

theorem cutBlock_read : ((oneBlockScanned plainHashes cutBlock).buildAndRead plainHashes 0).map
    (fun r => ([r.returned, r.read.mSingleReadBlock.transactionCount = 1,
      (r.read.mSingleReadBlock.mTransactions 0).transactionHash = plainHash,
      (r.read.readSingleTransaction plainHashes plainHash).toOption.map Prod.fst = some false] :
        List Bool)) = some [true, true, true, true] := by
  decide +kernel

theorem plainBlock_read : ((oneBlockScanned plainHashes plainBlock).buildAndRead plainHashes 0).map
    (fun r => ([r.returned, r.read.mSingleReadBlock.transactionCount = 1,
      r.built.chunkOf (r.built.headerAt 0) = plainBlock,
      (r.built.headerAt 0).mFileOffset.toNat + (r.built.headerAt 0).mBlockLength.toNat < 2 ^ 32] :
        List Bool)) = some [true, true, true, true] := by
  decide +kernel

theorem plainBlock_startsWhole : StartsWhole plainBlock := by
  refine ⟨⟨⟨0, Vector.replicate 32 0, Vector.replicate 32 0, 0, 0, 0⟩, .oneByte 1 (by decide),
    [⟨1, .oneByte 1 (by decide), [⟨Vector.replicate 32 0, 0xFFFFFFFF, .oneByte 0 (by decide), [], 0,
      rfl, by decide⟩], .oneByte 0 (by decide), [], 0, rfl, nofun, by decide, rfl, by decide⟩],
    by decide, rfl, .cons ⟨by decide, by decide⟩ (.nil _ _)⟩, [], ?_⟩
  decide +kernel

/-- One transaction has no other with its hash. -/
theorem collisionFree_of_one {block : BlockImpl} (h : block.transactionCount = 1) :
    CollisionFree [block] := by
  have hone : block.transactionList = [block.mTransactions 0] := by
    unfold BlockImpl.transactionList
    rw [h]
    rfl
  intro x hx t ht x' hx' t' ht' _
  obtain rfl := List.mem_singleton.mp hx
  obtain rfl := List.mem_singleton.mp hx'
  rw [hone] at ht ht'
  obtain rfl := List.mem_singleton.mp ht
  obtain rfl := List.mem_singleton.mp ht'
  rfl

/-- The transaction of the whole block is read again. -/
theorem the_transaction_of_the_plain_block_is_read_again : ∃ b0 b block,
    Run (ReadStep plainHashes) b0 [⟨0, some block⟩] b ∧ block.transactionCount = 1 ∧
    ClosedIndex b [block] ∧ ReadsAgain plainHashes b [block] := by
  obtain ⟨r, hr, hvalues⟩ := Option.map_eq_some_iff.mp plainBlock_read
  obtain ⟨hbuild, hread⟩ := buildAndRead_eq plainHashes hr
  simp only [List.cons.injEq, decide_eq_true_eq] at hvalues
  obtain ⟨hreturned, hcount, hchunk, hend, -⟩ := hvalues
  rw [hreturned] at hread
  have hreached : Reached plainHashes r.built :=
    (oneBlockScanned_reached plainHashes plainBlock).build hbuild
  have hwhole : ReadsWhole r.built ⟨0, some r.read.mSingleReadBlock⟩ := by
    intro _
    refine ⟨hend, Or.inl ?_⟩
    rw [hchunk]
    exact plainBlock_startsWhole
  have hrun : Run (ReadStep plainHashes) r.built [⟨0, some r.read.mSingleReadBlock⟩] r.read :=
    Run.nil.snoc (.block hread)
  obtain ⟨hclosed, hagain⟩ := the_transactions_are_read_again_when_their_blocks_are_whole plainHashes
    r.built r.read [⟨0, some r.read.mSingleReadBlock⟩] hreached hrun
  exact ⟨r.built, r.read, r.read.mSingleReadBlock, hrun, hcount, hclosed,
    hagain (Run.nil.snoc ⟨hwhole, .block hread⟩) (collisionFree_of_one hcount)⟩

/-- A block that lacks the last four bytes of its transaction is given, and the
index has the transaction, but it cannot be read again. -/
theorem the_transaction_of_the_cut_block_is_not_read_again : ∃ b0 b block,
    Reached plainHashes b0 ∧ Run (ReadStep plainHashes) b0 [⟨0, some block⟩] b ∧
    CollisionFree [block] ∧ ¬ ReadsAgain plainHashes b [block] := by
  obtain ⟨r, hr, hvalues⟩ := Option.map_eq_some_iff.mp cutBlock_read
  obtain ⟨hbuild, hread⟩ := buildAndRead_eq plainHashes hr
  simp only [List.cons.injEq, decide_eq_true_eq] at hvalues
  obtain ⟨hreturned, hcount, hhash, hagain, -⟩ := hvalues
  rw [hreturned] at hread
  refine ⟨r.built, r.read, r.read.mSingleReadBlock,
    (oneBlockScanned_reached plainHashes cutBlock).build hbuild, Run.nil.snoc (.block hread),
    collisionFree_of_one hcount, ?_⟩
  intro hall
  have hmem : r.read.mSingleReadBlock.mTransactions 0 ∈ r.read.mSingleReadBlock.transactionList := by
    unfold BlockImpl.transactionList
    rw [hcount]
    exact List.mem_map_of_mem (List.mem_range.mpr (by decide))
  obtain ⟨f, b', -, hcall, -⟩ := hall _ (List.mem_singleton.mpr rfl) _ hmem
  rw [hhash] at hcall
  rw [hcall] at hagain
  cases hagain

end bitcoinstats.block_chain
