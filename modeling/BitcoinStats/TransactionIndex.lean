-- The index of the transactions over a run of `readBlock`: what it holds, and
-- what `readSingleTransaction` reads again through it.
import BitcoinStats.BlockRoundTrip
import BitcoinStats.WarningFlag

open byte_memory keyed_set exec cursor runs bitcoinstats.bitcoin_address

namespace bitcoinstats.block_chain

variable (H : Hashes)

/-! ## Runs of `readBlock` -/

/-- A call of `readBlock` that came back, with the block that it gave. -/
structure ReadCall where
  blockIndex : UInt32
  given : Option BlockImpl

inductive ReadStep : BlockChainImpl → ReadCall → BlockChainImpl → Prop
  | nothing {b b' : BlockChainImpl} {blockIndex : UInt32}
      (h : b.readBlock H blockIndex = .ok (false, b')) : ReadStep b ⟨blockIndex, none⟩ b'
  | block {b b' : BlockChainImpl} {blockIndex : UInt32}
      (h : b.readBlock H blockIndex = .ok (true, b')) :
      ReadStep b ⟨blockIndex, some b'.mSingleReadBlock⟩ b'

/-- The blocks that the calls gave. -/
def blocksGiven (calls : List ReadCall) : List BlockImpl := calls.filterMap ReadCall.given

/-- The places of the transactions of the blocks, in the order of the reads. -/
def locations (blocks : List BlockImpl) : List FileLocation :=
  blocks.flatMap (fun block => block.transactionList.map BlockTransaction.location)

/-! ## The claim about one run -/

/-- The index has the first transaction with each hash, and all that is spent. -/
structure ClosedIndex (b : BlockChainImpl) (blocks : List BlockImpl) : Prop where
  first : ∀ hash, b.mTransactionSet.lookup hash =
    (locations blocks).find? (fun f => f.hash = hash)
  spent : ∀ block ∈ blocks, ∀ t ∈ block.transactionList, ∀ hash ∈ block.spentHashes t,
    (b.mTransactionSet.lookup hash).isSome

/-- The state behind a call that reads the transaction `t` of the block again,
as it was first read from the place `f`. -/
structure ReadsSame (b : BlockChainImpl) (block : BlockImpl) (t : BlockTransaction)
    (f : FileLocation) (b' : BlockChainImpl) : Prop where
  value : b'.mSingleTransactionBlock.transactionValue (b'.mSingleTransactionBlock.mTransactions 0) =
    block.transactionValue t
  transactionLength : (b'.mSingleTransactionBlock.mTransactions 0).transactionLength =
    t.transactionLength
  transactionHash : (b'.mSingleTransactionBlock.mTransactions 0).transactionHash =
    t.transactionHash
  location : (b'.mSingleTransactionBlock.mTransactions 0).location = f
  mBlockDataFiles : b'.mBlockDataFiles = b.mBlockDataFiles
  mSingleReadBlock : b'.mSingleReadBlock = b.mSingleReadBlock
  mBlockDataBuffer : b'.mBlockDataBuffer = b.mBlockDataBuffer
  mTransactionSet : b'.mTransactionSet = b.mTransactionSet

/-- Each transaction of the blocks can be read again from its first place. -/
def ReadsAgain (b : BlockChainImpl) (blocks : List BlockImpl) : Prop :=
  ∀ block ∈ blocks, ∀ t ∈ block.transactionList, ∃ f b',
    (locations blocks).find? (fun f => f.hash = t.transactionHash) = some f ∧
    b.readSingleTransaction H t.transactionHash = .ok (true, b') ∧ ReadsSame b block t f b'

/-- The bytes of a transaction in the data of its block. -/
def BlockImpl.transactionBytes (block : BlockImpl) (t : BlockTransaction) : List UInt8 :=
  window block.mBlockData (t.fileOffset - block.fileOffset).toNat t.transactionLength.toNat

/-- Transactions with one hash are the same bytes. -/
def CollisionFree (blocks : List BlockImpl) : Prop :=
  ∀ block ∈ blocks, ∀ t ∈ block.transactionList, ∀ block' ∈ blocks, ∀ t' ∈ block'.transactionList,
    t.transactionHash = t'.transactionHash → block.transactionBytes t = block'.transactionBytes t'

/-- The bytes start with a block that the parser turns down. -/
def StartsRejected (bytes : List UInt8) : Prop :=
  ∃ (w : RejectedBlock) (rest : List UInt8), bytes = w.bytes ++ rest

/-- A block of the chain ends below the first 4 GiB of its file, and all that
the parser looks at lies inside of the block. -/
def ReadsWhole (b : BlockChainImpl) (call : ReadCall) : Prop :=
  call.blockIndex < b.mBlockCount →
    (b.headerAt call.blockIndex).mFileOffset.toNat + (b.headerAt call.blockIndex).mBlockLength.toNat <
      2 ^ 32 ∧
    (StartsWhole (b.chunkOf (b.headerAt call.blockIndex)) ∨
      StartsRejected (b.chunkOf (b.headerAt call.blockIndex)))

/-! ## The index -/

variable {H}

theorem locations_append (blocks blocks' : List BlockImpl) :
    locations (blocks ++ blocks') = locations blocks ++ locations blocks' := List.flatMap_append

theorem locations_singleton (block : BlockImpl) :
    locations [block] = block.transactionList.map BlockTransaction.location :=
  List.flatMap_singleton _ _

theorem blocksGiven_concat (calls : List ReadCall) (call : ReadCall) :
    blocksGiven (calls ++ [call]) = blocksGiven calls ++ call.given.toList := by
  unfold blocksGiven
  rw [List.filterMap_append]
  cases hgiven : call.given with
  | none => simp [hgiven]
  | some block => simp [hgiven]

theorem mem_locations {blocks : List BlockImpl} {f : FileLocation} :
    f ∈ locations blocks ↔ ∃ block ∈ blocks, ∃ t ∈ block.transactionList, t.location = f := by
  simp [locations]

/-- A call that gives nothing has left the index alone. -/
theorem readBlock_nothing {b b' : BlockChainImpl} {blockIndex : UInt32}
    (h : b.readBlock H blockIndex = .ok (false, b')) : b'.mTransactionSet = b.mTransactionSet := by
  rcases readBlock_cases H h with ⟨-, -, rfl⟩ | ⟨-, s, -, rfl⟩ | ⟨htrue, -⟩
  · rfl
  · rfl
  · cases htrue

/-- A call that gives a block has put its transactions into the index. -/
theorem readBlock_given {b b' : BlockChainImpl} {blockIndex : UInt32}
    (h : b.readBlock H blockIndex = .ok (true, b')) :
    b'.mTransactionSet = b.mTransactionSet.insertAll (locations [b'.mSingleReadBlock]) ∧
      ∀ t ∈ b'.mSingleReadBlock.transactionList, ∀ hash ∈ b'.mSingleReadBlock.spentHashes t,
        (b'.mTransactionSet.lookup hash).isSome := by
  rcases readBlock_cases H h with ⟨-, hfalse, -⟩ | ⟨hfalse, -⟩ | ⟨-, s, b2, -, hindexed, rfl⟩
  · cases hfalse
  · cases hfalse
  · have hset := hindexed.set_eq
    have hspent := hindexed.spent
    obtain ⟨total, inputs, outputs, set, rfl⟩ := hindexed.frame
    rw [locations_singleton]
    exact ⟨hset, hspent⟩

theorem lookup_insertAll_isSome {set : KeyedSet FileLocation.hash} {hash : Hash256}
    (h : (set.lookup hash).isSome) (l : List FileLocation) :
    ((set.insertAll l).lookup hash).isSome := by
  rw [KeyedSet.lookup_insertAll, Option.isSome_or, h, Bool.true_or]

/-- What a run has put into an empty index. -/
theorem closedIndex_of_run {b0 b : BlockChainImpl} {calls : List ReadCall}
    (h0 : b0.mTransactionSet = .empty _) (hrun : Run (ReadStep H) b0 calls b) :
    b.mTransactionSet = (KeyedSet.empty _).insertAll (locations (blocksGiven calls)) ∧
      ∀ block ∈ blocksGiven calls, ∀ t ∈ block.transactionList, ∀ hash ∈ block.spentHashes t,
        (b.mTransactionSet.lookup hash).isSome := by
  induction hrun with
  | nil => exact ⟨h0, nofun⟩
  | snoc _ last ih =>
    obtain ⟨hset, hspent⟩ := ih
    rw [blocksGiven_concat]
    cases last with
    | nothing h =>
      rw [readBlock_nothing h, Option.toList_none, List.append_nil]
      exact ⟨hset, hspent⟩
    | block h =>
      obtain ⟨hset', hspent'⟩ := readBlock_given h
      rw [Option.toList_some]
      refine ⟨?_, ?_⟩
      · rw [hset', hset, locations_append, KeyedSet.insertAll_append]
      · intro block hblock t ht hash hhash
        rcases List.mem_append.mp hblock with hold | hnew
        · rw [hset']
          exact lookup_insertAll_isSome (hspent block hold t ht hash hhash) _
        · obtain rfl := List.mem_singleton.mp hnew
          exact hspent' t ht hash hhash

/-! ## Reading a transaction again -/

theorem file_eq_getD (b : BlockChainImpl) (fph : Nat) : (b.file fph).bytes = b.fileBytes.getD fph [] := by
  unfold BlockChainImpl.fileBytes
  rw [List.getD_eq_getElem?_getD, List.getElem?_map]
  unfold BlockChainImpl.file
  rw [List.getD_eq_getElem?_getD]
  cases b.mBlockDataFiles[fph]? with
  | none => rfl
  | some f => rfl

/-- Behind any reads the file is put back to a position that 32 bits hold. -/
theorem restore_files {b b' : BlockChainImpl} {f : FileLocation} {file : File}
    (hposition : (b.file f.mFileIndex.toNat).position < 2 ^ 32)
    (hfiles : b'.mBlockDataFiles = b.mBlockDataFiles.set f.mFileIndex.toNat file)
    (hbytes : file.bytes = (b.file f.mFileIndex.toNat).bytes) :
    (b'.restore b f).mBlockDataFiles = b.mBlockDataFiles := by
  have hback : (b.file f.mFileIndex.toNat).ftell.toNat = (b.file f.mFileIndex.toNat).position :=
    UInt32.toNat_ofNat_of_lt' hposition
  unfold BlockChainImpl.restore BlockChainImpl.fseek BlockChainImpl.setFile
  rw [hback]
  rcases Nat.lt_or_ge f.mFileIndex.toNat b.mBlockDataFiles.length with hlt | hge
  · have hfile : b'.file f.mFileIndex.toNat = file := by
      unfold BlockChainImpl.file
      rw [hfiles]
      simp [hlt]
    have hsame : file.fseek (b.file f.mFileIndex.toNat).position = b.file f.mFileIndex.toNat := by
      unfold File.fseek
      rw [hbytes]
    have hget : b.file f.mFileIndex.toNat = b.mBlockDataFiles[f.mFileIndex.toNat] := by
      unfold BlockChainImpl.file
      simp [hlt]
    dsimp only
    rw [hfile, hsame, hfiles, List.set_set, hget, List.set_getElem_self]
  · dsimp only
    rw [hfiles, List.set_eq_of_length_le hge, List.set_eq_of_length_le hge]

/-- The place leads to the bytes of the transaction. -/
structure LeadsTo (b : BlockChainImpl) (f : FileLocation) (w : TransactionWire) : Prop where
  inFiles : f.mFileIndex.toNat < b.mBlockDataFiles.length
  short : f.mFileLength < MAX_BLOCK_SIZE
  length : f.mFileLength.toNat = w.bytes.length
  chunk : b.transactionChunk f = w.bytes
  position : (b.file f.mFileIndex.toNat).position < 2 ^ 32

theorem TransactionWire.length_pos (w : TransactionWire) : 0 < w.bytes.length := by
  unfold TransactionWire.bytes
  rw [List.length_append, leBytes_length]
  omega

theorem transactionRead_files {b : BlockChainImpl} {f : FileLocation}
    (h : f.mFileIndex.toNat < b.mBlockDataFiles.length) : ∃ file,
      (b.transactionRead f).mBlockDataFiles = b.mBlockDataFiles.set f.mFileIndex.toNat file ∧
      file.bytes = (b.file f.mFileIndex.toNat).bytes := by
  have hfile : (b.fseek f.mFileIndex.toNat f.mFileOffset.toNat).file f.mFileIndex.toNat =
      (b.file f.mFileIndex.toNat).fseek f.mFileOffset.toNat := file_setFile h _
  refine ⟨((b.file f.mFileIndex.toNat).fseek f.mFileOffset.toNat).fread f.mFileLength.toNat, ?_, rfl⟩
  have hset : (b.transactionRead f).mBlockDataFiles =
      (b.fseek f.mFileIndex.toNat f.mFileOffset.toNat).mBlockDataFiles.set f.mFileIndex.toNat
        (((b.fseek f.mFileIndex.toNat f.mFileOffset.toNat).file f.mFileIndex.toNat).fread
          f.mFileLength.toNat) := rfl
  rw [hset, hfile]
  exact List.set_set _

/-- The transaction that the parser leaves, with the place that it was read from. -/
theorem afterTransaction_stored {b : BlockChainImpl} {f : FileLocation} {s : ParseState}
    {w : TransactionWire} {index : UInt32} (h : TransactionStored H s.block 0 0 0 0 index w)
    (hmem : Holds s.block.mBlockData 0 w.bytes) (hlength : f.mFileLength.toNat = w.bytes.length) :
    (b.afterTransaction f s).mSingleTransactionBlock.transactionValue
        ((b.afterTransaction f s).mSingleTransactionBlock.mTransactions 0) = w.value ∧
      ((b.afterTransaction f s).mSingleTransactionBlock.mTransactions 0).transactionLength =
        f.mFileLength ∧
      ((b.afterTransaction f s).mSingleTransactionBlock.mTransactions 0).location =
        { f with hash := H.doubleSHA256 w.bytes } := by
  have htransaction : (b.afterTransaction f s).mSingleTransactionBlock.mTransactions 0 =
      (fun t => { t with
        transactionIndex := f.mTransactionIndex
        fileIndex := f.mFileIndex
        fileOffset := f.mFileOffset }) (s.block.mTransactions 0) := by
    unfold BlockChainImpl.afterTransaction ParseState.setTransaction
    exact Function.update_self (0 : Nat) _ s.block.mTransactions
  have hcount : UInt32.ofNat w.bytes.length = f.mFileLength := by
    rw [← hlength, UInt32.ofNat_toNat]
  have hvalue := transactionValue_of_stored H h hmem
  rw [htransaction]
  refine ⟨hvalue, ?_, ?_⟩
  · rw [h.record]
    exact hcount
  · unfold BlockTransaction.location
    rw [h.record]
    simp only [TransactionWire.record, hcount, hlength, List.take_length]

theorem readTransactionAt_wire {b : BlockChainImpl} {f : FileLocation} {w : TransactionWire}
    (h : LeadsTo b f w) (hfits : w.Fits 0 0) : ∃ b', b.readTransactionAt H f = .ok (true, b') ∧
      b'.mSingleTransactionBlock.transactionValue (b'.mSingleTransactionBlock.mTransactions 0) =
        w.value ∧
      (b'.mSingleTransactionBlock.mTransactions 0).transactionLength = f.mFileLength ∧
      (b'.mSingleTransactionBlock.mTransactions 0).location =
        { f with hash := H.doubleSHA256 w.bytes } ∧
      b'.mBlockDataFiles = b.mBlockDataFiles := by
  have hcan : b.CanReadTransaction f := by
    refine ⟨?_, by rw [h.chunk, h.length]⟩
    rintro hzero
    have hlength := h.length
    have hpos := w.length_pos
    rw [hzero] at hlength
    have hnil : (0 : UInt32).toNat = 0 := rfl
    omega
  have hbuffer : Holds (b.transactionRead f).mTransactionBlockBuffer 0 w.bytes := by
    have hoverlay := holds_overlay (b.transactionChunk f) b.mTransactionBlockBuffer
    have hsame : (b.transactionRead f).mTransactionBlockBuffer =
      overlay (b.transactionChunk f) b.mTransactionBlockBuffer := rfl
    rw [← hsame, h.chunk] at hoverlay
    exact hoverlay
  obtain ⟨s0, hs0⟩ : ∃ s0, s0 = (b.transactionRead f).transactionStart f := ⟨_, rfl⟩
  have hdata : Holds s0.block.mBlockData 0 w.bytes := by
    rw [hs0]
    exact hbuffer
  have hzero : s0.block.mBlockRead = 0 ∧ s0.block.totalInputCount = 0 ∧
      s0.block.totalOutputCount = 0 := by
    rw [hs0]
    exact ⟨rfl, rfl, rfl⟩
  obtain ⟨hread, hin, hout⟩ := hzero
  have hsees : Sees s0 w.bytes := by
    unfold Sees
    rw [memory_eq, position_eq, hread]
    exact hdata
  obtain ⟨rs, hrun⟩ := readTransaction_reads H 0 w (by rw [hin, hout]; exact hfits) hsees
  rw [hread, hin, hout] at hrun
  obtain ⟨s, hs⟩ : ∃ s, s = (transactionChange H 0 0 0 0 w).apply (moved s0 w.bytes.length rs) :=
    ⟨_, rfl⟩
  have hstep := transactionChange_step H 0 0 0 0 w (moved s0 w.bytes.length rs) hin hout hdata
  rw [← hs] at hrun hstep
  have hmem : Holds s.block.mBlockData 0 w.bytes := by
    rw [hs, apply_mBlockData]
    exact hdata
  obtain ⟨hvalue, hlength, hlocation⟩ :=
    afterTransaction_stored (b := b.transactionRead f) hstep.stored hmem h.length
  refine ⟨((b.transactionRead f).afterTransaction f s).restore b f, ?_, hvalue, hlength, hlocation, ?_⟩
  · rw [readTransactionAt_eq, if_pos ⟨h.inFiles, h.short⟩, if_pos hcan, parseTransaction_eq, ← hs0,
      hrun]
    rfl
  · obtain ⟨file, hfiles, hbytes⟩ := transactionRead_files (b := b) h.inFiles
    exact restore_files h.position hfiles hbytes

end bitcoinstats.block_chain
