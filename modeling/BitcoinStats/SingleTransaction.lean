-- Reading a transaction again through the index, alone or for `printBlock`:
-- what it leaves as it was.
import BitcoinStats.ReadBlockSteps
import BitcoinStats.WireReader

open byte_memory keyed_set exec cursor runs bitcoinstats.bitcoin_address

namespace bitcoinstats.block_chain

/-! ## The bytes of the files -/

def BlockChainImpl.fileBytes (b : BlockChainImpl) : List (List UInt8) :=
  b.mBlockDataFiles.map File.bytes

theorem setFile_fileBytes {b : BlockChainImpl} {fph : Nat} {f : File}
    (h : f.bytes = (b.file fph).bytes) : (b.setFile fph f).fileBytes = b.fileBytes := by
  unfold BlockChainImpl.fileBytes BlockChainImpl.setFile
  rcases Nat.lt_or_ge fph b.mBlockDataFiles.length with hlt | hge
  · have hlt' : fph < (b.mBlockDataFiles.map File.bytes).length := by simpa using hlt
    have hget : (b.file fph).bytes = (b.mBlockDataFiles.map File.bytes)[fph] := by
      simp [BlockChainImpl.file, hlt]
    simp only [List.map_set]
    rw [h, hget, List.set_getElem_self]
  · rw [List.set_eq_of_length_le hge]

variable (H : Hashes)

/-! ## The parser on one transaction -/

/-- The state in which the parser starts on the transaction. -/
def BlockChainImpl.transactionStart (b : BlockChainImpl) (f : FileLocation) : ParseState :=
  (b.parseState
    { b.mSingleTransactionBlock with
      blockIndex := 0, blockReward := 0, totalInputCount := 0, totalOutputCount := 0,
      fileIndex := 0, fileOffset := 0 } 0).setBlockData b.mTransactionBlockBuffer f.mFileLength

/-- The interface once the parser has stopped in the state `s`. -/
def BlockChainImpl.afterTransaction (b : BlockChainImpl) (f : FileLocation) (s : ParseState) :
    BlockChainImpl :=
  { b.withGlobals s with
    mSingleTransactionBlock :=
      (s.setTransaction 0 (fun t =>
        { t with
          transactionIndex := f.mTransactionIndex
          fileIndex := f.mFileIndex
          fileOffset := f.mFileOffset })).block }

theorem parseTransaction_eq (b : BlockChainImpl) (f : FileLocation) :
    b.parseTransaction H f =
      match (readTransaction H 0).run (b.transactionStart f) with
      | .ok true s => .ok (b.afterTransaction f s)
      | .ok false _ => .error .failedToProcessTransactionData
      | .error reason _ => .error reason := by
  have hrun : ∀ s : ParseState, (processTransactionData H b.mTransactionBlockBuffer f.mFileLength).run s =
      ((readTransaction H 0) >>= fun ok =>
        if ok then pure ⟨⟩ else throw .failedToProcessTransactionData).run
          (({ s with transactionIndex := 0 } : ParseState).setBlockData b.mTransactionBlockBuffer
            f.mFileLength) := fun _ => rfl
  unfold BlockChainImpl.parseTransaction
  simp only
  rw [hrun]
  have hstart : (({ b.parseState
      { b.mSingleTransactionBlock with
        blockIndex := 0, blockReward := 0, totalInputCount := 0, totalOutputCount := 0,
        fileIndex := 0, fileOffset := 0 } 0 with transactionIndex := 0 } : ParseState).setBlockData
          b.mTransactionBlockBuffer f.mFileLength) = b.transactionStart f := rfl
  rw [hstart, EStateM.run_bind]
  cases (readTransaction H 0).run (b.transactionStart f) with
  | error reason s => rfl
  | ok ok s =>
    cases ok with
    | true => rfl
    | false => rfl

theorem parseTransaction_ok {b b' : BlockChainImpl} {f : FileLocation}
    (h : b.parseTransaction H f = .ok b') : ∃ s,
      (readTransaction H 0).run (b.transactionStart f) = .ok true s ∧ b' = b.afterTransaction f s := by
  rw [parseTransaction_eq] at h
  cases hrun : (readTransaction H 0).run (b.transactionStart f) with
  | error reason s =>
    rw [hrun] at h
    cases h
  | ok ok s =>
    rw [hrun] at h
    cases ok with
    | true => exact ⟨s, rfl, (Except.ok.inj h).symm⟩
    | false => cases h

/-! ## The call -/

/-- The bytes that the file has at the place of the transaction. -/
def BlockChainImpl.transactionChunk (b : BlockChainImpl) (f : FileLocation) : List UInt8 :=
  ((b.file f.mFileIndex.toNat).bytes.drop f.mFileOffset.toNat).take f.mFileLength.toNat

/-- `fread` of the transaction returns 1. -/
def BlockChainImpl.CanReadTransaction (b : BlockChainImpl) (f : FileLocation) : Prop :=
  f.mFileLength ≠ 0 ∧ (b.transactionChunk f).length = f.mFileLength.toNat

instance (b : BlockChainImpl) (f : FileLocation) : Decidable (b.CanReadTransaction f) :=
  inferInstanceAs (Decidable (_ ∧ _))

/-- The interface with the bytes in the buffer. -/
def BlockChainImpl.transactionRead (b : BlockChainImpl) (f : FileLocation) : BlockChainImpl :=
  { ((b.fseek f.mFileIndex.toNat f.mFileOffset.toNat).fread f.mFileIndex.toNat
      f.mFileLength.toNat).2 with
    mTransactionBlockBuffer := overlay (b.transactionChunk f) b.mTransactionBlockBuffer }

/-- The file is put back to where it was, as far as 32 bits tell. -/
def BlockChainImpl.restore (b b0 : BlockChainImpl) (f : FileLocation) : BlockChainImpl :=
  b.fseek f.mFileIndex.toNat (b0.file f.mFileIndex.toNat).ftell.toNat

/-- The place is one of an open file, and the length one of a block. -/
def BlockChainImpl.Locates (b : BlockChainImpl) (f : FileLocation) : Prop :=
  f.mFileIndex.toNat < b.mBlockDataFiles.length ∧ f.mFileLength < MAX_BLOCK_SIZE

instance (b : BlockChainImpl) (f : FileLocation) : Decidable (b.Locates f) :=
  inferInstanceAs (Decidable (_ ∧ _))

/-- The ways of `readSingleTransaction` once the transaction is found. -/
theorem readTransactionAt_eq (b : BlockChainImpl) (f : FileLocation) :
    b.readTransactionAt H f =
      if b.Locates f then
        if b.CanReadTransaction f then
          ((b.transactionRead f).parseTransaction H f).map (fun b' => (true, b'.restore b f))
        else .ok (false, (b.transactionRead f).restore b f)
      else .ok (false, b) := by
  have hchunk := fread_fst b f.mFileIndex.toNat f.mFileOffset.toNat f.mFileLength.toNat
  obtain ⟨r, hr⟩ : ∃ r, r = (b.fseek f.mFileIndex.toNat f.mFileOffset.toNat).fread
    f.mFileIndex.toNat f.mFileLength.toNat := ⟨_, rfl⟩
  have hbuffer : r.2.mTransactionBlockBuffer = b.mTransactionBlockBuffer := by
    rw [hr]
    rfl
  have hread : { r.2 with mTransactionBlockBuffer := overlay r.1 r.2.mTransactionBlockBuffer } =
      b.transactionRead f := by
    rw [← hr] at hchunk
    rw [hchunk, hbuffer, hr]
    rfl
  unfold BlockChainImpl.readTransactionAt
  simp only
  rw [← hr, hread]
  rw [← hr] at hchunk
  by_cases hplace : b.Locates f
  · rw [if_pos hplace, if_pos (by exact hplace)]
    rw [hchunk]
    by_cases hcan : b.CanReadTransaction f
    · rw [if_pos hcan, if_pos (by exact hcan)]
      cases (b.transactionRead f).parseTransaction H f with
      | ok b' => rfl
      | error reason => rfl
    · rw [if_neg hcan, if_neg (by exact hcan)]
      rfl
  · rw [if_neg hplace, if_neg (by exact hplace)]

/-! ## What a call leaves as it was -/

/-- Nothing has changed but the positions of the files, what belongs to the
single transaction, and the globals. -/
def RereadOnly (b b' : BlockChainImpl) : Prop :=
  ∃ mBlockDataFiles mTransactionBlockBuffer mSingleTransactionBlock gIsWarning
      gReportTransactionHash stack,
    mBlockDataFiles.map File.bytes = b.fileBytes ∧
    b' = { b with
      mBlockDataFiles, mTransactionBlockBuffer, mSingleTransactionBlock, gIsWarning
      gReportTransactionHash, stack }

theorem RereadOnly.refl (b : BlockChainImpl) : RereadOnly b b :=
  ⟨_, _, _, _, _, _, rfl, rfl⟩

theorem RereadOnly.trans {b b' b'' : BlockChainImpl} (h : RereadOnly b b') (h' : RereadOnly b' b'') :
    RereadOnly b b'' := by
  obtain ⟨fs, buffer, block, warning, report, stack, hbytes, rfl⟩ := h
  obtain ⟨fs', buffer', block', warning', report', stack', hbytes', rfl⟩ := h'
  exact ⟨fs', buffer', block', warning', report', stack', hbytes'.trans hbytes, rfl⟩

theorem rereadOnly_fseek (b : BlockChainImpl) (fph position : Nat) :
    RereadOnly b (b.fseek fph position) := by
  refine ⟨(b.fseek fph position).mBlockDataFiles, _, _, _, _, _, ?_, rfl⟩
  exact setFile_fileBytes rfl

theorem rereadOnly_fread (b : BlockChainImpl) (fph n : Nat) : RereadOnly b (b.fread fph n).2 := by
  refine ⟨(b.fread fph n).2.mBlockDataFiles, _, _, _, _, _, ?_, rfl⟩
  exact setFile_fileBytes rfl

theorem rereadOnly_transactionRead (b : BlockChainImpl) (f : FileLocation) :
    RereadOnly b (b.transactionRead f) :=
  ((rereadOnly_fseek b _ _).trans (rereadOnly_fread _ _ _)).trans ⟨_, _, _, _, _, _, rfl, rfl⟩

theorem rereadOnly_readTransactionAt {b b' : BlockChainImpl} {f : FileLocation} {returned : Bool}
    (h : b.readTransactionAt H f = .ok (returned, b')) : RereadOnly b b' := by
  have hread := rereadOnly_transactionRead b f
  rw [readTransactionAt_eq] at h
  by_cases hplace : b.Locates f
  · rw [if_pos hplace] at h
    by_cases hcan : b.CanReadTransaction f
    · rw [if_pos hcan] at h
      cases hparse : (b.transactionRead f).parseTransaction H f with
      | error reason =>
        rw [hparse] at h
        cases h
      | ok b1 =>
        rw [hparse] at h
        obtain ⟨-, rfl⟩ := Prod.mk.inj (Except.ok.inj h)
        obtain ⟨s, -, rfl⟩ := parseTransaction_ok H hparse
        refine hread.trans (RereadOnly.trans ?_ (rereadOnly_fseek _ _ _))
        exact ⟨_, _, _, _, _, _, rfl, rfl⟩
    · rw [if_neg hcan] at h
      obtain ⟨-, rfl⟩ := Prod.mk.inj (Except.ok.inj h)
      exact hread.trans (rereadOnly_fseek _ _ _)
  · rw [if_neg hplace] at h
    obtain ⟨-, rfl⟩ := Prod.mk.inj (Except.ok.inj h)
    exact RereadOnly.refl b

theorem rereadOnly_readSingleTransaction {b b' : BlockChainImpl} {transactionHash : Hash256}
    {returned : Bool} (h : b.readSingleTransaction H transactionHash = .ok (returned, b')) :
    RereadOnly b b' := by
  unfold BlockChainImpl.readSingleTransaction at h
  split at h
  · obtain ⟨-, rfl⟩ := Prod.mk.inj (Except.ok.inj h)
    exact RereadOnly.refl b
  · exact rereadOnly_readTransactionAt H h

theorem rereadOnly_readTransactionsAgain {b b' : BlockChainImpl} {hashes : List Hash256}
    (h : b.readTransactionsAgain H hashes = .ok b') : RereadOnly b b' := by
  induction hashes generalizing b with
  | nil =>
    obtain rfl := Except.ok.inj h
    exact RereadOnly.refl b
  | cons hash hashes ih =>
    unfold BlockChainImpl.readTransactionsAgain at h
    obtain ⟨⟨returned, b1⟩, hread, hrest⟩ := bind_eq_ok.mp h
    exact (rereadOnly_readSingleTransaction H hread).trans (ih hrest)

theorem rereadOnly_printBlock {b b' : BlockChainImpl} (h : b.printBlock H = .ok b') :
    RereadOnly b b' := rereadOnly_readTransactionsAgain H h

end bitcoinstats.block_chain
