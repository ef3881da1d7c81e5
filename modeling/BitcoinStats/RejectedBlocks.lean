-- The counts behind a block that the parser turns down: those of the index are
-- as they were, and the number of the next transaction has grown by the
-- transactions before the one without an input.
import BitcoinStats.BlockOutcome
import BitcoinStats.SingleTransaction

open byte_memory keyed_set exec cursor runs bitcoinstats.bitcoin_address

namespace bitcoinstats.block_chain

/-! ## The claim about one call -/

/-- The data is that of a block whose first transaction has no input. -/
def FirstIsRejected (data : Memory) : Prop :=
  ∃ w : RejectedBlock, w.transactions = [] ∧ Holds data 0 w.bytes

/-- The index of the transactions and its counts are the same. -/
structure SameIndex (b b' : BlockChainImpl) : Prop where
  mTransactionSet : b'.mTransactionSet = b.mTransactionSet
  mTotalTransactionCount : b'.mTotalTransactionCount = b.mTotalTransactionCount
  mTotalInputCount : b'.mTotalInputCount = b.mTotalInputCount
  mTotalOutputCount : b'.mTotalOutputCount = b.mTotalOutputCount

/-- The call is none of a block that is turned down for a transaction behind its first. -/
def RejectsAtFirst (b : BlockChainImpl) (call : Call) : Prop :=
  ∀ blockIndex, call = .readBlock blockIndex false → blockIndex < b.mBlockCount →
    FirstIsRejected (b.dataOf (b.headerAt blockIndex))

variable (H : Hashes)

/-- `processBlockData` returns false on the data of the block. -/
def TurnsDown (b : BlockChainImpl) (blockIndex : UInt32) : Prop :=
  ∃ s, Parsed H b blockIndex false s

/-- As many transactions were numbered as went into the index. -/
def Counted (b : BlockChainImpl) : Prop := b.mTransactionCount = b.mTotalTransactionCount

/-! ## The counter behind the parser -/

variable {H}

theorem Parsed.transactionIndex_rejected {b : BlockChainImpl} {blockIndex : UInt32}
    {s : ParseState} (h : Parsed H b blockIndex false s) {w : RejectedBlock}
    (hw : Holds (b.dataOf (b.headerAt blockIndex)) 0 w.bytes) :
    s.transactionIndex = b.mTransactionCount + UInt32.ofNat w.transactions.length := by
  obtain ⟨s', hok, hindex⟩ := w.readBlockData_run H (s := b.parseStart H blockIndex) rfl rfl hw
  rw [h.run_eq] at hok
  obtain ⟨-, rfl⟩ := EStateM.Result.ok.inj hok
  exact hindex

theorem Parsed.transactionIndex_whole {b : BlockChainImpl} {blockIndex : UInt32}
    {s : ParseState} (h : Parsed H b blockIndex true s) :
    s.transactionIndex = b.mTransactionCount + s.block.transactionCount := by
  obtain ⟨w, -, hread⟩ := h.whole
  have hcount : s.block.transactionCount = w.transactionCount.value :=
    congrArg BlockImpl.Frame.transactionCount hread.frame
  rw [hcount, hread.transactions.transactionIndex, w.length_eq, UInt32.ofNat_toNat]
  rfl

/-- The counter stays exactly when nothing was before the transaction that is
turned down. -/
theorem Parsed.unchanged_iff {b : BlockChainImpl} {blockIndex : UInt32} {s : ParseState}
    (h : Parsed H b blockIndex false s) : s.transactionIndex = b.mTransactionCount ↔
      FirstIsRejected (b.dataOf (b.headerAt blockIndex)) := by
  constructor
  · intro hsame
    obtain ⟨w, hw⟩ := h.rejected
    refine ⟨w, ?_, hw⟩
    rw [h.transactionIndex_rejected hw] at hsame
    have hzero : UInt32.ofNat w.transactions.length = 0 := UInt32.add_eq_left.mp hsame
    -- fewer than `2 ^ 32` transactions: the length is 0 as a number too
    have hlt : w.transactions.length < UInt32.size :=
      lt_trans w.fewer w.transactionCount.value.toNat_lt
    have hnat := congrArg UInt32.toNat hzero
    rw [UInt32.toNat_ofNat_of_lt' hlt] at hnat
    exact List.length_eq_zero_iff.mp hnat
  · rintro ⟨w, hnil, hw⟩
    rw [h.transactionIndex_rejected hw, hnil]
    exact UInt32.add_zero _

/-! ## The steps of a run -/

/-- A block that is turned down, as the caller sees it. -/
theorem readBlock_turnsDown {b : BlockChainImpl} {blockIndex : UInt32}
    (h : TurnsDown H b blockIndex) : ∃ b', b.readBlock H blockIndex = .ok (false, b') ∧
      SameIndex b b' ∧ (b'.mTransactionCount = b.mTransactionCount ↔
        FirstIsRejected (b.dataOf (b.headerAt blockIndex))) := by
  obtain ⟨s, hs⟩ := h
  exact ⟨_, readBlock_rejected H hs, ⟨rfl, rfl, rfl, rfl⟩, hs.unchanged_iff⟩

theorem counted_readBlock {b b' : BlockChainImpl} {blockIndex : UInt32} {returned : Bool}
    (hb : Counted b) (h : b.readBlock H blockIndex = .ok (returned, b')) :
    Counted b' ↔ RejectsAtFirst b (.readBlock blockIndex returned) := by
  rcases readBlock_cases H h with ⟨hle, rfl, rfl⟩ | ⟨rfl, s, hs, rfl⟩ | ⟨rfl, s, b2, hs, hindexed, rfl⟩
  · refine iff_of_true hb ?_
    rintro i heq hlt
    obtain ⟨rfl, -⟩ := Call.readBlock.inj heq
    exact absurd hlt (UInt32.not_lt.mpr hle)
  · have hcount : Counted ((b.afterParse (b.headerAt blockIndex) s).takeWarning) ↔
        s.transactionIndex = b.mTransactionCount := by
      rw [hb]
      rfl
    rw [hcount, hs.unchanged_iff]
    constructor
    · rintro hfirst i heq -
      obtain ⟨rfl, -⟩ := Call.readBlock.inj heq
      exact hfirst
    · intro hfirst
      exact hfirst blockIndex rfl hs.inRange
  · refine iff_of_true ?_ (fun i heq => by cases heq)
    have htotal := hindexed.count_eq
    obtain ⟨total, inputs, outputs, set, rfl⟩ := hindexed.frame
    have htransactions : s.transactionIndex = total := by
      rw [hs.transactionIndex_whole, hb]
      exact htotal.symm
    exact htransactions

/-- Each call keeps the two counts together, but for the blocks that are turned
down behind their first transaction. -/
theorem counted_step {b b' : BlockChainImpl} {call : Call} (hb : Counted b) (h : Step H b call b') :
    Counted b' ↔ RejectsAtFirst b call := by
  cases h with
  | scanBlockChain lastBlockRead =>
    refine iff_of_true ?_ (fun i heq => by cases heq)
    obtain ⟨fs, i, n, last, set, count, hscan⟩ := scanOnly_scanBlockChain H b lastBlockRead
    rw [hscan]
    exact hb
  | buildBlockChain hbuild =>
    refine iff_of_true ?_ (fun i heq => by cases heq)
    obtain ⟨headers, count, scanned, rfl⟩ := buildBlockChain_frame hbuild
    exact hb
  | readBlock hread => exact counted_readBlock hb hread
  | readSingleTransaction hread =>
    refine iff_of_true ?_ (fun i heq => by cases heq)
    obtain ⟨fs, buffer, block, warning, report, stack, -, rfl⟩ :=
      rereadOnly_readSingleTransaction H hread
    exact hb
  | printBlock hprint =>
    refine iff_of_true ?_ (fun i heq => by cases heq)
    obtain ⟨fs, buffer, block, warning, report, stack, -, rfl⟩ := rereadOnly_printBlock H hprint
    exact hb

theorem counted_new (memory : BlockChainImpl) (maxBlocks : UInt32) :
    Counted (.new memory maxBlocks) := by
  have h := (Reached.new (H := default) memory maxBlocks).unread
  exact h.mTransactionCount.trans h.mTotalTransactionCount.symm

/-- From the constructor on, the runs whose calls all meet the condition are
those that keep the two counts together in every state. -/
theorem run_meeting_iff {b0 b : BlockChainImpl} {calls : List Call} (h0 : Counted b0) :
    Run (Meeting RejectsAtFirst (Step H)) b0 calls b ↔
      Run (fun s call s' => Step H s call s' ∧ Counted s') b0 calls b := by
  constructor
  · intro hrun
    have hboth : Counted b ∧ Run (fun s call s' => Step H s call s' ∧ Counted s') b0 calls b := by
      induction hrun with
      | nil => exact ⟨h0, Run.nil⟩
      | snoc _ last ih =>
        have hnext := (counted_step ih.1 last.2).mpr last.1
        exact ⟨hnext, ih.2.snoc ⟨last.2, hnext⟩⟩
    exact hboth.2
  · intro hrun
    have hboth : Counted b ∧ Run (Meeting RejectsAtFirst (Step H)) b0 calls b := by
      induction hrun with
      | nil => exact ⟨h0, Run.nil⟩
      | snoc _ last ih => exact ⟨last.2, ih.2.snoc ⟨(counted_step ih.1 last.1).mp last.2, last.1⟩⟩
    exact hboth.2

/-- A block that is turned down gives null and leaves the index as it was, in
every state. The number of the next transaction is left as it was exactly when
the first transaction of the block is the one without an input, and it stays
the total of the transactions in exactly the runs whose blocks are so. -/
theorem the_counts_stay_together_exactly_when_blocks_are_rejected_at_their_first_transaction
    (H : Hashes) (memory : BlockChainImpl) (maxBlocks : UInt32) :
    (∀ calls b, Run (Step H) (.new memory maxBlocks) calls b → ∀ blockIndex,
      TurnsDown H b blockIndex → ∃ b', b.readBlock H blockIndex = .ok (false, b') ∧
        SameIndex b b' ∧ (b'.mTransactionCount = b.mTransactionCount ↔
          FirstIsRejected (b.dataOf (b.headerAt blockIndex)))) ∧
    (∀ calls b, Run (Meeting RejectsAtFirst (Step H)) (.new memory maxBlocks) calls b ↔
      Run (fun s call s' => Step H s call s' ∧ Counted s') (.new memory maxBlocks) calls b) := by
  refine ⟨?_, fun calls b => run_meeting_iff (counted_new memory maxBlocks)⟩
  intro calls b _ blockIndex hdown
  exact readBlock_turnsDown hdown

/-! ## A block that is turned down for its second transaction -/

/-- A header of zeros, two transactions, and the second without an input. -/
def secondEmptyBlock : List UInt8 :=
  List.replicate 80 0 ++ [2] ++ plainTransaction 1 ++ [1, 0, 0, 0, 0]

def secondEmptyScanned : BlockChainImpl := oneBlockScanned zeroHeaderHashes secondEmptyBlock

theorem secondEmpty_read : (secondEmptyScanned.buildAndRead zeroHeaderHashes 0).map (fun r =>
      (r.blockCount, r.returned, r.built.mTransactionCount, r.read.mTransactionCount,
        r.read.mTotalTransactionCount)) = some (1, false, 0, 1, 0) := by
  decide +kernel

/-- The state behind the build, and the one behind the call. -/
theorem secondEmpty_built : ∃ b b',
    Run (Step zeroHeaderHashes) (.new (oneBlock secondEmptyBlock) 4)
      [.scanBlockChain, .buildBlockChain] b ∧
    TurnsDown zeroHeaderHashes b 0 ∧ b.readBlock zeroHeaderHashes 0 = .ok (false, b') ∧
    b.mTransactionCount = 0 ∧ b'.mTransactionCount = 1 ∧ b'.mTotalTransactionCount = 0 := by
  obtain ⟨r, hr, hvalues⟩ := Option.map_eq_some_iff.mp secondEmpty_read
  obtain ⟨hbuild, hread⟩ := buildAndRead_eq zeroHeaderHashes hr
  obtain ⟨-, hrest⟩ := Prod.mk.inj hvalues
  obtain ⟨hreturned, hrest⟩ := Prod.mk.inj hrest
  obtain ⟨hbefore, hrest⟩ := Prod.mk.inj hrest
  obtain ⟨hbehind, htotal⟩ := Prod.mk.inj hrest
  rw [hreturned] at hread
  refine ⟨r.built, r.read, ?_, ?_, hread, hbefore, hbehind, htotal⟩
  · exact (Run.nil.snoc (.scanBlockChain _ 0)).snoc (.buildBlockChain hbuild)
  · rcases readBlock_cases zeroHeaderHashes hread with ⟨-, -, hsame⟩ | ⟨-, s, hs, -⟩ | ⟨hno, -⟩
    · rw [hsame, hbefore] at hbehind
      exact absurd hbehind (by decide)
    · exact ⟨s, hs⟩
    · cases hno

/-- The condition fails on this block, and the total is then not met. -/
theorem the_second_empty_block_parts_the_counts : ∃ b b',
    b.readBlock zeroHeaderHashes 0 = .ok (false, b') ∧ SameIndex b b' ∧
    (b'.mTransactionCount = b.mTransactionCount ↔
      FirstIsRejected (b.dataOf (b.headerAt 0))) := by
  obtain ⟨b, b', hrun, hdown, -⟩ := secondEmpty_built
  obtain ⟨b'', hread, hsame⟩ :=
    (the_counts_stay_together_exactly_when_blocks_are_rejected_at_their_first_transaction
      zeroHeaderHashes (oneBlock secondEmptyBlock) 4).1 _ b hrun 0 hdown
  exact ⟨b, b'', hread, hsame⟩

/-- A block that is turned down for its second transaction leaves the number of
the next transaction at 1, and no transaction in the index. -/
theorem the_second_empty_block_is_counted : ∃ b b',
    Run (Step zeroHeaderHashes) (.new (oneBlock secondEmptyBlock) 4)
      [.scanBlockChain, .buildBlockChain] b ∧
    TurnsDown zeroHeaderHashes b 0 ∧ b.readBlock zeroHeaderHashes 0 = .ok (false, b') ∧
    b'.mTransactionCount ≠ b.mTransactionCount ∧
    b'.mTransactionCount ≠ b'.mTotalTransactionCount := by
  obtain ⟨b, b', hrun, hdown, hread, hbefore, hbehind, htotal⟩ := secondEmpty_built
  refine ⟨b, b', hrun, hdown, hread, ?_, ?_⟩
  · rw [hbefore, hbehind]
    decide
  · rw [hbehind, htotal]
    decide

end bitcoinstats.block_chain
