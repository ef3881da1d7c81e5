-- The limit on the number of blocks: `scanBlockChain` counts no more headers than
-- it allows, but it reads one before it looks at the limit.
import BitcoinStats.ChainBuild

open byte_memory keyed_set walk bitcoinstats.bitcoin_address

namespace bitcoinstats.block_chain

variable (H : Hashes)

/-! ## Scans -/

/-- The interface during the scan, and how many headers were read so far: each one
went into `mBlockHeaderSet` and became `mLastBlockHeader`. -/
structure ScanState where
  impl : BlockChainImpl
  ingested : Nat

namespace ScanState

def start (memory : BlockChainImpl) (maxBlocks : UInt32) : ScanState :=
  { impl := .new memory maxBlocks, ingested := 0 }

/-- One call of `scanBlockChain`. -/
def call (s : ScanState) (lastBlockRead : UInt32) : ScanState :=
  { impl := (s.impl.scanBlockChain H lastBlockRead).2.2
    ingested := s.ingested + if (s.impl.readBlockHeader H).1 then 1 else 0 }

/-- The state after calls with the given arguments. -/
def after (s : ScanState) (calls : List UInt32) : ScanState := calls.foldl (ScanState.call H) s

end ScanState

/-- The headers are counted, and they are no more than the limit, nor are the blocks
that `buildBlockChain` makes of them. -/
structure LimitRespected (s : ScanState) : Prop where
  counted : s.impl.mScanCount.toNat = s.ingested
  limited : s.impl.mScanCount ≤ s.impl.mMaxBlocks
  built : ∀ blockCount b, s.impl.buildBlockChain = some (blockCount, b) →
    blockCount ≤ s.impl.mMaxBlocks

/-- The count is at the limit, and the files have one more header. -/
def HeaderPastLimit (b : BlockChainImpl) : Prop :=
  b.mScanCount = b.mMaxBlocks ∧ (b.readBlockHeader H).1 = true

/-! ## What one call does -/

theorem size_insert_le (set : BlockHeaderSet) (header : BlockHeader) :
    (set.insert header).size ≤ set.size + 1 := by
  unfold KeyedSet.insert KeyedSet.size
  split
  · omega
  · simp

/-- The four ways a call goes, without the files. -/
inductive CallResult (s s' : ScanState) : Prop
  | none (count : s'.impl.mScanCount = s.impl.mScanCount)
      (set : s'.impl.mBlockHeaderSet = s.impl.mBlockHeaderSet) (ingested : s'.ingested = s.ingested)
      (noHeader : (s.impl.readBlockHeader H).1 = false)
  | counted (below : s.impl.mScanCount < s.impl.mMaxBlocks)
      (count : s'.impl.mScanCount = s.impl.mScanCount + 1) (header : BlockHeader)
      (set : s'.impl.mBlockHeaderSet = s.impl.mBlockHeaderSet.insert header)
      (ingested : s'.ingested = s.ingested + 1)
  | pastLimit (atLimit : ¬ s.impl.mScanCount < s.impl.mMaxBlocks)
      (count : s'.impl.mScanCount = s.impl.mScanCount) (header : BlockHeader)
      (set : s'.impl.mBlockHeaderSet = s.impl.mBlockHeaderSet.insert header)
      (ingested : s'.ingested = s.ingested + 1) (another : (s.impl.readBlockHeader H).1 = true)

theorem call_max (s : ScanState) (lastBlockRead : UInt32) :
    (s.call H lastBlockRead).impl.mMaxBlocks = s.impl.mMaxBlocks := by
  unfold ScanState.call BlockChainImpl.scanBlockChain
  rcases readBlockHeader_cases (H := H) s.impl with ⟨hfalse, fs, i, n, hfiles⟩ | ⟨htrue, header, hread⟩
  · simp only [hfalse, hfiles]
    simp [BlockChainImpl.withFiles]
  · simp only [htrue]
    split
    · exact hread.max
    · exact hread.max

theorem call_cases (s : ScanState) (lastBlockRead : UInt32) :
    CallResult H s (s.call H lastBlockRead) := by
  rcases readBlockHeader_cases (H := H) s.impl with ⟨hfalse, fs, i, n, hfiles⟩ | ⟨htrue, header, hread⟩
  · have hcall : (s.call H lastBlockRead).impl = s.impl.withFiles fs i n := by
      simp [ScanState.call, BlockChainImpl.scanBlockChain, hfalse, hfiles]
    refine CallResult.none ?_ ?_ ?_ hfalse
    · rw [hcall]
      rfl
    · rw [hcall]
      rfl
    · simp [ScanState.call, hfalse]
  · have hingested : (s.call H lastBlockRead).ingested = s.ingested + 1 := by
      simp [ScanState.call, htrue]
    by_cases hbelow : s.impl.mScanCount < s.impl.mMaxBlocks
    · have hcall : (s.call H lastBlockRead).impl =
          { (s.impl.readBlockHeader H).2 with mScanCount := s.impl.mScanCount + 1 } := by
        simp [ScanState.call, BlockChainImpl.scanBlockChain, htrue, hread.count, hread.max, hbelow]
      refine CallResult.counted hbelow ?_ header ?_ hingested
      · rw [hcall]
      · rw [hcall]
        exact hread.set
    · have hcall : (s.call H lastBlockRead).impl = (s.impl.readBlockHeader H).2 := by
        simp [ScanState.call, BlockChainImpl.scanBlockChain, htrue, hread.count, hread.max, hbelow]
      refine CallResult.pastLimit hbelow ?_ header ?_ hingested htrue
      · rw [hcall]
        exact hread.count
      · rw [hcall]
        exact hread.set

/-! ## Runs -/

/-- What the calls keep as long as none reads a header past the limit. -/
structure WithinLimit (s : ScanState) : Prop where
  counted : s.impl.mScanCount.toNat = s.ingested
  limited : s.impl.mScanCount ≤ s.impl.mMaxBlocks
  set : s.impl.mBlockHeaderSet.size ≤ s.ingested

theorem withinLimit_start (memory : BlockChainImpl) (maxBlocks : UInt32) :
    WithinLimit (ScanState.start memory maxBlocks) := by
  rcases openBlock_frame (memory.initialised maxBlocks) with ⟨fs, i, n, hopen⟩
  have hnew : (ScanState.start memory maxBlocks).impl =
      (memory.initialised maxBlocks).withFiles fs i n := hopen
  refine ⟨?_, ?_, ?_⟩
  · rw [hnew]
    rfl
  · rw [hnew]
    exact UInt32.zero_le
  · rw [hnew]
    exact le_refl 0

theorem withinLimit_call {s : ScanState} (h : WithinLimit s) (hno : ¬ HeaderPastLimit H s.impl)
    (lastBlockRead : UInt32) : WithinLimit (s.call H lastBlockRead) := by
  have hmax := call_max H s lastBlockRead
  cases call_cases H s lastBlockRead with
  | none count set ingested noHeader =>
    refine ⟨?_, ?_, ?_⟩
    · rw [count, ingested, h.counted]
    · rw [count, hmax]
      exact h.limited
    · rw [set, ingested]
      exact h.set
  | counted below count header set ingested =>
    have hlt := UInt32.lt_iff_toNat_lt.mp below
    have hsum : (s.impl.mScanCount + 1).toNat = s.impl.mScanCount.toNat + 1 := by
      have hrange := s.impl.mMaxBlocks.toNat_lt
      rw [UInt32.toNat_add]
      simp
      omega
    refine ⟨?_, ?_, ?_⟩
    · rw [count, ingested, hsum, h.counted]
    · rw [count, hmax, UInt32.le_iff_toNat_le, hsum]
      exact hlt
    · rw [set, ingested]
      exact le_trans (size_insert_le _ _) (Nat.succ_le_succ h.set)
  | pastLimit atLimit count header set ingested another =>
    have heq : s.impl.mScanCount = s.impl.mMaxBlocks :=
      UInt32.le_antisymm h.limited (UInt32.not_lt.mp atLimit)
    exact absurd ⟨heq, another⟩ hno

/-- There are no more blocks than headers. -/
theorem buildBlockChain_le {b b' : BlockChainImpl} {blockCount : UInt32}
    (h : b.buildBlockChain = some (blockCount, b')) :
    blockCount.toNat ≤ b.mBlockHeaderSet.size := by
  unfold BlockChainImpl.buildBlockChain at h
  split at h
  · simp only [Option.bind_eq_bind, Option.bind_eq_some_iff] at h
    rcases h with ⟨count, hcount, writes, -, hb⟩
    obtain ⟨rfl, -⟩ := Prod.mk.inj (Option.some.inj hb)
    rw [countHeaders_eq, Option.map_eq_some_iff] at hcount
    rcases hcount with ⟨l, hsteps, rfl⟩
    have hlt := steps_lt hsteps
    have hle := Nat.mod_le l.length (2 ^ 32)
    rw [UInt32.zero_add, UInt32.toNat_ofNat']
    omega
  · obtain ⟨rfl, -⟩ := Prod.mk.inj (Option.some.inj h)
    exact Nat.zero_le _

theorem WithinLimit.respected {s : ScanState} (h : WithinLimit s) : LimitRespected s := by
  refine ⟨h.counted, h.limited, ?_⟩
  intro blockCount b hbuild
  have hsize := buildBlockChain_le hbuild
  have hset := h.set
  have hlimit := UInt32.le_iff_toNat_le.mp h.limited
  rw [UInt32.le_iff_toNat_le]
  have hcounted := h.counted
  omega

theorem after_take_succ (s : ScanState) (calls : List UInt32) {n : Nat} (hn : n < calls.length) :
    s.after H (calls.take (n + 1)) = (s.after H (calls.take n)).call H calls[n] := by
  rw [List.take_succ_eq_append_getElem hn, ScanState.after, List.foldl_append]
  rfl

theorem withinLimit_after {s : ScanState} (h : WithinLimit s) (calls : List UInt32)
    (hno : ∀ n < calls.length, ¬ HeaderPastLimit H (s.after H (calls.take n)).impl) (n : Nat)
    (hn : n ≤ calls.length) : WithinLimit (s.after H (calls.take n)) := by
  induction n with
  | zero => exact h
  | succ n ih =>
    rw [after_take_succ H s calls hn]
    exact withinLimit_call H (ih (Nat.le_of_succ_le hn)) (hno n hn) calls[n]

/-- A header past the limit is read and not counted. -/
theorem not_counted_of_headerPastLimit {s : ScanState} (hlimit : HeaderPastLimit H s.impl)
    (hcounted : s.impl.mScanCount.toNat = s.ingested) (lastBlockRead : UInt32) :
    (s.call H lastBlockRead).impl.mScanCount.toNat ≠ (s.call H lastBlockRead).ingested := by
  rcases hlimit with ⟨heq, hanother⟩
  cases call_cases H s lastBlockRead with
  | none count set ingested noHeader =>
    rw [hanother] at noHeader
    cases noHeader
  | counted below =>
    rw [heq] at below
    exact absurd below (UInt32.lt_irrefl _)
  | pastLimit atLimit count header set ingested another =>
    rw [count, ingested]
    omega

/-- The limit is respected in every state of a scan, exactly when no call is made
with the count at the limit and one more header in the files. -/
theorem the_limit_is_respected_exactly_without_a_header_past_it (memory : BlockChainImpl)
    (maxBlocks : UInt32) (calls : List UInt32) :
    (∀ n ≤ calls.length,
      LimitRespected ((ScanState.start memory maxBlocks).after H (calls.take n))) ↔
    ∀ n < calls.length,
      ¬ HeaderPastLimit H ((ScanState.start memory maxBlocks).after H (calls.take n)).impl := by
  constructor
  · intro hall n hn hlimit
    have hbefore := (hall n (Nat.le_of_lt hn)).counted
    have hafter := (hall (n + 1) hn).counted
    rw [after_take_succ H _ calls hn] at hafter
    exact not_counted_of_headerPastLimit H hlimit hbefore calls[n] hafter
  · intro hno n hn
    exact (withinLimit_after H (withinLimit_start memory maxBlocks) calls hno n hn).respected

/-- Four records, and a limit of one block: the second call puts a second header into
the set, and two blocks are built. -/
theorem a_second_header_is_read_past_a_limit_of_one :
    ((ScanState.start sampleMemory 1).after sampleHashes [0, 0]).ingested = 2 ∧
    ((ScanState.start sampleMemory 1).after sampleHashes [0, 0]).impl.mScanCount = 1 ∧
    ((((ScanState.start sampleMemory 1).after sampleHashes [0, 0]).impl.buildBlockChain).map
      Prod.fst) = some 2 ∧
    ¬ LimitRespected ((ScanState.start sampleMemory 1).after sampleHashes [0, 0]) := by
  have hcounts : ((ScanState.start sampleMemory 1).after sampleHashes [0, 0]).ingested = 2 ∧
      ((ScanState.start sampleMemory 1).after sampleHashes [0, 0]).impl.mScanCount = 1 ∧
      ((((ScanState.start sampleMemory 1).after sampleHashes [0, 0]).impl.buildBlockChain).map
        Prod.fst) = some 2 := by
    decide +kernel
  refine ⟨hcounts.1, hcounts.2.1, hcounts.2.2, fun hrespected => ?_⟩
  have hcounted := hrespected.counted
  rw [hcounts.1, hcounts.2.1] at hcounted
  exact absurd hcounted (by decide)

end bitcoinstats.block_chain
