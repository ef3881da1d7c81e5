-- How the parser comes back from a block: with all of its transactions, with
-- one that it turns down, or not at all.
import BitcoinStats.BlockContents
import BitcoinStats.ReadBlockSteps

open byte_memory exec cursor bitcoinstats.bitcoin_address

namespace bitcoinstats.block_chain

variable (H : Hashes)

/-! ## The loop over the transactions -/

/-- The loop up to a transaction without an input. -/
theorem readTransactions_rejects {s : ParseState} (k : Nat) {n p : Nat} {ws : List TransactionWire}
    {tin tout : UInt32} (e : EmptyTransaction) (fit : TransactionsFit tin tout ws)
    (fewer : ws.length < n) (hp : s.block.mBlockRead = p) (hin : s.block.totalInputCount = tin)
    (hout : s.block.totalOutputCount = tout) (htin : tin < MAX_BLOCK_INPUTS) :
    Reads s (readTransactions H n k) (ws.flatMap TransactionWire.bytes ++ e.bytes) false
      ((transactionsChange H k p tin tout ws).andThen
        (emptyTransactionChange (k + ws.length) e)) := by
  induction fit generalizing k n s p with
  | nil tin tout =>
    obtain ⟨n, rfl⟩ : ∃ m, n = m + 1 := ⟨n - 1, by omega⟩
    subst hin
    exact (readTransaction_reads_empty H k e htin).bind_pure rfl
  | @cons tin tout w ws fits rest ih =>
    obtain ⟨n, rfl⟩ : ∃ m, n = m + 1 := ⟨n - 1, by omega⟩
    subst hp hin hout
    rw [List.flatMap_cons, List.append_assoc]
    have hlength : k + (w :: ws).length = k + 1 + ws.length := by
      rw [List.length_cons]
      omega
    rw [hlength]
    have h := (readTransaction_reads H k w fits).bind
      (f := fun ok => if ok then readTransactions H n (k + 1) else return false) fun vs =>
        ih (k + 1) (p := s.block.mBlockRead + w.bytes.length) (by simpa using fewer) (by simp)
          (by simp) (by simp) fits.inputs
    exact h

/-- Every memory has the transactions, or fewer and one without an input, or
the loop ends the process. -/
theorem readTransactions_cases (n k : Nat) (s : ParseState)
    (hin : s.block.totalInputCount < MAX_BLOCK_INPUTS) :
    (∃ ws, TransactionsFit s.block.totalInputCount s.block.totalOutputCount ws ∧ ws.length = n ∧
      Sees s (ws.flatMap TransactionWire.bytes)) ∨
    (∃ (ws : List TransactionWire) (e : EmptyTransaction),
      TransactionsFit s.block.totalInputCount s.block.totalOutputCount ws ∧ ws.length < n ∧
        Sees s (ws.flatMap TransactionWire.bytes ++ e.bytes)) ∨
    IsError ((readTransactions H n k).run s) := by
  induction n generalizing k s with
  | zero => exact Or.inl ⟨[], .nil _ _, rfl, holds_nil _ _⟩
  | succ n ih =>
    rcases exists_transaction (memory s) (position s) s.block.totalInputCount
      s.block.totalOutputCount with ⟨w, hfits, hw⟩ | ⟨w, hw⟩
    · obtain ⟨rs, hrun⟩ := readTransaction_reads H k w hfits hw
      obtain ⟨s1, hs1⟩ : ∃ s1, s1 = (transactionChange H k s.block.mBlockRead
        s.block.totalInputCount s.block.totalOutputCount w).apply (moved s w.bytes.length rs) :=
          ⟨_, rfl⟩
      rw [← hs1] at hrun
      have htin : s1.block.totalInputCount = s.block.totalInputCount + w.inputCount.value := by
        rw [hs1, transactionChange_totalInputCount, moved_totalInputCount]
      have htout : s1.block.totalOutputCount = s.block.totalOutputCount + w.outputCount.value := by
        rw [hs1, transactionChange_totalOutputCount, moved_totalOutputCount]
      have hsees : ∀ bytes, Sees s1 bytes → Sees s (w.bytes ++ bytes) := by
        intro bytes h
        rw [hs1] at h
        exact (sees_append rs).mpr ⟨hw, (sees_apply _).mp h⟩
      have hnext := ih (k + 1) s1 (by rw [htin]; exact hfits.inputs)
      rw [htin, htout] at hnext
      rcases hnext with ⟨ws, hfit, hlen, hws⟩ | ⟨ws, e, hfit, hlen, hws⟩ | herror
      · exact Or.inl ⟨w :: ws, .cons hfits hfit, by simp [hlen], hsees _ hws⟩
      · refine Or.inr (Or.inl ⟨w :: ws, e, .cons hfits hfit, by simpa using hlen, ?_⟩)
        rw [List.flatMap_cons, List.append_assoc]
        exact hsees _ hws
      · right
        right
        unfold readTransactions
        rw [run_bind_ok hrun, if_pos rfl]
        exact herror
    · by_cases hempty : w.IsEmpty
      · obtain ⟨e, hbytes, -⟩ := hempty.bytes_eq
        rw [hbytes] at hw
        exact Or.inr (Or.inl ⟨[], e, .nil _ _, Nat.succ_pos n, hw⟩)
      · right
        right
        unfold readTransactions
        exact ((readTransaction_ends_in_error H k w hempty).bind hw).1

/-! ## The whole block -/

/-- Every memory has a whole block, or one with a transaction without an input,
or the parser ends the process. -/
theorem readBlockData_cases (s : ParseState) (hin : s.block.totalInputCount = 0)
    (hout : s.block.totalOutputCount = 0) :
    (∃ w : WholeBlock, Sees s w.bytes) ∨ (∃ w : RejectedBlock, Sees s w.bytes) ∨
      IsError ((readBlockData H).run s) := by
  obtain ⟨header, hheader⟩ := exists_header (memory s) (position s)
  obtain ⟨count, hcount⟩ := exists_count (memory s) (position s + header.bytes.length)
  have hsees : Sees s (header.bytes ++ count.bytes) := (holds_append _ _ _ _).mpr ⟨hheader, hcount⟩
  obtain ⟨rs, hrun⟩ := readHeaderFields_reads header count hsees
  obtain ⟨s1, hs1⟩ : ∃ s1, s1 = (headerChange s.block.mBlockRead header count.value).apply
    (moved s (header.bytes ++ count.bytes).length rs) := ⟨_, rfl⟩
  rw [← hs1] at hrun
  have htin : s1.block.totalInputCount = 0 := by
    rw [hs1]
    exact hin
  have htout : s1.block.totalOutputCount = 0 := by
    rw [hs1]
    exact hout
  have hrest : ∀ bytes, Sees s1 bytes → Sees s (header.bytes ++ count.bytes ++ bytes) := by
    intro bytes h
    rw [hs1] at h
    exact (sees_append rs).mpr ⟨hsees, (sees_apply _).mp h⟩
  unfold readBlockData
  rw [run_bind_ok hrun]
  by_cases hmany : MAX_BLOCK_TRANSACTION ≤ count.value
  · right
    right
    rw [exitIf, if_pos hmany]
    trivial
  · rw [run_bind_ok (exitIf_run hmany)]
    have hcases := readTransactions_cases H count.value.toNat 0 s1 (by rw [htin]; decide)
    rw [htin, htout] at hcases
    have hreasonable := UInt32.not_le.mp hmany
    rcases hcases with ⟨ws, hfit, hlen, hws⟩ | ⟨ws, e, hfit, hlen, hws⟩ | herror
    · exact Or.inl ⟨⟨header, count, ws, hreasonable, hlen, hfit⟩, hrest _ hws⟩
    · exact Or.inr (Or.inl ⟨⟨header, count, ws, e, hreasonable, hlen, hfit⟩, hrest _ hws⟩)
    · exact Or.inr (Or.inr herror)

theorem WholeBlock.readBlockData_run (w : WholeBlock) {s : ParseState}
    (hin : s.block.totalInputCount = 0) (hout : s.block.totalOutputCount = 0) (hs : Sees s w.bytes) :
    ∃ s', (readBlockData H).run s = .ok true s' ∧
      BlockRead H s s' w.header w.transactionCount w.transactions := by
  refine readBlockData_contents H s w.header w.transactionCount w.reasonable w.length_eq ?_ ?_ ?_ hs
  · rw [hin, hout]
    exact w.fit
  · rw [hin]
    decide
  · rw [hout]
    decide

/-- The change for a block with a transaction that is turned down. -/
def RejectedBlock.change (w : RejectedBlock) (p : Nat) : Change ParseState :=
  (headerChange p w.header w.transactionCount.value).andThen
    ((transactionsChange H 0 (p + 80 + w.transactionCount.bytes.length) 0 0 w.transactions).andThen
      (emptyTransactionChange w.transactions.length w.rejected))

theorem RejectedBlock.reads (w : RejectedBlock) {s : ParseState}
    (hin : s.block.totalInputCount = 0) (hout : s.block.totalOutputCount = 0) :
    Reads s (readBlockData H) w.bytes false (w.change H s.block.mBlockRead) := by
  unfold readBlockData RejectedBlock.change
  refine (readHeaderFields_reads w.header w.transactionCount).bind fun vs => ?_
  refine reads_exitIf_bind (UInt32.not_le.mpr w.reasonable) ?_
  have hloop := readTransactions_rejects H (s := (headerChange s.block.mBlockRead w.header
      w.transactionCount.value).apply (moved s (w.header.bytes ++ w.transactionCount.bytes).length vs))
    (p := s.block.mBlockRead + 80 + w.transactionCount.bytes.length) 0 w.rejected w.fit w.fewer
    (by simp [HeaderWire.bytes_length, Nat.add_assoc]) hin hout (by decide)
  rwa [Nat.zero_add] at hloop

/-- The parser says no, and has counted the transactions before the one that
it turns down. -/
theorem RejectedBlock.readBlockData_run (w : RejectedBlock) {s : ParseState}
    (hin : s.block.totalInputCount = 0) (hout : s.block.totalOutputCount = 0) (hs : Sees s w.bytes) :
    ∃ s', (readBlockData H).run s = .ok false s' ∧
      s'.transactionIndex = s.transactionIndex + UInt32.ofNat w.transactions.length := by
  obtain ⟨vs, hrun⟩ := w.reads H hin hout hs
  refine ⟨_, hrun, ?_⟩
  have hbytes : w.bytes = w.header.bytes ++ w.transactionCount.bytes ++
    (w.transactions.flatMap TransactionWire.bytes ++ w.rejected.bytes) := rfl
  have hmem : Holds s.block.mBlockData (s.block.mBlockRead + 80 + w.transactionCount.bytes.length)
      (w.transactions.flatMap TransactionWire.bytes) := by
    rw [hbytes] at hs
    have hbody := ((holds_append _ _ _ _).mp ((holds_append _ _ _ _).mp hs).2).1
    rwa [List.length_append, w.header.bytes_length, ← Nat.add_assoc] at hbody
  have hstep := transactionsChange_step H 0
    (s.block.mBlockRead + 80 + w.transactionCount.bytes.length) w.fit
    ((headerChange s.block.mBlockRead w.header w.transactionCount.value).apply
      (moved s w.bytes.length vs)) hin hout (by decide) (by decide) hmem
  exact hstep.transactionIndex

/-! ## The data that `readBlock` parses -/

/-- The parser at the first byte of the block. -/
def BlockChainImpl.parseStart (b : BlockChainImpl) (blockIndex : UInt32) : ParseState :=
  (b.blockStart H blockIndex (b.headerAt blockIndex)).setBlockData
    (b.dataOf (b.headerAt blockIndex)) (b.headerAt blockIndex).mBlockLength

variable {H}

theorem Parsed.run_eq {b : BlockChainImpl} {blockIndex : UInt32} {ret : Bool} {s : ParseState}
    (h : Parsed H b blockIndex ret s) :
    (readBlockData H).run (b.parseStart H blockIndex) = .ok ret s := h.run

/-- A block that is given has all of its transactions. -/
theorem Parsed.whole {b : BlockChainImpl} {blockIndex : UInt32} {s : ParseState}
    (h : Parsed H b blockIndex true s) :
    ∃ w : WholeBlock, Holds (b.dataOf (b.headerAt blockIndex)) 0 w.bytes ∧
      BlockRead H (b.parseStart H blockIndex) s w.header w.transactionCount w.transactions := by
  have hrun := h.run_eq
  rcases readBlockData_cases H (b.parseStart H blockIndex) rfl rfl with ⟨w, hw⟩ | ⟨w, hw⟩ | herror
  · obtain ⟨s', hok, hread⟩ := w.readBlockData_run H rfl rfl hw
    rw [hrun] at hok
    obtain ⟨-, rfl⟩ := EStateM.Result.ok.inj hok
    exact ⟨w, hw, hread⟩
  · obtain ⟨s', hok, -⟩ := w.readBlockData_run H rfl rfl hw
    rw [hrun] at hok
    cases hok
  · rw [hrun] at herror
    exact herror.elim

/-- A block that is turned down has a transaction without an input. -/
theorem Parsed.rejected {b : BlockChainImpl} {blockIndex : UInt32} {s : ParseState}
    (h : Parsed H b blockIndex false s) :
    ∃ w : RejectedBlock, Holds (b.dataOf (b.headerAt blockIndex)) 0 w.bytes := by
  have hrun := h.run_eq
  rcases readBlockData_cases H (b.parseStart H blockIndex) rfl rfl with ⟨w, hw⟩ | ⟨w, hw⟩ | herror
  · obtain ⟨s', hok, -⟩ := w.readBlockData_run H rfl rfl hw
    rw [hrun] at hok
    cases hok
  · exact ⟨w, hw⟩
  · rw [hrun] at herror
    exact herror.elim

end bitcoinstats.block_chain
