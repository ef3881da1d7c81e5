-- What a block holds once its transactions are read: each transaction in its
-- own entry, with its inputs and outputs in slices of the two arrays that
-- follow those of the transaction before.
import BitcoinStats.WireReader
import Mathlib.Data.UInt

open byte_memory exec cursor bitcoinstats.bitcoin_address

namespace bitcoinstats.block_chain

variable (H : Hashes)

/-! ## The entries of the arrays -/

def InputStored (p : Nat) (w : InputWire) (input : BlockInput) : Prop := input = w.input p

/-- The output as read, whatever the decoding of its script has added. -/
def OutputStored (p : Nat) (w : OutputWire) (output : BlockOutput) : Prop :=
  SameScript (w.output p) output

theorem inputsChange_below (k p : Nat) (ws : List InputWire) (s : ParseState) {j : Nat}
    (hj : j < k) : ((inputsChange k p ws).apply s).block.mInputs j = s.block.mInputs j :=
  changeEach_below (a := fun s => s.block.mInputs)
    (fun _ _ _ _ _ hne => Function.update_of_ne hne _ _) k p ws s hj

theorem inputsChange_stored (k p : Nat) (ws : List InputWire) (s : ParseState) :
    StoredFrom InputWire.bytes InputStored ((inputsChange k p ws).apply s).block.mInputs k p ws :=
  changeEach_stored (a := fun s => s.block.mInputs)
    (fun _ _ _ _ _ hne => Function.update_of_ne hne _ _)
    (fun _ _ _ _ => Function.update_self _ _ _) k p ws s

theorem outputsChange_below (k p : Nat) (ws : List OutputWire) (s : ParseState) {j : Nat}
    (hj : j < k) : ((outputsChange H k p ws).apply s).block.mOutputs j = s.block.mOutputs j :=
  changeEach_below (a := fun s => s.block.mOutputs)
    (fun _ _ _ _ _ hne => Function.update_of_ne hne _ _) k p ws s hj

theorem outputChange_stored (k p : Nat) (w : OutputWire) (s : ParseState) :
    OutputStored p w (((outputChange H k p w).apply s).block.mOutputs k) := by
  have hk : ((outputChange H k p w).apply s).block.mOutputs k =
      (decodeScript H s.block.mBlockData (s.stack 0) (w.output p)).output :=
    Function.update_self _ _ _
  unfold OutputStored
  rw [hk]
  exact sameScript_decodeScript H _ _ _

theorem outputsChange_stored (k p : Nat) (ws : List OutputWire) (s : ParseState) :
    StoredFrom OutputWire.bytes OutputStored ((outputsChange H k p ws).apply s).block.mOutputs
      k p ws :=
  changeEach_stored (a := fun s => s.block.mOutputs)
    (fun _ _ _ _ _ hne => Function.update_of_ne hne _ _) (outputChange_stored H) k p ws s

/-- The reward grows by the values of the outputs. -/
def totalValue (ws : List OutputWire) : UInt64 := (ws.map OutputWire.value).sum

theorem outputsChange_blockReward (k p : Nat) (ws : List OutputWire) (s : ParseState) :
    ((outputsChange H k p ws).apply s).block.blockReward = s.block.blockReward + totalValue ws := by
  induction ws generalizing k p s with
  | nil => simp [outputsChange, changeEach, totalValue]
  | cons w ws ih =>
    have hstep : ((outputsChange H k p (w :: ws)).apply s).block.blockReward =
        ((outputChange H k p w).apply s).block.blockReward + totalValue ws := ih _ _ _
    have hone : ((outputChange H k p w).apply s).block.blockReward =
        s.block.blockReward + w.value := rfl
    rw [hstep, hone, totalValue, totalValue, List.map_cons, List.sum_cons, UInt64.add_assoc]

/-! ## One transaction -/

/-- The record of a transaction that starts at `p`, in the file `fileIndex` with
the block data at `fileOffset`, as number `index`. -/
def TransactionWire.record (w : TransactionWire) (p : Nat) (tin tout : UInt32)
    (fileIndex fileOffset index : UInt32) : BlockTransaction :=
  { transactionVersionNumber := w.transactionVersionNumber
    inputCount := w.inputCount.value
    inputs := tin.toNat
    outputCount := w.outputCount.value
    outputs := tout.toNat
    lockTime := w.lockTime
    transactionHash := H.doubleSHA256 (w.bytes.take (UInt32.ofNat w.bytes.length).toNat)
    transactionLength := UInt32.ofNat w.bytes.length
    fileIndex := fileIndex
    fileOffset := fileOffset + UInt32.ofNat p
    transactionIndex := index }

/-- The inputs of a transaction go nowhere but into the array of inputs. -/
theorem inputsChange_apply (k p : Nat) (ws : List InputWire) (s : ParseState) :
    ∃ m, (inputsChange k p ws).apply s = { s with block.mInputs := m } := by
  induction ws generalizing k p s with
  | nil => exact ⟨s.block.mInputs, rfl⟩
  | cons w ws ih =>
    obtain ⟨m, hm⟩ := ih (k + 1) (p + w.bytes.length) ((inputChange k p w).apply s)
    exact ⟨m, hm⟩

/-- The outputs of a transaction go into the array of outputs, the reward and
the flags. -/
theorem outputsChange_apply (k p : Nat) (ws : List OutputWire) (s : ParseState) :
    ∃ m reward warning report stack, (outputsChange H k p ws).apply s =
      { s with
        block.mOutputs := m, block.blockReward := reward, gIsWarning := warning,
        gReportTransactionHash := report, stack := stack } := by
  induction ws generalizing k p s with
  | nil => exact ⟨_, _, _, _, _, rfl⟩
  | cons w ws ih =>
    obtain ⟨m, reward, warning, report, stack, h⟩ :=
      ih (k + 1) (p + w.bytes.length) ((outputChange H k p w).apply s)
    exact ⟨m, reward, warning, report, stack, h⟩

/-- What the change for transaction `k` does to the block: `record` is its entry. -/
structure TransactionStep (s s' : ParseState) (k p : Nat) (tin tout : UInt32)
    (w : TransactionWire) : Prop where
  transactions : s'.block.mTransactions = Function.update s.block.mTransactions k
    (w.record H p tin tout s.block.fileIndex s.block.fileOffset s.transactionIndex)
  inputsBelow : ∀ j < tin.toNat, s'.block.mInputs j = s.block.mInputs j
  inputs : StoredFrom InputWire.bytes InputStored s'.block.mInputs tin.toNat (w.inputsStart p)
    w.inputs
  outputsBelow : ∀ j < tout.toNat, s'.block.mOutputs j = s.block.mOutputs j
  outputs : StoredFrom OutputWire.bytes OutputStored s'.block.mOutputs tout.toNat
    (w.outputsStart p) w.outputs
  blockReward : s'.block.blockReward = s.block.blockReward + totalValue w.outputs
  fileIndex : s'.block.fileIndex = s.block.fileIndex
  fileOffset : s'.block.fileOffset = s.block.fileOffset
  transactionIndex : s'.transactionIndex = s.transactionIndex + 1

theorem transactionChange_step (k p : Nat) (tin tout : UInt32) (w : TransactionWire)
    (s : ParseState) (hin : s.block.totalInputCount = tin) (hout : s.block.totalOutputCount = tout)
    (hmem : Holds s.block.mBlockData p w.bytes) :
    TransactionStep H s ((transactionChange H k p tin tout w).apply s) k p tin tout w := by
  subst hin hout
  -- the states after the count of the inputs, the inputs, the count of the outputs, the outputs
  obtain ⟨s1, hs1⟩ : ∃ s1, s1 = (inputCountChange k w.inputCount.value).apply
    ((versionChange k w.transactionVersionNumber).apply s) := ⟨_, rfl⟩
  obtain ⟨s2, hs2⟩ : ∃ s2, s2 = (inputsChange s.block.totalInputCount.toNat (w.inputsStart p)
    w.inputs).apply s1 := ⟨_, rfl⟩
  obtain ⟨s3, hs3⟩ : ∃ s3, s3 = (outputCountChange k w.outputCount.value).apply s2 := ⟨_, rfl⟩
  obtain ⟨s4, hs4⟩ : ∃ s4, s4 = (outputsChange H s.block.totalOutputCount.toNat (w.outputsStart p)
    w.outputs).apply s3 := ⟨_, rfl⟩
  have hlast : (transactionChange H k p s.block.totalInputCount s.block.totalOutputCount w).apply s =
      (finishChange H k p (p + w.bytes.length) w.lockTime).apply s4 := by
    rw [hs4, hs3, hs2, hs1]
    rfl
  have hinputs := inputsChange_stored s.block.totalInputCount.toNat (w.inputsStart p) w.inputs s1
  have houtputs := outputsChange_stored H s.block.totalOutputCount.toNat (w.outputsStart p)
    w.outputs s3
  have hbelow : ∀ j < s.block.totalInputCount.toNat, s2.block.mInputs j = s.block.mInputs j := by
    intro j hj
    rw [hs2, inputsChange_below _ _ _ _ hj, hs1]
    rfl
  have houtbelow : ∀ j < s.block.totalOutputCount.toNat,
      s4.block.mOutputs j = s3.block.mOutputs j := by
    intro j hj
    rw [hs4, outputsChange_below _ _ _ _ _ hj]
  have hreward := outputsChange_blockReward H s.block.totalOutputCount.toNat (w.outputsStart p)
    w.outputs s3
  rw [← hs2] at hinputs
  rw [← hs4] at houtputs hreward
  obtain ⟨mi, h2⟩ := inputsChange_apply s.block.totalInputCount.toNat (w.inputsStart p) w.inputs s1
  obtain ⟨mo, reward, warning, report, stack, h4⟩ := outputsChange_apply H
    s.block.totalOutputCount.toNat (w.outputsStart p) w.outputs s3
  rw [← hs2] at h2
  rw [← hs4] at h4
  have hkept : s4.block.fileIndex = s.block.fileIndex ∧ s4.block.fileOffset = s.block.fileOffset ∧
      s4.transactionIndex = s.transactionIndex := by
    rw [h4, hs3, h2, hs1]
    dsimp only [outputCountChange, ParseState.setOutputs, ParseState.setTransaction,
      inputCountChange, ParseState.setInputs, versionChange, ParseState.setVersion]
    exact ⟨rfl, rfl, rfl⟩
  rw [hlast]
  refine ⟨?_, ?_, ?_, ?_, ?_, ?_, ?_, ?_, ?_⟩
  · have hmod : (UInt32.ofNat w.bytes.length).toNat ≤ w.bytes.length := by
      rw [UInt32.toNat_ofNat']
      exact Nat.mod_le _ _
    have hwindow := congrArg H.doubleSHA256 (window_take hmem _ hmod)
    funext j
    rw [h4, hs3, h2, hs1]
    by_cases hj : j = k
    · subst hj
      simpa [finishChange, ParseState.finishTransaction, ParseState.setTransaction,
        outputCountChange, ParseState.setOutputs, inputCountChange, ParseState.setInputs,
        versionChange, ParseState.setVersion, TransactionWire.record] using hwindow
    · simp [finishChange, ParseState.finishTransaction, ParseState.setTransaction,
        outputCountChange, ParseState.setOutputs, inputCountChange, ParseState.setInputs,
        versionChange, ParseState.setVersion, hj]
  · intro j hj
    rw [← hbelow j hj, h4, hs3]
    rfl
  · rw [h4, hs3]
    exact hinputs
  · intro j hj
    rw [h2, hs1] at hs3
    have h3 := houtbelow j hj
    rw [hs3] at h3
    exact h3
  · exact houtputs
  · have hbefore : s3.block.blockReward = s.block.blockReward := by
      rw [hs3, h2, hs1]
      dsimp only [outputCountChange, ParseState.setOutputs, ParseState.setTransaction,
        inputCountChange, ParseState.setInputs, versionChange, ParseState.setVersion]
    rw [← hbefore, ← hreward]
    dsimp only [finishChange, ParseState.finishTransaction, ParseState.setTransaction]
  · exact hkept.1
  · exact hkept.2.1
  · exact congrArg (· + 1) hkept.2.2

/-! ## All transactions -/

/-- Transaction `k` of the block is the one whose bytes start at `p`, with its
inputs and outputs from the entries `tin` and `tout` on. -/
structure TransactionStored (b : BlockImpl) (k p : Nat) (tin tout index : UInt32)
    (w : TransactionWire) : Prop where
  record : b.mTransactions k = w.record H p tin tout b.fileIndex b.fileOffset index
  inputs : StoredFrom InputWire.bytes InputStored b.mInputs tin.toNat (w.inputsStart p) w.inputs
  outputs : StoredFrom OutputWire.bytes OutputStored b.mOutputs tout.toNat (w.outputsStart p)
    w.outputs

def TransactionsStored (b : BlockImpl) :
    Nat → Nat → UInt32 → UInt32 → UInt32 → List TransactionWire → Prop
  | _, _, _, _, _, [] => True
  | k, p, tin, tout, index, w :: ws =>
    TransactionStored H b k p tin tout index w ∧
      TransactionsStored b (k + 1) (p + w.bytes.length) (tin + w.inputCount.value)
        (tout + w.outputCount.value) (index + 1) ws

/-- What the transactions from `k` on leave alone. -/
structure KeepsBelow (b b' : BlockImpl) (k : Nat) (tin tout : UInt32) : Prop where
  transactions : ∀ j < k, b'.mTransactions j = b.mTransactions j
  inputs : ∀ j < tin.toNat, b'.mInputs j = b.mInputs j
  outputs : ∀ j < tout.toNat, b'.mOutputs j = b.mOutputs j
  fileIndex : b'.fileIndex = b.fileIndex
  fileOffset : b'.fileOffset = b.fileOffset

theorem TransactionStep.keepsBelow {s s' : ParseState} {k p : Nat} {tin tout : UInt32}
    {w : TransactionWire} (h : TransactionStep H s s' k p tin tout w) :
    KeepsBelow s.block s'.block k tin tout := by
  refine ⟨?_, h.inputsBelow, h.outputsBelow, h.fileIndex, h.fileOffset⟩
  intro j hj
  rw [h.transactions, Function.update_of_ne (by omega)]

theorem TransactionStep.stored {s s' : ParseState} {k p : Nat} {tin tout : UInt32}
    {w : TransactionWire} (h : TransactionStep H s s' k p tin tout w) :
    TransactionStored H s'.block k p tin tout s.transactionIndex w := by
  refine ⟨?_, h.inputs, h.outputs⟩
  rw [h.transactions, Function.update_self, h.fileIndex, h.fileOffset]

/-- The counts of one transaction do not overflow the totals. -/
theorem TransactionWire.add_inputs (w : TransactionWire) {tin : UInt32}
    (hin : tin < MAX_BLOCK_INPUTS) :
    (tin + w.inputCount.value).toNat = tin.toNat + w.inputs.length := by
  have hcount := w.inputs_reasonable
  rw [UInt32.lt_iff_toNat_lt] at hin hcount
  have hmax : MAX_BLOCK_INPUTS.toNat = 32768 := rfl
  have hreasonable : MAX_REASONABLE_INPUTS.toNat = 32678 := rfl
  rw [UInt32.toNat_add, w.inputs_length, Nat.mod_eq_of_lt (by omega)]

theorem TransactionWire.add_outputs (w : TransactionWire) {tout : UInt32}
    (hout : tout < MAX_BLOCK_OUTPUTS) :
    (tout + w.outputCount.value).toNat = tout.toNat + w.outputs.length := by
  have hcount := w.outputs_reasonable
  rw [UInt32.le_iff_toNat_le] at hcount
  rw [UInt32.lt_iff_toNat_lt] at hout
  have hmax : MAX_BLOCK_OUTPUTS.toNat = 32768 := rfl
  have hreasonable : MAX_REASONABLE_OUTPUTS.toNat = 32768 := rfl
  rw [UInt32.toNat_add, w.outputs_length, Nat.mod_eq_of_lt (by omega)]

theorem TransactionStored.keep {b b' : BlockImpl} {k p : Nat} {tin tout index : UInt32}
    {w : TransactionWire} {tin' tout' : UInt32} (h : TransactionStored H b k p tin tout index w)
    (hkeep : KeepsBelow b b' (k + 1) tin' tout') (hin : tin'.toNat = tin.toNat + w.inputs.length)
    (hout : tout'.toNat = tout.toNat + w.outputs.length) :
    TransactionStored H b' k p tin tout index w := by
  refine ⟨?_, ?_, ?_⟩
  · rw [hkeep.transactions k (Nat.lt_succ_self k), h.record, hkeep.fileIndex, hkeep.fileOffset]
  · exact h.inputs.congr fun j _ hj => hkeep.inputs j (by omega)
  · exact h.outputs.congr fun j _ hj => hkeep.outputs j (by omega)

theorem KeepsBelow.trans {b1 b2 b3 : BlockImpl} {k k' : Nat} {tin tin' tout tout' : UInt32}
    (h1 : KeepsBelow b1 b2 k tin tout) (h2 : KeepsBelow b2 b3 k' tin' tout') (hk : k ≤ k')
    (hin : tin.toNat ≤ tin'.toNat) (hout : tout.toNat ≤ tout'.toNat) :
    KeepsBelow b1 b3 k tin tout := by
  refine ⟨?_, ?_, ?_, h2.fileIndex.trans h1.fileIndex, h2.fileOffset.trans h1.fileOffset⟩
  · intro j hj
    exact (h2.transactions j (by omega)).trans (h1.transactions j hj)
  · intro j hj
    exact (h2.inputs j (by omega)).trans (h1.inputs j hj)
  · intro j hj
    exact (h2.outputs j (by omega)).trans (h1.outputs j hj)

/-- All transactions are in their entries, and the totals count what they take. -/
structure TransactionsStep (s s' : ParseState) (k p : Nat) (tin tout : UInt32)
    (ws : List TransactionWire) : Prop where
  stored : TransactionsStored H s'.block k p tin tout s.transactionIndex ws
  below : KeepsBelow s.block s'.block k tin tout
  totalInputCount :
    s'.block.totalInputCount.toNat = tin.toNat + (ws.map (fun w => w.inputs.length)).sum
  totalOutputCount :
    s'.block.totalOutputCount.toNat = tout.toNat + (ws.map (fun w => w.outputs.length)).sum
  blockReward :
    s'.block.blockReward = s.block.blockReward + (ws.map (fun w => totalValue w.outputs)).sum
  transactionIndex : s'.transactionIndex = s.transactionIndex + UInt32.ofNat ws.length

theorem transactionsChange_step (k p : Nat) {tin tout : UInt32} {ws : List TransactionWire}
    (fit : TransactionsFit tin tout ws) (s : ParseState) (hin : s.block.totalInputCount = tin)
    (hout : s.block.totalOutputCount = tout) (hinlt : tin < MAX_BLOCK_INPUTS)
    (houtlt : tout < MAX_BLOCK_OUTPUTS)
    (hmem : Holds s.block.mBlockData p (ws.flatMap TransactionWire.bytes)) :
    TransactionsStep H s ((transactionsChange H k p tin tout ws).apply s) k p tin tout ws := by
  induction fit generalizing k p s with
  | nil tin tout =>
    subst hin hout
    exact ⟨trivial, ⟨fun _ _ => rfl, fun _ _ => rfl, fun _ _ => rfl, rfl, rfl⟩, rfl, rfl,
      (UInt64.add_zero _).symm, (UInt32.add_zero _).symm⟩
  | @cons tin tout w ws fits rest ih =>
    rw [List.flatMap_cons, holds_append] at hmem
    have hstep := transactionChange_step H k p tin tout w s hin hout hmem.1
    have hrest := ih (k + 1) (p + w.bytes.length) ((transactionChange H k p tin tout w).apply s)
      (by simp [hin]) (by simp [hout]) fits.inputs fits.outputs (by simpa using hmem.2)
    have haddin := w.add_inputs hinlt
    have haddout := w.add_outputs houtlt
    refine ⟨⟨?_, ?_⟩, ?_, ?_, ?_, ?_, ?_⟩
    · exact hstep.stored.keep H hrest.below haddin haddout
    · rw [← hstep.transactionIndex]
      exact hrest.stored
    · exact hstep.keepsBelow.trans hrest.below (Nat.le_succ k) (by omega) (by omega)
    · have h := hrest.totalInputCount
      rw [haddin] at h
      rw [List.map_cons, List.sum_cons, ← Nat.add_assoc]
      exact h
    · have h := hrest.totalOutputCount
      rw [haddout] at h
      rw [List.map_cons, List.sum_cons, ← Nat.add_assoc]
      exact h
    · have h := hrest.blockReward
      rw [hstep.blockReward, UInt64.add_assoc] at h
      rw [List.map_cons, List.sum_cons]
      exact h
    · have h := hrest.transactionIndex
      rw [hstep.transactionIndex] at h
      refine h.trans ?_
      rw [List.length_cons, Nat.add_comm ws.length 1, UInt32.ofNat_add, UInt32.add_assoc]
      rfl

/-- Each transaction is stored behind the bytes and the entries of those before it. -/
theorem TransactionsStored.get {b : BlockImpl} {k p : Nat} {tin tout index : UInt32}
    {ws : List TransactionWire} (fit : TransactionsFit tin tout ws)
    (h : TransactionsStored H b k p tin tout index ws) (hin : tin < MAX_BLOCK_INPUTS)
    (hout : tout < MAX_BLOCK_OUTPUTS) (i : Nat) (hi : i < ws.length) :
    ∃ tin' tout' : UInt32,
      TransactionStored H b (k + i) (p + ((ws.take i).flatMap TransactionWire.bytes).length)
        tin' tout' (index + UInt32.ofNat i) ws[i] ∧
      tin'.toNat = tin.toNat + ((ws.take i).map fun w => w.inputs.length).sum ∧
      tout'.toNat = tout.toNat + ((ws.take i).map fun w => w.outputs.length).sum := by
  induction fit generalizing k p index i with
  | nil tin tout => exact absurd hi (Nat.not_lt_zero i)
  | @cons tin tout w ws fits rest ih =>
    obtain ⟨hw, hws⟩ := h
    cases i with
    | zero =>
      refine ⟨tin, tout, ?_, by simp, by simp⟩
      simpa using hw
    | succ i =>
      obtain ⟨tin', tout', hstored, hin', hout'⟩ := ih hws fits.inputs fits.outputs i
        (by simpa using hi)
      refine ⟨tin', tout', ?_, ?_, ?_⟩
      · have hk : k + 1 + i = k + (i + 1) := by omega
        have hindex : index + 1 + UInt32.ofNat i = index + UInt32.ofNat (i + 1) := by
          rw [Nat.add_comm i 1, UInt32.ofNat_add, UInt32.add_assoc]
          rfl
        rw [hk, hindex] at hstored
        simpa [Nat.add_assoc] using hstored
      · rw [hin', w.add_inputs hin]
        simp [Nat.add_assoc]
      · rw [hout', w.add_outputs hout]
        simp [Nat.add_assoc]

/-! ## Whole blocks -/

/-- The fields that the transactions of a block have nothing to do with. -/
structure BlockImpl.Frame where
  blockLength : UInt32
  blockFormatVersion : UInt32
  previousBlockHash : Nat
  merkleRoot : Nat
  timeStamp : UInt32
  bits : UInt32
  nonce : UInt32
  transactionCount : UInt32
  computedBlockHash : Hash256
  blockIndex : UInt32
  nextBlockHash : Option Nat
  mBlockEnd : Nat

def BlockImpl.frame (b : BlockImpl) : BlockImpl.Frame :=
  { blockLength := b.blockLength, blockFormatVersion := b.blockFormatVersion
    previousBlockHash := b.previousBlockHash, merkleRoot := b.merkleRoot
    timeStamp := b.timeStamp, bits := b.bits, nonce := b.nonce
    transactionCount := b.transactionCount, computedBlockHash := b.computedBlockHash
    blockIndex := b.blockIndex, nextBlockHash := b.nextBlockHash, mBlockEnd := b.mBlockEnd }

theorem inputsChange_frame (k p : Nat) (ws : List InputWire) (s : ParseState) :
    ((inputsChange k p ws).apply s).block.frame = s.block.frame :=
  changeEach_keeps _ _ (fun s : ParseState => s.block.frame) (fun _ _ _ _ => rfl) k p ws s

theorem outputsChange_frame (k p : Nat) (ws : List OutputWire) (s : ParseState) :
    ((outputsChange H k p ws).apply s).block.frame = s.block.frame :=
  changeEach_keeps _ _ (fun s : ParseState => s.block.frame) (fun _ _ _ _ => rfl) k p ws s

theorem versionChange_frame (k : Nat) (version : UInt32) (s : ParseState) :
    ((versionChange k version).apply s).block.frame = s.block.frame := rfl

theorem inputCountChange_frame (k : Nat) (count : UInt32) (s : ParseState) :
    ((inputCountChange k count).apply s).block.frame = s.block.frame := rfl

theorem outputCountChange_frame (k : Nat) (count : UInt32) (s : ParseState) :
    ((outputCountChange k count).apply s).block.frame = s.block.frame := rfl

theorem finishChange_frame (k transactionBegin transactionEnd : Nat) (lockTime : UInt32)
    (s : ParseState) :
    ((finishChange H k transactionBegin transactionEnd lockTime).apply s).block.frame =
      s.block.frame := rfl

theorem transactionChange_frame (k p : Nat) (tin tout : UInt32) (w : TransactionWire)
    (s : ParseState) :
    ((transactionChange H k p tin tout w).apply s).block.frame = s.block.frame := by
  unfold transactionChange headChange tailChange
  simp only [Change.andThen_apply]
  rw [finishChange_frame, outputsChange_frame, outputCountChange_frame, inputsChange_frame,
    inputCountChange_frame, versionChange_frame]

theorem transactionsChange_frame (k p : Nat) (tin tout : UInt32) (ws : List TransactionWire)
    (s : ParseState) :
    ((transactionsChange H k p tin tout ws).apply s).block.frame = s.block.frame := by
  induction ws generalizing k p tin tout s with
  | nil => rfl
  | cons w ws ih =>
    unfold transactionsChange
    rw [Change.andThen_apply, ih, transactionChange_frame]

/-- What a run over a whole block leaves in the state `s'`. -/
structure BlockRead (s s' : ParseState) (header : HeaderWire) (count : Count)
    (ws : List TransactionWire) : Prop where
  frame : s'.block.frame =
    { s.block.frame with
      blockFormatVersion := header.blockFormatVersion
      previousBlockHash := s.block.mBlockRead + 4
      merkleRoot := s.block.mBlockRead + 36
      timeStamp := header.timeStamp
      bits := header.bits
      nonce := header.nonce
      transactionCount := count.value }
  mBlockRead : s'.block.mBlockRead = s.block.mBlockRead +
    (header.bytes ++ count.bytes ++ ws.flatMap TransactionWire.bytes).length
  mBlockData : s'.block.mBlockData = s.block.mBlockData
  transactions : TransactionsStep H s s' 0 (s.block.mBlockRead + 80 + count.bytes.length)
    s.block.totalInputCount s.block.totalOutputCount ws

theorem readBlockData_contents (s : ParseState) (header : HeaderWire) (count : Count)
    (hcount : count.value < MAX_BLOCK_TRANSACTION) {ws : List TransactionWire}
    (hlen : ws.length = count.value.toNat)
    (fit : TransactionsFit s.block.totalInputCount s.block.totalOutputCount ws)
    (hin : s.block.totalInputCount < MAX_BLOCK_INPUTS)
    (hout : s.block.totalOutputCount < MAX_BLOCK_OUTPUTS)
    (hs : Sees s (header.bytes ++ count.bytes ++ ws.flatMap TransactionWire.bytes)) :
    ∃ s', (readBlockData H).run s = .ok true s' ∧ BlockRead H s s' header count ws := by
  obtain ⟨rs, hrun⟩ := readBlockData_reads H header count hcount hlen fit hs
  refine ⟨_, hrun, ?_, ?_, ?_, ?_⟩
  · rw [Change.andThen_apply, transactionsChange_frame]
    rfl
  · rw [apply_mBlockRead, moved_mBlockRead]
  · rw [apply_mBlockData]
    rfl
  · obtain ⟨s1, hs1⟩ : ∃ s1, s1 = (headerChange s.block.mBlockRead header count.value).apply
      (moved s (header.bytes ++ count.bytes ++ ws.flatMap TransactionWire.bytes).length rs) :=
        ⟨_, rfl⟩
    have hmem : Holds s1.block.mBlockData (s.block.mBlockRead + 80 + count.bytes.length)
        (ws.flatMap TransactionWire.bytes) := by
      have hbody := ((holds_append _ _ _ _).mp hs).2
      rw [List.length_append, header.bytes_length, ← Nat.add_assoc] at hbody
      rw [hs1, apply_mBlockData]
      exact hbody
    have hstep := transactionsChange_step H 0 (s.block.mBlockRead + 80 + count.bytes.length) fit s1
      (by rw [hs1]; rfl) (by rw [hs1]; rfl) hin hout hmem
    have hkeep : KeepsBelow s.block s1.block 0 s.block.totalInputCount s.block.totalOutputCount := by
      rw [hs1]
      exact ⟨fun _ _ => rfl, fun _ _ => rfl, fun _ _ => rfl, rfl, rfl⟩
    have hreward : s1.block.blockReward = s.block.blockReward := by
      rw [hs1]
      rfl
    have hindex : s1.transactionIndex = s.transactionIndex := by
      rw [hs1]
      rfl
    rw [Change.andThen_apply, ← hs1]
    refine ⟨?_, ?_, hstep.totalInputCount, hstep.totalOutputCount, ?_, ?_⟩
    · rw [← hindex]
      exact hstep.stored
    · exact hkeep.trans hstep.below (Nat.le_refl _) (Nat.le_refl _) (Nat.le_refl _)
    · rw [← hreward]
      exact hstep.blockReward
    · rw [← hindex]
      exact hstep.transactionIndex

end bitcoinstats.block_chain
