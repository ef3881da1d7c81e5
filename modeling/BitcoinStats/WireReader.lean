-- The parser reads the blocks of `WireFormat`, byte for byte. What it stores
-- is a change of the state for each part, and a part at which it stops early
-- ends the run right behind its last byte.
import BitcoinStats.BlockParser
import BitcoinStats.WireFormat

open byte_memory exec cursor bitcoinstats.bitcoin_address

namespace bitcoinstats.block_chain

/-! ## Scripts -/

/-- The pointer to a script that starts at `p`. -/
def scriptAt (length : UInt32) (p : Nat) : Option Nat := if length ≠ 0 then some p else none

theorem readScript_reads {s : ParseState} {length : UInt32} {script : List UInt8} {p : Nat}
    (h : script.length = length.toNat) (hp : s.block.mBlockRead = p) :
    Reads s (readScript length) script (scriptAt length p) Change.none := by
  unfold readScript scriptAt
  by_cases h0 : length ≠ 0
  · rw [if_pos h0, if_pos h0]
    exact (getReadBufferAdvance_reads h hp).last fun _ => Reads.pure _
  · rw [if_neg h0, if_neg h0]
    have hnil : script = [] := by
      rw [not_ne_iff.mp h0] at h
      exact List.length_eq_zero_iff.mp h
    rw [hnil]
    exact Reads.pure _

/-! ## Inputs -/

/-- The input as it is stored when its first byte is at `p`. -/
def InputWire.input (w : InputWire) (p : Nat) : BlockInput :=
  { transactionHash := p
    transactionIndex := w.transactionIndex
    responseScriptLength := w.responseScriptLength.value
    responseScript :=
      scriptAt w.responseScriptLength.value (p + 36 + w.responseScriptLength.bytes.length)
    sequenceNumber := w.sequenceNumber }

def inputChange (k p : Nat) (w : InputWire) : Change ParseState :=
  { apply := ParseState.storeInput k (w.input p)
    position := fun _ => rfl
    memory := fun _ => rfl
    moved := fun _ _ _ => rfl }

theorem readInput_reads {s : ParseState} (k : Nat) (w : InputWire) :
    Reads s (readInput k) w.bytes true (inputChange k s.block.mBlockRead w) := by
  unfold readInput
  refine (readHash_reads (by simp) rfl).next fun _ => ?_
  refine (readU32_reads w.transactionIndex).next fun _ => ?_
  refine (readVariableLengthInteger_reads w.responseScriptLength).next fun _ => ?_
  refine reads_exitIf_bind (not_not.mpr w.reasonable) ?_
  refine (readScript_reads (p := s.block.mBlockRead + 36 + w.responseScriptLength.bytes.length)
    w.script_length (by simp [Nat.add_assoc])).next fun _ => ?_
  refine (readU32_reads w.sequenceNumber).last fun _ => ?_
  exact Reads.modify_pure (inputChange k s.block.mBlockRead w) rfl

/-! ## Outputs -/

variable (H : Hashes)

def OutputWire.output (w : OutputWire) (p : Nat) : BlockOutput :=
  { BlockOutput.new with
    value := w.value
    challengeScriptLength := w.challengeScriptLength.value
    challengeScript :=
      scriptAt w.challengeScriptLength.value (p + 8 + w.challengeScriptLength.bytes.length) }

def rewardChange (value : UInt64) : Change ParseState :=
  { apply := ParseState.addReward value
    position := fun _ => rfl
    memory := fun _ => rfl
    moved := fun _ _ _ => rfl }

def outputChange (k p : Nat) (w : OutputWire) : Change ParseState :=
  (rewardChange w.value).andThen
    { apply := ParseState.storeOutput H k (w.output p)
      position := fun _ => rfl
      memory := fun _ => rfl
      moved := fun _ _ _ => rfl }

theorem readOutput_reads {s : ParseState} (k : Nat) (w : OutputWire) :
    Reads s (readOutput H k) w.bytes true (outputChange H k s.block.mBlockRead w) := by
  unfold readOutput outputChange
  refine (readU64_reads w.value).next fun _ => ?_
  refine Reads.modify_bind (rewardChange w.value) rfl ?_
  refine (readVariableLengthInteger_reads w.challengeScriptLength).next fun _ => ?_
  refine reads_exitIf_bind ?_ ?_
  · -- a length below 8192 is below the limit
    rintro ⟨hshort, hlong⟩
    have hlimit : (8192 : UInt32) ≤ MAX_REASONABLE_SCRIPT_LENGTH := by decide
    exact hshort (UInt32.le_trans hlimit (UInt32.le_of_lt hlong))
  refine (readScript_reads w.script_length rfl).last fun _ => ?_
  refine Reads.modify_pure _ ?_
  simp [OutputWire.output, ParseState.addReward, rewardChange]

/-! ## The loops over inputs and outputs -/

section Each

variable {ω : Type} {bytes : ω → List UInt8} {change : Nat → Nat → ω → Change ParseState}
  {read : Nat → Parser Bool} {failed : Shutdown}

/-- The loop reads its entries when one turn reads one entry. -/
theorem readEach_reads
    (hread : ∀ s k w, Reads s (read k) (bytes w) true (change k (position s) w))
    (ws : List ω) (k : Nat) (s : ParseState) :
    Reads s (readEach read failed ws.length k true) (ws.flatMap bytes) true
      (changeEach bytes change k (position s) ws) := by
  induction ws generalizing k s with
  | nil => exact Reads.pure true
  | cons w ws ih =>
    refine (hread s k w).bind fun vs => ?_
    refine reads_exitIf_bind (by decide) ?_
    have h := ih (k + 1) ((change k (position s) w).apply (moved s (bytes w).length vs))
    rwa [Change.position, Cursor.position_moved] at h

/-- The loop ends with the entry that ends the process. -/
theorem readEach_ends
    (hread : ∀ s k w, Reads s (read k) (bytes w) true (change k (position s) w))
    {stop : List UInt8} (hstop : ∀ s k, Ends s (read k) stop IsError)
    (ws : List ω) (left k : Nat) (ret : Bool) (s : ParseState) (h : ws.length < left) :
    Ends s (readEach read failed left k ret) (ws.flatMap bytes ++ stop) IsError := by
  induction ws generalizing left k ret s with
  | nil =>
    cases left with
    | zero => exact absurd h (Nat.lt_irrefl 0)
    | succ left => exact (hstop s k).bind
  | cons w ws ih =>
    cases left with
    | zero => exact absurd h (Nat.not_lt_zero _)
    | succ left =>
      rw [List.flatMap_cons, List.append_assoc]
      refine (hread s k w).ends fun vs => ?_
      refine ends_exitIf_bind (by decide) ?_
      exact ih left (k + 1) true _ (by simpa using h)

end Each

def inputsChange : Nat → Nat → List InputWire → Change ParseState :=
  changeEach InputWire.bytes inputChange

def outputsChange : Nat → Nat → List OutputWire → Change ParseState :=
  changeEach OutputWire.bytes (outputChange H)

theorem readInput_ends (s : ParseState) (k : Nat) (w : InputStop) :
    Ends s (readInput k) w.bytes IsError := by
  unfold readInput
  refine (readHash_reads (by simp) rfl).ends fun _ => ?_
  refine (readU32_reads w.transactionIndex).ends fun _ => ?_
  refine (readVariableLengthInteger_reads w.responseScriptLength).ends_last fun _ => ?_
  exact (ends_exitIf (by simpa using w.outrageous)).bind

theorem readInputs_reads {s : ParseState} {n p k : Nat} {ws : List InputWire} (h : ws ≠ [])
    (hn : ws.length = n) (hp : s.block.mBlockRead = p) :
    Reads s (readInputs n k false) (ws.flatMap InputWire.bytes) true (inputsChange k p ws) := by
  subst hn hp
  cases ws with
  | nil => exact absurd rfl h
  | cons w ws => exact readEach_reads (fun _ k w => readInput_reads k w) (w :: ws) k s

theorem readInputs_ends {s : ParseState} (left k : Nat) (ws : List InputWire) (stop : InputStop)
    (h : ws.length < left) :
    Ends s (readInputs left k false) (ws.flatMap InputWire.bytes ++ stop.bytes) IsError :=
  readEach_ends (fun _ k w => readInput_reads k w) (fun s k => readInput_ends s k stop) ws left k
    false s h

theorem readOutputs_reads {s : ParseState} {n p k : Nat} {ws : List OutputWire}
    (hn : ws.length = n) (hp : s.block.mBlockRead = p) :
    Reads s (readOutputs H n k true) (ws.flatMap OutputWire.bytes) true
      (outputsChange H k p ws) := by
  subst hn hp
  exact readEach_reads (fun _ k w => readOutput_reads H k w) ws k s

/-! ## Transactions -/

def versionChange (k : Nat) (transactionVersionNumber : UInt32) : Change ParseState :=
  { apply := ParseState.setVersion k transactionVersionNumber
    position := fun _ => rfl
    memory := fun _ => rfl
    moved := fun _ _ _ => rfl }

def inputCountChange (k : Nat) (inputCount : UInt32) : Change ParseState :=
  { apply := ParseState.setInputs k inputCount
    position := fun _ => rfl
    memory := fun _ => rfl
    moved := fun _ _ _ => rfl }

def outputCountChange (k : Nat) (outputCount : UInt32) : Change ParseState :=
  { apply := ParseState.setOutputs k outputCount
    position := fun _ => rfl
    memory := fun _ => rfl
    moved := fun _ _ _ => rfl }

def finishChange (k transactionBegin transactionEnd : Nat) (lockTime : UInt32) :
    Change ParseState :=
  { apply := ParseState.finishTransaction H k transactionBegin transactionEnd lockTime
    position := fun _ => rfl
    memory := fun _ => rfl
    moved := fun _ _ _ => rfl }

/-- The first half of transaction `k`: its inputs start at `p`, and are stored
from the entry `tin` on. -/
def headChange (k p : Nat) (tin : UInt32) (version : UInt32) (count : Count)
    (inputs : List InputWire) : Change ParseState :=
  (versionChange k version).andThen
    ((inputCountChange k count.value).andThen (inputsChange tin.toNat p inputs))

/-- The second half, of a transaction from `transactionBegin` to `transactionEnd`. -/
def tailChange (k p transactionBegin transactionEnd : Nat) (tout : UInt32) (count : Count)
    (outputs : List OutputWire) (lockTime : UInt32) : Change ParseState :=
  (outputCountChange k count.value).andThen
    ((outputsChange H tout.toNat p outputs).andThen
      (finishChange H k transactionBegin transactionEnd lockTime))

theorem readTransactionInputs_reads {s : ParseState} (k : Nat) {p : Nat} (version : UInt32)
    (count : Count) (inputs : List InputWire) (hlen : inputs.length = count.value.toNat)
    (hne : inputs ≠ []) (hreasonable : count.value < MAX_REASONABLE_INPUTS)
    (hfits : s.block.totalInputCount + count.value < MAX_BLOCK_INPUTS)
    (hp : s.block.mBlockRead + 4 + count.bytes.length = p) :
    Reads s (readTransactionInputs k)
      (leBytes 4 version.toNat ++ (count.bytes ++ inputs.flatMap InputWire.bytes)) true
      (headChange k p s.block.totalInputCount version count inputs) := by
  unfold readTransactionInputs headChange
  refine (readU32_reads version).next fun _ => ?_
  refine Reads.modify_bind (versionChange k version) rfl ?_
  refine (readVariableLengthInteger_reads count).next fun _ => ?_
  refine reads_exitIf_bind (UInt32.not_le.mpr hreasonable) ?_
  refine Reads.get_bind ?_
  refine Reads.modify_bind (inputCountChange k count.value) rfl ?_
  refine Reads.get_bind ?_
  refine reads_exitIf_bind (UInt32.not_le.mpr hfits) ?_
  refine readInputs_reads hne hlen ?_
  rw [← hp, ← leBytes_length 4 version.toNat]
  rfl

theorem readTransactionOutputs_reads {s : ParseState} (k transactionBegin : Nat)
    {p transactionEnd : Nat} {tout : UInt32} (count : Count) (outputs : List OutputWire)
    (lockTime : UInt32) (hlen : outputs.length = count.value.toNat)
    (hreasonable : count.value ≤ MAX_REASONABLE_OUTPUTS)
    (htout : s.block.totalOutputCount = tout) (hfits : tout + count.value < MAX_BLOCK_OUTPUTS)
    (hp : s.block.mBlockRead + count.bytes.length = p)
    (hend : p + (outputs.flatMap OutputWire.bytes).length + 4 = transactionEnd) :
    Reads s (readTransactionOutputs H k transactionBegin)
      (count.bytes ++ (outputs.flatMap OutputWire.bytes ++ leBytes 4 lockTime.toNat)) true
      (tailChange H k p transactionBegin transactionEnd tout count outputs lockTime) := by
  subst htout
  unfold readTransactionOutputs tailChange
  refine (readVariableLengthInteger_reads count).next fun _ => ?_
  refine reads_exitIf_bind (UInt32.not_lt.mpr hreasonable) ?_
  refine Reads.get_bind ?_
  refine Reads.modify_bind (outputCountChange k count.value) rfl ?_
  refine Reads.get_bind ?_
  refine reads_exitIf_bind (UInt32.not_le.mpr hfits) ?_
  refine (readOutputs_reads H hlen hp).bind fun _ => ?_
  refine (readU32_reads lockTime).last fun _ => ?_
  refine Reads.get_bind ?_
  refine Reads.modify_pure _ ?_
  rw [← hend, ← hp]
  simp [finishChange, ← position_eq]

/-- The version and the count of a transaction without an input. -/
def emptyTransactionChange (k : Nat) (w : EmptyTransaction) : Change ParseState :=
  headChange k 0 0 w.transactionVersionNumber w.inputCount []

theorem readTransactionInputs_reads_empty {s : ParseState} (k : Nat) (w : EmptyTransaction)
    (hfits : s.block.totalInputCount < MAX_BLOCK_INPUTS) :
    Reads s (readTransactionInputs k) w.bytes false (emptyTransactionChange k w) := by
  unfold readTransactionInputs EmptyTransaction.bytes emptyTransactionChange
  have hreasonable : ¬ MAX_REASONABLE_INPUTS ≤ w.inputCount.value := by
    rw [w.noInput]
    decide
  refine (readU32_reads w.transactionVersionNumber).next fun _ => ?_
  refine Reads.modify_bind (versionChange k w.transactionVersionNumber) rfl ?_
  refine (readVariableLengthInteger_reads w.inputCount).last fun _ => ?_
  refine reads_exitIf_bind hreasonable ?_
  refine Reads.get_bind ?_
  refine Reads.modify_bind (inputCountChange k w.inputCount.value) rfl ?_
  refine Reads.get_bind ?_
  refine reads_exitIf_bind ?_ ?_
  · have htotal : s.block.totalInputCount + w.inputCount.value = s.block.totalInputCount := by
      rw [w.noInput, UInt32.add_zero]
    rw [UInt32.not_le]
    exact lt_of_eq_of_lt htotal hfits
  · rw [w.noInput]
    exact Reads.pure false

theorem readTransactionInputs_ends_at_count {s : ParseState} (k : Nat) (version : UInt32)
    (count : Count) (bad : ¬ (count.value < MAX_REASONABLE_INPUTS ∧
      s.block.totalInputCount + count.value < MAX_BLOCK_INPUTS)) :
    Ends s (readTransactionInputs k) (leBytes 4 version.toNat ++ count.bytes) IsError := by
  unfold readTransactionInputs
  refine (readU32_reads version).ends fun _ => ?_
  refine Ends.modify_bind (versionChange k version) rfl ?_
  refine (readVariableLengthInteger_reads count).ends_last fun _ => ?_
  by_cases hreasonable : MAX_REASONABLE_INPUTS ≤ count.value
  · exact (ends_exitIf hreasonable).bind
  refine ends_exitIf_bind hreasonable ?_
  refine Ends.get_bind ?_
  refine Ends.modify_bind (inputCountChange k count.value) rfl ?_
  refine Ends.get_bind ?_
  refine (ends_exitIf ?_).bind
  rw [← UInt32.not_lt]
  exact fun hfits => bad ⟨UInt32.not_le.mp hreasonable, hfits⟩

theorem readTransactionInputs_ends_at_input {s : ParseState} (k : Nat) (version : UInt32)
    (count : Count) (hreasonable : count.value < MAX_REASONABLE_INPUTS)
    (hfits : s.block.totalInputCount + count.value < MAX_BLOCK_INPUTS) (inputs : List InputWire)
    (stop : InputStop) (fewer : inputs.length < count.value.toNat) :
    Ends s (readTransactionInputs k) (leBytes 4 version.toNat ++
      (count.bytes ++ (inputs.flatMap InputWire.bytes ++ stop.bytes))) IsError := by
  unfold readTransactionInputs
  refine (readU32_reads version).ends fun _ => ?_
  refine Ends.modify_bind (versionChange k version) rfl ?_
  refine (readVariableLengthInteger_reads count).ends fun _ => ?_
  refine ends_exitIf_bind (UInt32.not_le.mpr hreasonable) ?_
  refine Ends.get_bind ?_
  refine Ends.modify_bind (inputCountChange k count.value) rfl ?_
  refine Ends.get_bind ?_
  refine ends_exitIf_bind (UInt32.not_le.mpr hfits) ?_
  exact readInputs_ends _ _ inputs stop fewer

theorem readTransactionOutputs_ends {s : ParseState} (k transactionBegin : Nat) (count : Count)
    (bad : MAX_REASONABLE_OUTPUTS < count.value ∨
      MAX_BLOCK_OUTPUTS ≤ s.block.totalOutputCount + count.value) :
    Ends s (readTransactionOutputs H k transactionBegin) count.bytes IsError := by
  unfold readTransactionOutputs
  refine (readVariableLengthInteger_reads count).ends_last fun _ => ?_
  by_cases hreasonable : MAX_REASONABLE_OUTPUTS < count.value
  · exact (ends_exitIf hreasonable).bind
  refine ends_exitIf_bind hreasonable ?_
  refine Ends.get_bind ?_
  refine Ends.modify_bind (outputCountChange k count.value) rfl ?_
  refine Ends.get_bind ?_
  exact (ends_exitIf (bad.resolve_left hreasonable)).bind

/-! ## Whole transactions -/

/-- Where the first input is, in a transaction that starts at `p`. -/
def TransactionWire.inputsStart (w : TransactionWire) (p : Nat) : Nat :=
  p + 4 + w.inputCount.bytes.length

def TransactionWire.outputsStart (w : TransactionWire) (p : Nat) : Nat :=
  w.inputsStart p + (w.inputs.flatMap InputWire.bytes).length + w.outputCount.bytes.length

/-- Transaction `k`, whose bytes start at `p`, with its inputs and outputs from
the entries `tin` and `tout` on. -/
def transactionChange (k p : Nat) (tin tout : UInt32) (w : TransactionWire) : Change ParseState :=
  (headChange k (w.inputsStart p) tin w.transactionVersionNumber w.inputCount w.inputs).andThen
    (tailChange H k (w.outputsStart p) p (p + w.bytes.length) tout w.outputCount w.outputs
      w.lockTime)

@[simp] theorem inputsChange_totalInputCount (k p : Nat) (ws : List InputWire) (s : ParseState) :
    ((inputsChange k p ws).apply s).block.totalInputCount = s.block.totalInputCount :=
  changeEach_keeps _ _ (fun s => s.block.totalInputCount) (fun _ _ _ _ => rfl) k p ws s

@[simp] theorem inputsChange_totalOutputCount (k p : Nat) (ws : List InputWire) (s : ParseState) :
    ((inputsChange k p ws).apply s).block.totalOutputCount = s.block.totalOutputCount :=
  changeEach_keeps _ _ (fun s => s.block.totalOutputCount) (fun _ _ _ _ => rfl) k p ws s

@[simp] theorem outputsChange_totalInputCount (k p : Nat) (ws : List OutputWire) (s : ParseState) :
    ((outputsChange H k p ws).apply s).block.totalInputCount = s.block.totalInputCount :=
  changeEach_keeps _ _ (fun s => s.block.totalInputCount) (fun _ _ _ _ => rfl) k p ws s

@[simp] theorem outputsChange_totalOutputCount (k p : Nat) (ws : List OutputWire)
    (s : ParseState) :
    ((outputsChange H k p ws).apply s).block.totalOutputCount = s.block.totalOutputCount :=
  changeEach_keeps _ _ (fun s => s.block.totalOutputCount) (fun _ _ _ _ => rfl) k p ws s

@[simp] theorem headChange_totalInputCount (k p : Nat) (tin version : UInt32) (count : Count)
    (inputs : List InputWire) (s : ParseState) :
    ((headChange k p tin version count inputs).apply s).block.totalInputCount =
      s.block.totalInputCount + count.value :=
  inputsChange_totalInputCount _ _ inputs _

@[simp] theorem headChange_totalOutputCount (k p : Nat) (tin version : UInt32) (count : Count)
    (inputs : List InputWire) (s : ParseState) :
    ((headChange k p tin version count inputs).apply s).block.totalOutputCount =
      s.block.totalOutputCount :=
  inputsChange_totalOutputCount _ _ inputs _

@[simp] theorem transactionChange_totalInputCount (k p : Nat) (tin tout : UInt32)
    (w : TransactionWire) (s : ParseState) :
    ((transactionChange H k p tin tout w).apply s).block.totalInputCount =
      s.block.totalInputCount + w.inputCount.value := by
  have h := outputsChange_totalInputCount H tout.toNat (w.outputsStart p) w.outputs
    ((outputCountChange k w.outputCount.value).apply
      ((headChange k (w.inputsStart p) tin w.transactionVersionNumber w.inputCount w.inputs).apply
        s))
  exact h.trans (headChange_totalInputCount _ _ _ _ _ _ _)

@[simp] theorem transactionChange_totalOutputCount (k p : Nat) (tin tout : UInt32)
    (w : TransactionWire) (s : ParseState) :
    ((transactionChange H k p tin tout w).apply s).block.totalOutputCount =
      s.block.totalOutputCount + w.outputCount.value := by
  have h := outputsChange_totalOutputCount H tout.toNat (w.outputsStart p) w.outputs
    ((outputCountChange k w.outputCount.value).apply
      ((headChange k (w.inputsStart p) tin w.transactionVersionNumber w.inputCount w.inputs).apply
        s))
  exact h.trans (congrArg (· + w.outputCount.value) (headChange_totalOutputCount _ _ _ _ _ _ _))

theorem readTransaction_reads {s : ParseState} (k : Nat) (w : TransactionWire)
    (fits : w.Fits s.block.totalInputCount s.block.totalOutputCount) :
    Reads s (readTransaction H k) w.bytes true
      (transactionChange H k s.block.mBlockRead s.block.totalInputCount s.block.totalOutputCount
        w) := by
  unfold readTransaction
  refine Reads.get_bind ?_
  have hbytes : w.bytes = (leBytes 4 w.transactionVersionNumber.toNat ++
      (w.inputCount.bytes ++ w.inputs.flatMap InputWire.bytes)) ++ (w.outputCount.bytes ++
        (w.outputs.flatMap OutputWire.bytes ++ leBytes 4 w.lockTime.toNat)) := by
    simp [TransactionWire.bytes]
  rw [hbytes]
  refine (readTransactionInputs_reads k w.transactionVersionNumber w.inputCount w.inputs
    w.inputs_length w.inputs_ne w.inputs_reasonable fits.inputs rfl).bind fun vs => ?_
  rw [if_pos rfl]
  refine readTransactionOutputs_reads H k _ w.outputCount w.outputs w.lockTime w.outputs_length
    w.outputs_reasonable (headChange_totalOutputCount _ _ _ _ _ _ _) fits.outputs ?_ ?_
  · simp [← position_eq, TransactionWire.outputsStart, TransactionWire.inputsStart, Nat.add_assoc]
  · simp [TransactionWire.outputsStart, TransactionWire.inputsStart, hbytes, Nat.add_assoc]

theorem readTransaction_reads_empty {s : ParseState} (k : Nat) (w : EmptyTransaction)
    (hfits : s.block.totalInputCount < MAX_BLOCK_INPUTS) :
    Reads s (readTransaction H k) w.bytes false (emptyTransactionChange k w) := by
  unfold readTransaction
  refine Reads.get_bind ?_
  exact (readTransactionInputs_reads_empty k w hfits).bind_pure rfl

/-- A transaction at which the parser stops ends the process, unless it has no input. -/
theorem readTransaction_ends_in_error {s : ParseState} (k : Nat)
    (w : TransactionStop s.block.totalInputCount s.block.totalOutputCount) (h : ¬ w.IsEmpty) :
    Ends s (readTransaction H k) w.bytes IsError := by
  unfold readTransaction
  refine Ends.get_bind ?_
  cases w with
  | inputCount version count bad =>
    exact (readTransactionInputs_ends_at_count k version count h).bind
  | input version count hreasonable hfits inputs stop fewer =>
    exact (readTransactionInputs_ends_at_input k version count hreasonable hfits inputs stop
      fewer).bind
  | outputCount version count inputs hlen hne hreasonable hfits outputs bad =>
    have hbytes : (TransactionStop.outputCount version count inputs hlen hne hreasonable hfits
        outputs bad).bytes = (leBytes 4 version.toNat ++ (count.bytes ++
          inputs.flatMap InputWire.bytes)) ++ outputs.bytes := by
      simp [TransactionStop.bytes]
    rw [hbytes]
    refine (readTransactionInputs_reads k version count inputs hlen hne hreasonable hfits
      rfl).ends fun vs => ?_
    rw [if_pos rfl]
    refine readTransactionOutputs_ends H k _ outputs ?_
    simpa using bad

theorem readTransaction_ends {s : ParseState} (k : Nat)
    (w : TransactionStop s.block.totalInputCount s.block.totalOutputCount) :
    Ends s (readTransaction H k) w.bytes Rejects := by
  by_cases hempty : w.IsEmpty
  · obtain ⟨e, hbytes, hfits⟩ := hempty.bytes_eq
    rw [hbytes]
    exact (readTransaction_reads_empty H k e hfits).ends_with fun _ => rfl
  · exact (readTransaction_ends_in_error H k w hempty).mono fun _ => IsError.rejects

/-- A transaction that is read through is one that fits. -/
theorem readTransaction_ok {s s' : ParseState} {k : Nat}
    (h : (readTransaction H k).run s = .ok true s') :
    ∃ (w : TransactionWire) (rs : List (Nat × Nat)),
      w.Fits s.block.totalInputCount s.block.totalOutputCount ∧ Sees s w.bytes ∧
      s' = (transactionChange H k s.block.mBlockRead s.block.totalInputCount
        s.block.totalOutputCount w).apply (moved s w.bytes.length rs) := by
  rcases exists_transaction (memory s) (position s) s.block.totalInputCount
    s.block.totalOutputCount with ⟨w, hfits, hw⟩ | ⟨w, hw⟩
  · obtain ⟨rs, hrun⟩ := readTransaction_reads H k w hfits hw
    rw [h] at hrun
    exact ⟨w, rs, hfits, hw, (EStateM.Result.ok.inj hrun).2⟩
  · have hrejects := (readTransaction_ends H k w hw).1
    rw [h] at hrejects
    cases hrejects

/-! ## The loop over the transactions -/

def transactionsChange : Nat → Nat → UInt32 → UInt32 → List TransactionWire → Change ParseState
  | _, _, _, _, [] => Change.none
  | k, p, tin, tout, w :: ws =>
    (transactionChange H k p tin tout w).andThen
      (transactionsChange (k + 1) (p + w.bytes.length) (tin + w.inputCount.value)
        (tout + w.outputCount.value) ws)

theorem readTransactions_reads {s : ParseState} (k : Nat) {p : Nat} {ws : List TransactionWire}
    {tin tout : UInt32} (fit : TransactionsFit tin tout ws) (hp : s.block.mBlockRead = p)
    (hin : s.block.totalInputCount = tin) (hout : s.block.totalOutputCount = tout) :
    Reads s (readTransactions H ws.length k) (ws.flatMap TransactionWire.bytes) true
      (transactionsChange H k p tin tout ws) := by
  induction fit generalizing k s p with
  | nil tin tout => exact Reads.pure true
  | cons fits rest ih =>
    subst hp hin hout
    refine (readTransaction_reads H k _ fits).bind fun vs => ?_
    rw [if_pos rfl]
    exact ih (k + 1) (by simp) (by simp) (by simp)

/-- What the loop consumes, whether it stops early or not. -/
theorem readTransactions_ends {s : ParseState} (k : Nat) {n : Nat} {tin tout : UInt32}
    {bytes : List UInt8} (body : Body n tin tout bytes) (hin : s.block.totalInputCount = tin)
    (hout : s.block.totalOutputCount = tout) :
    Ends s (readTransactions H n k) bytes fun _ => True := by
  induction body generalizing k s with
  | done tin tout =>
    intro _
    exact ⟨trivial, rfl⟩
  | transaction w fits body ih =>
    subst hin hout
    refine (readTransaction_reads H k w fits).ends fun vs => ?_
    rw [if_pos rfl]
    exact ih (k + 1) (by simp) (by simp)
  | stop w =>
    subst hin hout
    exact (readTransaction_ends H k w).bind_ite.mono fun _ _ => trivial

/-! ## Blocks -/

/-- The header of a block whose first byte is at `p`. -/
def headerChange (p : Nat) (w : HeaderWire) (transactionCount : UInt32) : Change ParseState :=
  { apply := ParseState.setHeader w.blockFormatVersion (p + 4) (p + 36) w.timeStamp w.bits w.nonce
      transactionCount
    position := fun _ => rfl
    memory := fun _ => rfl
    moved := fun _ _ _ => rfl }

theorem HeaderWire.bytes_length (w : HeaderWire) : w.bytes.length = 80 := by
  simp [HeaderWire.bytes]

theorem readHeaderFields_reads {s : ParseState} (header : HeaderWire) (count : Count) :
    Reads s readHeaderFields (header.bytes ++ count.bytes) count.value
      (headerChange s.block.mBlockRead header count.value) := by
  unfold readHeaderFields HeaderWire.bytes
  simp only [List.append_assoc]
  refine (readU32_reads header.blockFormatVersion).next fun _ => ?_
  refine (readHash_reads (p := s.block.mBlockRead + 4) (by simp) (by simp)).next fun _ => ?_
  refine (readHash_reads (p := s.block.mBlockRead + 36) (by simp) (by simp)).next fun _ => ?_
  refine (readU32_reads header.timeStamp).next fun _ => ?_
  refine (readU32_reads header.bits).next fun _ => ?_
  refine (readU32_reads header.nonce).next fun _ => ?_
  refine (readVariableLengthInteger_reads count).last fun _ => ?_
  exact Reads.modify_pure _ rfl

theorem readBlockData_reads {s : ParseState} (header : HeaderWire) (count : Count)
    (hcount : count.value < MAX_BLOCK_TRANSACTION) {ws : List TransactionWire}
    (hlen : ws.length = count.value.toNat)
    (fit : TransactionsFit s.block.totalInputCount s.block.totalOutputCount ws) :
    Reads s (readBlockData H)
      (header.bytes ++ count.bytes ++ ws.flatMap TransactionWire.bytes) true
      ((headerChange s.block.mBlockRead header count.value).andThen
        (transactionsChange H 0 (s.block.mBlockRead + 80 + count.bytes.length)
          s.block.totalInputCount s.block.totalOutputCount ws)) := by
  unfold readBlockData
  refine (readHeaderFields_reads header count).bind fun vs => ?_
  refine reads_exitIf_bind (UInt32.not_le.mpr hcount) ?_
  rw [← hlen]
  refine readTransactions_reads H 0 fit ?_ rfl rfl
  simp [HeaderWire.bytes_length, Nat.add_assoc]

/-- What the parser consumes of a block, whether it stops early or not. -/
theorem readBlockData_ends {s : ParseState} {bytes : List UInt8}
    (block : BlockWire s.block.totalInputCount s.block.totalOutputCount bytes) :
    Ends s (readBlockData H) bytes fun _ => True := by
  unfold readBlockData
  cases block with
  | tooManyTransactions header count bad =>
    refine (readHeaderFields_reads header count).ends_last fun vs => ?_
    exact (ends_exitIf bad).bind.mono fun _ _ => trivial
  | transactions header count fits body =>
    rw [← List.append_assoc]
    refine (readHeaderFields_reads header count).ends fun vs => ?_
    refine ends_exitIf_bind (UInt32.not_le.mpr fits) ?_
    exact readTransactions_ends H 0 body rfl rfl

end bitcoinstats.block_chain
