-- The limit on the length of a script: an input with a longer one ends the process,
-- an output with a longer one is read all the same.
import BitcoinStats.AddressRoundTrip
import BitcoinStats.BlockContents

open byte_memory exec cursor bitcoinstats.bitcoin_address

namespace bitcoinstats.block_chain

variable (H : Hashes)

/-! ## The limit -/

/-- No script of the transaction is longer than the limit. -/
structure ScriptsWithin (b : BlockImpl) (t : BlockTransaction) : Prop where
  inputs : ∀ i < t.inputCount.toNat,
    (b.mInputs (t.inputs + i)).responseScriptLength ≤ MAX_REASONABLE_SCRIPT_LENGTH
  outputs : ∀ i < t.outputCount.toNat,
    (b.mOutputs (t.outputs + i)).challengeScriptLength ≤ MAX_REASONABLE_SCRIPT_LENGTH

/-- An output up to the length of its script, which is longer than the limit. -/
structure LongOutput where
  value : UInt64
  challengeScriptLength : Count
  long : MAX_REASONABLE_SCRIPT_LENGTH < challengeScriptLength.value

def LongOutput.bytes (w : LongOutput) : List UInt8 :=
  leBytes 8 w.value.toNat ++ w.challengeScriptLength.bytes

/-- A transaction up to the length of a script that is longer than the limit. -/
inductive LongScript (tin tout : UInt32) where
  | input (version : UInt32) (count : Count) (reasonable : count.value < MAX_REASONABLE_INPUTS)
      (fits : tin + count.value < MAX_BLOCK_INPUTS) (inputs : List InputWire) (stop : InputStop)
      (long : MAX_REASONABLE_SCRIPT_LENGTH < stop.responseScriptLength.value)
      (fewer : inputs.length < count.value.toNat)
  | output (version : UInt32) (count : Count) (reasonable : count.value < MAX_REASONABLE_INPUTS)
      (fits : tin + count.value < MAX_BLOCK_INPUTS) (inputs : List InputWire)
      (inputs_length : inputs.length = count.value.toNat) (inputs_ne : inputs ≠ [])
      (outputCount : Count) (outputs_reasonable : outputCount.value ≤ MAX_REASONABLE_OUTPUTS)
      (outputs_fit : tout + outputCount.value < MAX_BLOCK_OUTPUTS) (outputs : List OutputWire)
      (stop : LongOutput) (fewer : outputs.length < outputCount.value.toNat)

def LongScript.bytes {tin tout : UInt32} : LongScript tin tout → List UInt8
  | .input version count _ _ inputs stop _ _ =>
    leBytes 4 version.toNat ++ (count.bytes ++ (inputs.flatMap InputWire.bytes ++ stop.bytes))
  | .output version count _ _ inputs _ _ outputCount _ _ outputs stop _ =>
    leBytes 4 version.toNat ++ (count.bytes ++ (inputs.flatMap InputWire.bytes ++
      (outputCount.bytes ++ (outputs.flatMap OutputWire.bytes ++ stop.bytes))))

/-- The limit is kept by every transaction that is read as number `k`, and a longer
script ends the process with the read pointer right behind its length. -/
structure LimitHolds (s : ParseState) (k : Nat) : Prop where
  accepted : ∀ s', (readTransaction H k).run s = .ok true s' →
    ScriptsWithin s'.block (s'.block.mTransactions k)
  exits : ∀ w : LongScript s.block.totalInputCount s.block.totalOutputCount,
    Ends s (readTransaction H k) w.bytes IsError

/-- The cursor is at a whole transaction with an output whose script is longer than
the limit. -/
def AtLongOutput (s : ParseState) : Prop :=
  ∃ w : TransactionWire, w.Fits s.block.totalInputCount s.block.totalOutputCount ∧
    Sees s w.bytes ∧ ∃ o ∈ w.outputs, MAX_REASONABLE_SCRIPT_LENGTH < o.challengeScriptLength.value

/-! ## The transactions that are accepted -/

/-- The lengths of a transaction that is read are those of its bytes. -/
theorem scriptsWithin_iff {s s' : ParseState} {k : Nat} {w : TransactionWire}
    (fits : w.Fits s.block.totalInputCount s.block.totalOutputCount) (hs : Sees s w.bytes)
    (hrun : (readTransaction H k).run s = .ok true s') :
    ScriptsWithin s'.block (s'.block.mTransactions k) ↔
      ∀ o ∈ w.outputs, o.challengeScriptLength.value ≤ MAX_REASONABLE_SCRIPT_LENGTH := by
  rcases readTransaction_reads H k w fits hs with ⟨rs, hread⟩
  rw [hrun] at hread
  have hs' := (EStateM.Result.ok.inj hread).2
  have hstep := transactionChange_step H k s.block.mBlockRead s.block.totalInputCount
    s.block.totalOutputCount w (moved s w.bytes.length rs) rfl rfl hs
  rw [← hs'] at hstep
  have hrecord : s'.block.mTransactions k = w.record H s.block.mBlockRead s.block.totalInputCount
      s.block.totalOutputCount s.block.fileIndex s.block.fileOffset s.transactionIndex := by
    rw [hstep.transactions]
    exact Function.update_self _ _ _
  have hinput : ∀ i < w.inputs.length,
      (s'.block.mInputs (s.block.totalInputCount.toNat + i)).responseScriptLength ≤
        MAX_REASONABLE_SCRIPT_LENGTH := by
    intro i hi
    rcases hstep.inputs.get (List.getElem?_eq_getElem hi) with ⟨q, hq⟩
    rw [hq]
    exact UInt32.le_of_lt w.inputs[i].reasonable
  have houtput : ∀ i (hi : i < w.outputs.length),
      (s'.block.mOutputs (s.block.totalOutputCount.toNat + i)).challengeScriptLength =
        w.outputs[i].challengeScriptLength.value := by
    intro i hi
    rcases hstep.outputs.get (List.getElem?_eq_getElem hi) with ⟨q, hq⟩
    exact hq.challengeScriptLength
  rw [hrecord]
  constructor
  · intro hwithin o ho
    rcases List.getElem_of_mem ho with ⟨i, hi, rfl⟩
    have hlength := hwithin.outputs i (by rwa [w.outputs_length] at hi)
    rwa [← houtput i hi]
  · intro hall
    refine ⟨fun i hi => hinput i (by rwa [w.inputs_length]), ?_⟩
    intro i hi
    have hi' : i < w.outputs.length := by rwa [w.outputs_length]
    have hle := hall _ (List.getElem_mem hi')
    rwa [← houtput i hi'] at hle

/-! ## The transactions that end the process -/

/-- Whatever follows the length of a long output, it is read as an output. -/
theorem LongOutput.whole (w : LongOutput) {mem : Memory} {p : Nat} (h : Holds mem p w.bytes) :
    ∃ o : OutputWire, Holds mem p o.bytes ∧
      MAX_REASONABLE_SCRIPT_LENGTH < o.challengeScriptLength.value := by
  rcases exists_bytes mem (p + w.bytes.length) w.challengeScriptLength.value.toNat with
    ⟨script, hlength, hscript⟩
  refine ⟨⟨w.value, w.challengeScriptLength, script, hlength⟩, ?_, w.long⟩
  have hbytes := (holds_append mem p w.bytes script).mpr ⟨h, hscript⟩
  rwa [LongOutput.bytes, List.append_assoc] at hbytes

/-- Outputs with a long one among them, and so many more that there are `n`. -/
theorem exists_outputs_long {mem : Memory} {p n : Nat} {outputs : List OutputWire}
    {stop : LongOutput} (hfewer : outputs.length < n)
    (h : Holds mem p (outputs.flatMap OutputWire.bytes ++ stop.bytes)) :
    ∃ ws : List OutputWire, ws.length = n ∧ Holds mem p (ws.flatMap OutputWire.bytes) ∧
      ∃ o ∈ ws, MAX_REASONABLE_SCRIPT_LENGTH < o.challengeScriptLength.value := by
  rw [holds_append] at h
  rcases stop.whole h.2 with ⟨o, ho, hlong⟩
  rcases exists_outputs mem (p + (outputs.flatMap OutputWire.bytes).length + o.bytes.length)
    (n - outputs.length - 1) with ⟨rest, hlength, hrest⟩
  refine ⟨outputs ++ o :: rest, ?_, ?_, o, by simp, hlong⟩
  · simp [hlength]
    omega
  · rw [List.flatMap_append, List.flatMap_cons, holds_append, holds_append]
    exact ⟨h.1, ho, hrest⟩

/-- A long output always belongs to a whole transaction: nothing stops the reading. -/
theorem LongScript.ends {s : ParseState} (k : Nat) (hno : ¬ AtLongOutput s)
    (w : LongScript s.block.totalInputCount s.block.totalOutputCount) :
    Ends s (readTransaction H k) w.bytes IsError := by
  cases w with
  | input version count reasonable fits inputs stop long fewer =>
    exact readTransaction_ends_in_error H k
      (.input version count reasonable fits inputs stop fewer) (fun hempty => hempty)
  | output version count reasonable fits inputs inputs_length inputs_ne outputCount
      outputs_reasonable outputs_fit outputs stop fewer =>
    intro h
    rw [LongScript.bytes, Sees, holds_append, holds_append, holds_append, holds_append] at h
    rcases h with ⟨hversion, hcount, hinputs, houtputCount, houtputs⟩
    rcases exists_outputs_long fewer houtputs with ⟨ws, hlength, hws, o, ho, hlong⟩
    rcases exists_u32 (memory s) (position s + (leBytes 4 version.toNat).length +
        count.bytes.length + (inputs.flatMap InputWire.bytes).length + outputCount.bytes.length +
        (ws.flatMap OutputWire.bytes).length) with ⟨lockTime, hlockTime⟩
    refine absurd ⟨⟨version, count, inputs, outputCount, ws, lockTime, inputs_length, inputs_ne,
      reasonable, hlength, outputs_reasonable⟩, ⟨fits, outputs_fit⟩, ?_, o, ho, hlong⟩ hno
    rw [TransactionWire.bytes, Sees, holds_append, holds_append, holds_append, holds_append,
      holds_append]
    exact ⟨hversion, hcount, hinputs, houtputCount, hws, hlockTime⟩

theorem limitHolds_of_not_atLongOutput {s : ParseState} (k : Nat) (hno : ¬ AtLongOutput s) :
    LimitHolds H s k := by
  refine ⟨?_, LongScript.ends H k hno⟩
  intro s' hrun
  rcases readTransaction_ok H hrun with ⟨w, rs, fits, hs, -⟩
  refine (scriptsWithin_iff H fits hs hrun).mpr fun o ho => ?_
  exact UInt32.not_lt.mp fun hlong => hno ⟨w, fits, hs, o, ho, hlong⟩

/-- A whole transaction with a long output is accepted. -/
theorem accepted_of_atLongOutput {s : ParseState} (k : Nat) (h : AtLongOutput s) :
    ∃ s', (readTransaction H k).run s = .ok true s' ∧
      ¬ ScriptsWithin s'.block (s'.block.mTransactions k) := by
  rcases h with ⟨w, fits, hs, o, ho, hlong⟩
  rcases readTransaction_reads H k w fits hs with ⟨rs, hrun⟩
  refine ⟨_, hrun, fun hwithin => ?_⟩
  exact UInt32.not_le.mpr hlong ((scriptsWithin_iff H fits hs hrun).mp hwithin o ho)

/-- The limit on scripts is kept exactly when the bytes at the cursor are no whole
transaction with an output of a longer script. -/
theorem the_script_limit_holds_exactly_without_a_long_output (s : ParseState) (k : Nat) :
    LimitHolds H s k ↔ ¬ AtLongOutput s := by
  constructor
  · intro hholds hlong
    rcases accepted_of_atLongOutput H k hlong with ⟨s', hrun, hnot⟩
    exact hnot (hholds.accepted s' hrun)
  · exact limitHolds_of_not_atLongOutput H k

/-- An input with no script, and an output with a script of 32769 zeros. -/
def longOutputTransaction : TransactionWire :=
  { transactionVersionNumber := 1
    inputCount := Count.ofNat 1 (by decide)
    inputs := [
      { transactionHash := Vector.replicate 32 0
        transactionIndex := 0
        responseScriptLength := Count.ofNat 0 (by decide)
        responseScript := []
        sequenceNumber := 0
        script_length := rfl
        reasonable := by decide }]
    outputCount := Count.ofNat 1 (by decide)
    outputs := [
      { value := 0
        challengeScriptLength := Count.ofNat 32769 (by decide)
        challengeScript := List.replicate 32769 0
        script_length := by rw [List.length_replicate, Count.ofNat_value] }]
    lockTime := 0
    inputs_length := rfl
    inputs_ne := List.cons_ne_nil _ _
    inputs_reasonable := by decide
    outputs_length := rfl
    outputs_reasonable := by decide }

theorem an_output_of_32769_bytes_is_accepted :
    ∃ s', (readTransaction zeroHashes 0).run (ParseState.ofBytes longOutputTransaction.bytes) =
        .ok true s' ∧
      ¬ ScriptsWithin s'.block (s'.block.mTransactions 0) := by
  refine accepted_of_atLongOutput zeroHashes 0
    ⟨longOutputTransaction, ⟨by decide, by decide⟩, holds_overlay _ _, _, List.mem_singleton_self _, ?_⟩
  decide

end bitcoinstats.block_chain
