-- The bytes that the parser consumes: inputs, outputs and transactions as it
-- reads them, the places where it stops early, and whole blocks. Every memory
-- has some such block at every place.
import BitcoinStats.CompactSize

open byte_memory

namespace bitcoinstats.block_chain

/-! ## The fields -/

theorem exists_u32 (mem : Memory) (p : Nat) : ∃ v : UInt32, Holds mem p (leBytes 4 v.toNat) := by
  refine ⟨UInt32.ofNat (readLe mem p 4), ?_⟩
  rw [UInt32.toNat_ofNat_of_lt' (readLe_lt mem p 4)]
  exact holds_readLe mem p 4

theorem exists_u64 (mem : Memory) (p : Nat) : ∃ v : UInt64, Holds mem p (leBytes 8 v.toNat) := by
  refine ⟨UInt64.ofNat (readLe mem p 8), ?_⟩
  rw [UInt64.toNat_ofNat_of_lt' (readLe_lt mem p 8)]
  exact holds_readLe mem p 8

theorem exists_bytes (mem : Memory) (p n : Nat) :
    ∃ bytes : List UInt8, bytes.length = n ∧ Holds mem p bytes :=
  ⟨window mem p n, window_length mem p n, holds_window mem p n⟩

theorem exists_hash (mem : Memory) (p : Nat) : ∃ hash : Hash256, Holds mem p hash.toList := by
  obtain ⟨bytes, hlen, hbytes⟩ := exists_bytes mem p 32
  exact ⟨⟨bytes.toArray, by simpa using hlen⟩, by simpa using hbytes⟩

/-! ## Inputs and outputs -/

structure InputWire where
  transactionHash : Hash256
  transactionIndex : UInt32
  responseScriptLength : Count
  responseScript : List UInt8
  sequenceNumber : UInt32
  script_length : responseScript.length = responseScriptLength.value.toNat
  reasonable : responseScriptLength.value < MAX_REASONABLE_SCRIPT_LENGTH

def InputWire.bytes (w : InputWire) : List UInt8 :=
  w.transactionHash.toList ++ (leBytes 4 w.transactionIndex.toNat ++
    (w.responseScriptLength.bytes ++ (w.responseScript ++ leBytes 4 w.sequenceNumber.toNat)))

structure OutputWire where
  value : UInt64
  challengeScriptLength : Count
  challengeScript : List UInt8
  script_length : challengeScript.length = challengeScriptLength.value.toNat

def OutputWire.bytes (w : OutputWire) : List UInt8 :=
  leBytes 8 w.value.toNat ++ (w.challengeScriptLength.bytes ++ w.challengeScript)

/-- An input that ends the process: its script is too long. -/
structure InputStop where
  transactionHash : Hash256
  transactionIndex : UInt32
  responseScriptLength : Count
  outrageous : MAX_REASONABLE_SCRIPT_LENGTH ≤ responseScriptLength.value

def InputStop.bytes (w : InputStop) : List UInt8 :=
  w.transactionHash.toList ++ (leBytes 4 w.transactionIndex.toNat ++ w.responseScriptLength.bytes)

theorem exists_input (mem : Memory) (p : Nat) :
    (∃ w : InputWire, Holds mem p w.bytes) ∨ ∃ w : InputStop, Holds mem p w.bytes := by
  obtain ⟨hash, hhash⟩ := exists_hash mem p
  obtain ⟨index, hindex⟩ := exists_u32 mem (p + 32)
  obtain ⟨length, hlength⟩ := exists_count mem (p + 32 + 4)
  by_cases hlen : length.value < MAX_REASONABLE_SCRIPT_LENGTH
  · obtain ⟨script, hscriptlen, hscript⟩ :=
      exists_bytes mem (p + 32 + 4 + length.bytes.length) length.value.toNat
    obtain ⟨sequence, hsequence⟩ :=
      exists_u32 mem (p + 32 + 4 + length.bytes.length + length.value.toNat)
    left
    refine ⟨⟨hash, index, length, script, sequence, hscriptlen, hlen⟩, ?_⟩
    simp [InputWire.bytes, hhash, hindex, hlength, hscript, hscriptlen, hsequence]
  · right
    refine ⟨⟨hash, index, length, by simpa using hlen⟩, ?_⟩
    simp [InputStop.bytes, hhash, hindex, hlength]

theorem exists_output (mem : Memory) (p : Nat) : ∃ w : OutputWire, Holds mem p w.bytes := by
  obtain ⟨value, hvalue⟩ := exists_u64 mem p
  obtain ⟨length, hlength⟩ := exists_count mem (p + 8)
  obtain ⟨script, hscriptlen, hscript⟩ :=
    exists_bytes mem (p + 8 + length.bytes.length) length.value.toNat
  refine ⟨⟨value, length, script, hscriptlen⟩, ?_⟩
  simp [OutputWire.bytes, hvalue, hlength, hscript]

/-- `n` inputs, or fewer and then one that ends the process. -/
theorem exists_inputs (mem : Memory) (p n : Nat) :
    (∃ ws : List InputWire, ws.length = n ∧ Holds mem p (ws.flatMap InputWire.bytes)) ∨
    ∃ (ws : List InputWire) (w : InputStop), ws.length < n ∧
      Holds mem p (ws.flatMap InputWire.bytes ++ w.bytes) := by
  induction n generalizing p with
  | zero => exact Or.inl ⟨[], rfl, holds_nil mem p⟩
  | succ n ih =>
    rcases exists_input mem p with ⟨w, hw⟩ | ⟨w, hw⟩
    · rcases ih (p + w.bytes.length) with ⟨ws, hlen, hws⟩ | ⟨ws, w', hlen, hws⟩
      · exact Or.inl ⟨w :: ws, by simp [hlen], by simp [hw, hws]⟩
      · refine Or.inr ⟨w :: ws, w', by simpa using hlen, ?_⟩
        rw [List.flatMap_cons, List.append_assoc, holds_append]
        exact ⟨hw, hws⟩
    · exact Or.inr ⟨[], w, by simp, by simpa using hw⟩

theorem exists_outputs (mem : Memory) (p n : Nat) :
    ∃ ws : List OutputWire, ws.length = n ∧ Holds mem p (ws.flatMap OutputWire.bytes) := by
  induction n generalizing p with
  | zero => exact ⟨[], rfl, holds_nil mem p⟩
  | succ n ih =>
    obtain ⟨w, hw⟩ := exists_output mem p
    obtain ⟨ws, hlen, hws⟩ := ih (p + w.bytes.length)
    exact ⟨w :: ws, by simp [hlen], by simp [hw, hws]⟩

/-! ## Transactions -/

structure TransactionWire where
  transactionVersionNumber : UInt32
  inputCount : Count
  inputs : List InputWire
  outputCount : Count
  outputs : List OutputWire
  lockTime : UInt32
  inputs_length : inputs.length = inputCount.value.toNat
  inputs_ne : inputs ≠ []
  inputs_reasonable : inputCount.value < MAX_REASONABLE_INPUTS
  outputs_length : outputs.length = outputCount.value.toNat
  outputs_reasonable : outputCount.value ≤ MAX_REASONABLE_OUTPUTS

def TransactionWire.bytes (w : TransactionWire) : List UInt8 :=
  leBytes 4 w.transactionVersionNumber.toNat ++ (w.inputCount.bytes ++
    (w.inputs.flatMap InputWire.bytes ++ (w.outputCount.bytes ++
      (w.outputs.flatMap OutputWire.bytes ++ leBytes 4 w.lockTime.toNat))))

/-- The transaction leaves room in the two arrays of the block, of which the
transactions before it have taken `tin` and `tout` entries. -/
structure TransactionWire.Fits (w : TransactionWire) (tin tout : UInt32) : Prop where
  inputs : tin + w.inputCount.value < MAX_BLOCK_INPUTS
  outputs : tout + w.outputCount.value < MAX_BLOCK_OUTPUTS

/-- A transaction at which the parser stops early. -/
inductive TransactionStop (tin tout : UInt32) where
  /-- No input at all, or more than one transaction or one block may have. -/
  | inputCount (version : UInt32) (count : Count)
      (bad : MAX_REASONABLE_INPUTS ≤ count.value ∨ MAX_BLOCK_INPUTS ≤ tin + count.value ∨
        count.value = 0)
  | input (version : UInt32) (count : Count) (reasonable : count.value < MAX_REASONABLE_INPUTS)
      (fits : tin + count.value < MAX_BLOCK_INPUTS) (inputs : List InputWire) (stop : InputStop)
      (fewer : inputs.length < count.value.toNat)
  | outputCount (version : UInt32) (count : Count) (inputs : List InputWire)
      (inputs_length : inputs.length = count.value.toNat) (inputs_ne : inputs ≠ [])
      (reasonable : count.value < MAX_REASONABLE_INPUTS)
      (fits : tin + count.value < MAX_BLOCK_INPUTS) (outputCount : Count)
      (bad : MAX_REASONABLE_OUTPUTS < outputCount.value ∨
        MAX_BLOCK_OUTPUTS ≤ tout + outputCount.value)

def TransactionStop.bytes {tin tout : UInt32} : TransactionStop tin tout → List UInt8
  | .inputCount version count _ => leBytes 4 version.toNat ++ count.bytes
  | .input version count _ _ inputs stop _ =>
    leBytes 4 version.toNat ++ (count.bytes ++ (inputs.flatMap InputWire.bytes ++ stop.bytes))
  | .outputCount version count inputs _ _ _ _ outputs _ =>
    leBytes 4 version.toNat ++ (count.bytes ++ (inputs.flatMap InputWire.bytes ++ outputs.bytes))

/-- The stop that is no error: the transaction has no input. -/
def TransactionStop.IsEmpty {tin tout : UInt32} : TransactionStop tin tout → Prop
  | .inputCount _ count _ =>
    count.value < MAX_REASONABLE_INPUTS ∧ tin + count.value < MAX_BLOCK_INPUTS
  | _ => False

/-- The bytes of a transaction without an input, as far as they are looked at. -/
structure EmptyTransaction where
  transactionVersionNumber : UInt32
  inputCount : Count
  noInput : inputCount.value = 0

def EmptyTransaction.bytes (w : EmptyTransaction) : List UInt8 :=
  leBytes 4 w.transactionVersionNumber.toNat ++ w.inputCount.bytes

theorem TransactionStop.IsEmpty.bytes_eq {tin tout : UInt32} {w : TransactionStop tin tout}
    (h : w.IsEmpty) : ∃ e : EmptyTransaction, w.bytes = e.bytes ∧ tin < MAX_BLOCK_INPUTS := by
  cases w with
  | inputCount version count bad =>
    have hzero : count.value = 0 :=
      (bad.resolve_left (UInt32.not_le.mpr h.1)).resolve_left (UInt32.not_le.mpr h.2)
    refine ⟨⟨version, count, hzero⟩, rfl, ?_⟩
    have hfits := h.2
    rwa [hzero, UInt32.add_zero] at hfits
  | input => exact h.elim
  | outputCount => exact h.elim

theorem exists_transaction (mem : Memory) (p : Nat) (tin tout : UInt32) :
    (∃ w : TransactionWire, w.Fits tin tout ∧ Holds mem p w.bytes) ∨
    ∃ w : TransactionStop tin tout, Holds mem p w.bytes := by
  obtain ⟨version, hversion⟩ := exists_u32 mem p
  obtain ⟨count, hcount⟩ := exists_count mem (p + 4)
  by_cases hbad : MAX_REASONABLE_INPUTS ≤ count.value ∨ MAX_BLOCK_INPUTS ≤ tin + count.value ∨
      count.value = 0
  · exact Or.inr ⟨.inputCount version count hbad, by
      simp [TransactionStop.bytes, hversion, hcount]⟩
  simp only [not_or, UInt32.not_le] at hbad
  obtain ⟨hreasonable, hfits, hzero⟩ := hbad
  rcases exists_inputs mem (p + 4 + count.bytes.length) count.value.toNat with
    ⟨inputs, hlen, hinputs⟩ | ⟨inputs, stop, hfewer, hinputs⟩
  · have hne : inputs ≠ [] := by
      rintro rfl
      exact hzero (UInt32.toNat_inj.mp hlen.symm)
    obtain ⟨outputCount, houtputCount⟩ := exists_count mem
      (p + 4 + count.bytes.length + (inputs.flatMap InputWire.bytes).length)
    by_cases hbadout : MAX_REASONABLE_OUTPUTS < outputCount.value ∨
        MAX_BLOCK_OUTPUTS ≤ tout + outputCount.value
    · right
      refine ⟨.outputCount version count inputs hlen hne hreasonable hfits outputCount hbadout, ?_⟩
      simp only [TransactionStop.bytes, holds_append, leBytes_length]
      exact ⟨hversion, hcount, hinputs, houtputCount⟩
    · simp only [not_or, UInt32.not_le, UInt32.not_lt] at hbadout
      obtain ⟨outputs, houtlen, houtputs⟩ := exists_outputs mem
        (p + 4 + count.bytes.length + (inputs.flatMap InputWire.bytes).length +
          outputCount.bytes.length) outputCount.value.toNat
      obtain ⟨lockTime, hlockTime⟩ := exists_u32 mem
        (p + 4 + count.bytes.length + (inputs.flatMap InputWire.bytes).length +
          outputCount.bytes.length + (outputs.flatMap OutputWire.bytes).length)
      left
      refine ⟨⟨version, count, inputs, outputCount, outputs, lockTime, hlen, hne, hreasonable,
        houtlen, hbadout.1⟩, ⟨hfits, hbadout.2⟩, ?_⟩
      simp only [TransactionWire.bytes, holds_append, leBytes_length]
      exact ⟨hversion, hcount, hinputs, houtputCount, houtputs, hlockTime⟩
  · right
    refine ⟨.input version count hreasonable hfits inputs stop hfewer, ?_⟩
    rw [holds_append] at hinputs
    simp only [TransactionStop.bytes, holds_append, leBytes_length]
    exact ⟨hversion, hcount, hinputs.1, hinputs.2⟩

/-! ## Blocks -/

/-- The transactions that fit one after the other, and the entries of the two
arrays that they take. -/
inductive TransactionsFit : UInt32 → UInt32 → List TransactionWire → Prop
  | nil (tin tout) : TransactionsFit tin tout []
  | cons {tin tout} {w : TransactionWire} {ws} (fits : w.Fits tin tout)
      (rest : TransactionsFit (tin + w.inputCount.value) (tout + w.outputCount.value) ws) :
      TransactionsFit tin tout (w :: ws)

/-- What the loop over `n` transactions consumes. -/
inductive Body : Nat → UInt32 → UInt32 → List UInt8 → Prop
  | done (tin tout) : Body 0 tin tout []
  | transaction {n tin tout rest} (w : TransactionWire) (fits : w.Fits tin tout)
      (body : Body n (tin + w.inputCount.value) (tout + w.outputCount.value) rest) :
      Body (n + 1) tin tout (w.bytes ++ rest)
  | stop {n tin tout} (w : TransactionStop tin tout) : Body (n + 1) tin tout w.bytes

theorem exists_body (mem : Memory) (n p : Nat) (tin tout : UInt32) :
    ∃ bytes, Body n tin tout bytes ∧ Holds mem p bytes := by
  induction n generalizing p tin tout with
  | zero => exact ⟨[], .done tin tout, holds_nil mem p⟩
  | succ n ih =>
    rcases exists_transaction mem p tin tout with ⟨w, hfits, hw⟩ | ⟨w, hw⟩
    · obtain ⟨rest, hbody, hrest⟩ := ih (p + w.bytes.length) (tin + w.inputCount.value)
        (tout + w.outputCount.value)
      exact ⟨w.bytes ++ rest, .transaction w hfits hbody, by simp [hw, hrest]⟩
    · exact ⟨w.bytes, .stop w, hw⟩

/-- The 80 bytes before the count of the transactions. -/
structure HeaderWire where
  blockFormatVersion : UInt32
  previousBlockHash : Hash256
  merkleRoot : Hash256
  timeStamp : UInt32
  bits : UInt32
  nonce : UInt32
deriving DecidableEq

def HeaderWire.bytes (w : HeaderWire) : List UInt8 :=
  leBytes 4 w.blockFormatVersion.toNat ++ (w.previousBlockHash.toList ++ (w.merkleRoot.toList ++
    (leBytes 4 w.timeStamp.toNat ++ (leBytes 4 w.bits.toNat ++ leBytes 4 w.nonce.toNat))))

/-- What the parser consumes of a block. -/
inductive BlockWire (tin tout : UInt32) : List UInt8 → Prop
  | tooManyTransactions (header : HeaderWire) (count : Count)
      (bad : MAX_BLOCK_TRANSACTION ≤ count.value) :
      BlockWire tin tout (header.bytes ++ count.bytes)
  | transactions {rest} (header : HeaderWire) (count : Count)
      (fits : count.value < MAX_BLOCK_TRANSACTION) (body : Body count.value.toNat tin tout rest) :
      BlockWire tin tout (header.bytes ++ (count.bytes ++ rest))

/-- A block whose transactions all are there. -/
structure WholeBlock where
  header : HeaderWire
  transactionCount : Count
  transactions : List TransactionWire
  reasonable : transactionCount.value < MAX_BLOCK_TRANSACTION
  length_eq : transactions.length = transactionCount.value.toNat
  fit : TransactionsFit 0 0 transactions

def WholeBlock.bytes (w : WholeBlock) : List UInt8 :=
  w.header.bytes ++ w.transactionCount.bytes ++ w.transactions.flatMap TransactionWire.bytes

/-- A block with a transaction that has no input, behind some that have. -/
structure RejectedBlock where
  header : HeaderWire
  transactionCount : Count
  transactions : List TransactionWire
  rejected : EmptyTransaction
  reasonable : transactionCount.value < MAX_BLOCK_TRANSACTION
  fewer : transactions.length < transactionCount.value.toNat
  fit : TransactionsFit 0 0 transactions

def RejectedBlock.bytes (w : RejectedBlock) : List UInt8 :=
  w.header.bytes ++ w.transactionCount.bytes ++
    (w.transactions.flatMap TransactionWire.bytes ++ w.rejected.bytes)

theorem exists_header (mem : Memory) (p : Nat) : ∃ w : HeaderWire, Holds mem p w.bytes := by
  obtain ⟨version, hversion⟩ := exists_u32 mem p
  obtain ⟨previous, hprevious⟩ := exists_hash mem (p + 4)
  obtain ⟨merkle, hmerkle⟩ := exists_hash mem (p + 4 + 32)
  obtain ⟨time, htime⟩ := exists_u32 mem (p + 4 + 32 + 32)
  obtain ⟨bits, hbits⟩ := exists_u32 mem (p + 4 + 32 + 32 + 4)
  obtain ⟨nonce, hnonce⟩ := exists_u32 mem (p + 4 + 32 + 32 + 4 + 4)
  refine ⟨⟨version, previous, merkle, time, bits, nonce⟩, ?_⟩
  simp [HeaderWire.bytes, hversion, hprevious, hmerkle, htime, hbits, hnonce]

/-- Every memory has a block of the parser at every place. -/
theorem exists_blockWire (mem : Memory) (p : Nat) (tin tout : UInt32) :
    ∃ bytes, BlockWire tin tout bytes ∧ Holds mem p bytes := by
  obtain ⟨header, hheader⟩ := exists_header mem p
  obtain ⟨count, hcount⟩ := exists_count mem (p + header.bytes.length)
  by_cases hbad : MAX_BLOCK_TRANSACTION ≤ count.value
  · exact ⟨_, .tooManyTransactions header count hbad, by simp [hheader, hcount]⟩
  · obtain ⟨body, hbody, hholds⟩ := exists_body mem count.value.toNat
      (p + header.bytes.length + count.bytes.length) tin tout
    exact ⟨_, .transactions header count (by simpa using hbad) hbody,
      by simp [hheader, hcount, hholds]⟩

end bitcoinstats.block_chain
