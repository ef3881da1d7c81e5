-- Blocks as values, their serialization in the protocol's format, and what the
-- parser makes of it: the same value, with the arrays filled slice by slice.
import BitcoinStats.BlockContents

open byte_memory exec cursor bitcoinstats.bitcoin_address

namespace bitcoinstats.block_chain

/-! ## Values and their serialization -/

structure InputValue where
  transactionHash : Hash256
  transactionIndex : UInt32
  responseScript : List UInt8
  sequenceNumber : UInt32
deriving DecidableEq

structure OutputValue where
  value : UInt64
  challengeScript : List UInt8
deriving DecidableEq

structure TransactionValue where
  transactionVersionNumber : UInt32
  inputs : List InputValue
  outputs : List OutputValue
  lockTime : UInt32
deriving DecidableEq

@[ext] structure BlockValue where
  header : HeaderWire
  transactions : List TransactionValue
deriving DecidableEq

def InputValue.serialize (v : InputValue) : List UInt8 :=
  v.transactionHash.toList ++ (leBytes 4 v.transactionIndex.toNat ++
    (compactSize v.responseScript.length ++
      (v.responseScript ++ leBytes 4 v.sequenceNumber.toNat)))

def OutputValue.serialize (v : OutputValue) : List UInt8 :=
  leBytes 8 v.value.toNat ++ (compactSize v.challengeScript.length ++ v.challengeScript)

def TransactionValue.serialize (v : TransactionValue) : List UInt8 :=
  leBytes 4 v.transactionVersionNumber.toNat ++ (compactSize v.inputs.length ++
    (v.inputs.flatMap InputValue.serialize ++ (compactSize v.outputs.length ++
      (v.outputs.flatMap OutputValue.serialize ++ leBytes 4 v.lockTime.toNat))))

def BlockValue.serialize (v : BlockValue) : List UInt8 :=
  v.header.bytes ++ compactSize v.transactions.length ++
    v.transactions.flatMap TransactionValue.serialize

/-- A transaction within the limits for one transaction. -/
structure TransactionValue.WithinLimits (v : TransactionValue) : Prop where
  inputs_pos : 1 ≤ v.inputs.length
  inputs_lt : v.inputs.length < 32678
  responseScripts : ∀ i ∈ v.inputs, i.responseScript.length < 32768
  challengeScripts : ∀ o ∈ v.outputs, o.challengeScript.length < 32768

def inputTotal (vs : List TransactionValue) : Nat := (vs.map fun v => v.inputs.length).sum

def outputTotal (vs : List TransactionValue) : Nat := (vs.map fun v => v.outputs.length).sum

structure BlockValue.WithinLimits (v : BlockValue) : Prop where
  transactions_lt : v.transactions.length < 32768
  transactions : ∀ t ∈ v.transactions, t.WithinLimits
  inputs_lt : inputTotal v.transactions < 32768
  outputs_lt : outputTotal v.transactions < 32768

/-! ## The values that a block holds -/

/-- The bytes at a script pointer. -/
def scriptBytes (mem : Memory) (script : Option Nat) (length : UInt32) : List UInt8 :=
  match script with
  | none => []
  | some p => window mem p length.toNat

def BlockImpl.inputValue (b : BlockImpl) (input : BlockInput) : InputValue :=
  { transactionHash := bytesAt b.mBlockData input.transactionHash 32
    transactionIndex := input.transactionIndex
    responseScript := scriptBytes b.mBlockData input.responseScript input.responseScriptLength
    sequenceNumber := input.sequenceNumber }

def BlockImpl.outputValue (b : BlockImpl) (output : BlockOutput) : OutputValue :=
  { value := output.value
    challengeScript :=
      scriptBytes b.mBlockData output.challengeScript output.challengeScriptLength }

def BlockImpl.transactionValue (b : BlockImpl) (t : BlockTransaction) : TransactionValue :=
  { transactionVersionNumber := t.transactionVersionNumber
    inputs :=
      (List.range t.inputCount.toNat).map fun i => b.inputValue (b.mInputs (t.inputs + i))
    outputs :=
      (List.range t.outputCount.toNat).map fun i => b.outputValue (b.mOutputs (t.outputs + i))
    lockTime := t.lockTime }

def BlockImpl.header (b : BlockImpl) : HeaderWire :=
  { blockFormatVersion := b.blockFormatVersion
    previousBlockHash := bytesAt b.mBlockData b.previousBlockHash 32
    merkleRoot := bytesAt b.mBlockData b.merkleRoot 32
    timeStamp := b.timeStamp
    bits := b.bits
    nonce := b.nonce }

def BlockImpl.value (b : BlockImpl) : BlockValue :=
  { header := b.header
    transactions :=
      (List.range b.transactionCount.toNat).map fun k => b.transactionValue (b.mTransactions k) }

/-! ## Values of wires -/

def InputWire.value (w : InputWire) : InputValue :=
  { transactionHash := w.transactionHash
    transactionIndex := w.transactionIndex
    responseScript := w.responseScript
    sequenceNumber := w.sequenceNumber }

def OutputWire.outputValue (w : OutputWire) : OutputValue :=
  { value := w.value, challengeScript := w.challengeScript }

def TransactionWire.value (w : TransactionWire) : TransactionValue :=
  { transactionVersionNumber := w.transactionVersionNumber
    inputs := w.inputs.map InputWire.value
    outputs := w.outputs.map OutputWire.outputValue
    lockTime := w.lockTime }

theorem scriptBytes_scriptAt {mem : Memory} {p : Nat} {length : UInt32} {script : List UInt8}
    (hlen : script.length = length.toNat) (h : Holds mem p script) :
    scriptBytes mem (scriptAt length p) length = script := by
  unfold scriptAt
  by_cases h0 : length = 0
  · subst h0
    have hnil : script = [] := List.length_eq_zero_iff.mp hlen
    simp [scriptBytes, hnil]
  · rw [if_pos h0]
    exact h.window_eq hlen

theorem inputValue_of_stored {b : BlockImpl} (p : Nat) (w : InputWire) (input : BlockInput)
    (h : InputStored p w input) (hmem : Holds b.mBlockData p w.bytes) :
    b.inputValue input = w.value := by
  unfold InputStored at h
  subst h
  simp only [InputWire.bytes, holds_append, leBytes_length, Vector.length_toList] at hmem
  obtain ⟨hhash, _, _, hscript, _⟩ := hmem
  simp only [BlockImpl.inputValue, InputWire.input, InputWire.value]
  rw [bytesAt_of_holds hhash, scriptBytes_scriptAt w.script_length (by simpa using hscript)]

theorem outputValue_of_stored {b : BlockImpl} (p : Nat) (w : OutputWire) (output : BlockOutput)
    (h : OutputStored p w output) (hmem : Holds b.mBlockData p w.bytes) :
    b.outputValue output = w.outputValue := by
  simp only [OutputWire.bytes, holds_append, leBytes_length] at hmem
  obtain ⟨_, _, hscript⟩ := hmem
  simp only [BlockImpl.outputValue, h.value, h.challengeScript, h.challengeScriptLength,
    OutputWire.output, OutputWire.outputValue]
  rw [scriptBytes_scriptAt w.script_length hscript]

variable (H : Hashes)

/-- The value of a stored transaction is that of its bytes. -/
theorem transactionValue_of_stored {b : BlockImpl} {k p : Nat} {tin tout index : UInt32}
    {w : TransactionWire} (h : TransactionStored H b k p tin tout index w)
    (hmem : Holds b.mBlockData p w.bytes) :
    b.transactionValue (b.mTransactions k) = w.value := by
  simp only [TransactionWire.bytes, holds_append, leBytes_length] at hmem
  obtain ⟨_, _, hinputs, _, houtputs, _⟩ := hmem
  have hin := h.inputs.map_range (fun p w e => inputValue_of_stored p w e) hinputs
  have hout := h.outputs.map_range (fun p w e => outputValue_of_stored p w e) houtputs
  rw [w.inputs_length] at hin
  rw [w.outputs_length] at hout
  rw [h.record]
  simp only [BlockImpl.transactionValue, TransactionWire.record, TransactionWire.value, hin, hout]

/-! ## The wire of a value -/

theorem exists_wires {α ω : Type} {value : ω → α} {bytes : ω → List UInt8}
    {serialize : α → List UInt8} (vs : List α)
    (h : ∀ v ∈ vs, ∃ w, value w = v ∧ bytes w = serialize v) :
    ∃ ws : List ω, ws.map value = vs ∧ ws.flatMap bytes = vs.flatMap serialize := by
  induction vs with
  | nil => exact ⟨[], rfl, rfl⟩
  | cons v vs ih =>
    obtain ⟨w, hw, hbytes⟩ := h v List.mem_cons_self
    obtain ⟨ws, hws, hrest⟩ := ih fun v hv => h v (List.mem_cons_of_mem _ hv)
    exact ⟨w :: ws, by simp [hw, hws], by simp only [List.flatMap_cons, hbytes, hrest]⟩

theorem Count.ofNat_value_lt {n : Nat} (h : n < 0xFFFF) {limit : UInt32} (hn : n < limit.toNat) :
    (Count.ofNat n h).value < limit := by
  rw [UInt32.lt_iff_toNat_lt, Count.ofNat_value]
  exact hn

theorem exists_inputWire (v : InputValue) (h : v.responseScript.length < 32768) :
    ∃ w : InputWire, w.value = v ∧ w.bytes = v.serialize := by
  have hcount : v.responseScript.length < 0xFFFF := by omega
  refine ⟨⟨v.transactionHash, v.transactionIndex, Count.ofNat _ hcount, v.responseScript,
    v.sequenceNumber, (Count.ofNat_value _ hcount).symm, Count.ofNat_value_lt hcount h⟩, rfl, ?_⟩
  simp only [InputWire.bytes, InputValue.serialize, Count.ofNat_bytes]

theorem exists_outputWire (v : OutputValue) (h : v.challengeScript.length < 32768) :
    ∃ w : OutputWire, w.outputValue = v ∧ w.bytes = v.serialize := by
  have hcount : v.challengeScript.length < 0xFFFF := by omega
  refine ⟨⟨v.value, Count.ofNat _ hcount, v.challengeScript,
    (Count.ofNat_value _ hcount).symm⟩, rfl, ?_⟩
  simp only [OutputWire.bytes, OutputValue.serialize, Count.ofNat_bytes]

theorem exists_transactionWire (v : TransactionValue) (h : v.WithinLimits)
    (houtputs : v.outputs.length < 32768) :
    ∃ w : TransactionWire, w.value = v ∧ w.bytes = v.serialize := by
  obtain ⟨inputs, hinputs, hinbytes⟩ := exists_wires v.inputs fun i hi =>
    exists_inputWire i (h.responseScripts i hi)
  obtain ⟨outputs, hout, houtbytes⟩ := exists_wires v.outputs fun o ho =>
    exists_outputWire o (h.challengeScripts o ho)
  have hinlen : inputs.length = v.inputs.length := by rw [← hinputs, List.length_map]
  have houtlen : outputs.length = v.outputs.length := by rw [← hout, List.length_map]
  have hinlt := h.inputs_lt
  have hincount : v.inputs.length < 0xFFFF := by omega
  have houtcount : v.outputs.length < 0xFFFF := by omega
  have hne : inputs ≠ [] := by
    rintro rfl
    have := h.inputs_pos
    rw [← hinlen] at this
    exact absurd this (by decide)
  refine ⟨⟨v.transactionVersionNumber, Count.ofNat _ hincount, inputs, Count.ofNat _ houtcount,
    outputs, v.lockTime, ?_, hne, Count.ofNat_value_lt hincount hinlt, ?_, ?_⟩, ?_, ?_⟩
  · rw [hinlen, Count.ofNat_value]
  · rw [houtlen, Count.ofNat_value]
  · exact UInt32.le_of_lt (Count.ofNat_value_lt houtcount houtputs)
  · simp only [TransactionWire.value, hinputs, hout]
  · simp only [TransactionWire.bytes, TransactionValue.serialize, Count.ofNat_bytes, hinbytes,
      houtbytes]

/-- Transactions that stay below the limits of the block all fit. -/
theorem transactionsFit_of_totals {ws : List TransactionWire} {tin tout : UInt32}
    (hin : tin.toNat + inputTotal (ws.map TransactionWire.value) < 32768)
    (hout : tout.toNat + outputTotal (ws.map TransactionWire.value) < 32768) :
    TransactionsFit tin tout ws := by
  induction ws generalizing tin tout with
  | nil => exact .nil tin tout
  | cons w ws ih =>
    have hinmax : MAX_BLOCK_INPUTS.toNat = 32768 := rfl
    have houtmax : MAX_BLOCK_OUTPUTS.toNat = 32768 := rfl
    have hcons : inputTotal ((w :: ws).map TransactionWire.value) =
        w.inputs.length + inputTotal (ws.map TransactionWire.value) := by
      simp [inputTotal, TransactionWire.value]
    have hcons' : outputTotal ((w :: ws).map TransactionWire.value) =
        w.outputs.length + outputTotal (ws.map TransactionWire.value) := by
      simp [outputTotal, TransactionWire.value]
    have hinlt : tin < MAX_BLOCK_INPUTS := by
      rw [UInt32.lt_iff_toNat_lt]
      omega
    have houtlt : tout < MAX_BLOCK_OUTPUTS := by
      rw [UInt32.lt_iff_toNat_lt]
      omega
    have haddin := w.add_inputs hinlt
    have haddout := w.add_outputs houtlt
    refine .cons ⟨?_, ?_⟩ (ih ?_ ?_)
    · rw [UInt32.lt_iff_toNat_lt]
      omega
    · rw [UInt32.lt_iff_toNat_lt]
      omega
    · omega
    · omega

/-! ## The length of a serialized block -/

theorem compactSize_length_le (n : Nat) : (compactSize n).length ≤ 5 := by
  rw [compactSize_length]
  split
  · omega
  · split <;> omega

theorem flatMap_length_le {α : Type} {f : α → List UInt8} {c : Nat} {vs : List α}
    (h : ∀ v ∈ vs, (f v).length ≤ c) : (vs.flatMap f).length ≤ c * vs.length := by
  induction vs with
  | nil => simp
  | cons v vs ih =>
    have hv := h v List.mem_cons_self
    have hvs := ih fun v hv => h v (List.mem_cons_of_mem _ hv)
    rw [List.flatMap_cons, List.length_append, List.length_cons, Nat.mul_succ]
    omega

theorem TransactionValue.serialize_length_le (v : TransactionValue) (h : v.WithinLimits) :
    v.serialize.length ≤ 18 + 32816 * v.inputs.length + 32781 * v.outputs.length := by
  have hinputs : (v.inputs.flatMap InputValue.serialize).length ≤ 32816 * v.inputs.length := by
    refine flatMap_length_le fun i hi => ?_
    have hscript := h.responseScripts i hi
    have hcount := compactSize_length_le i.responseScript.length
    simp only [InputValue.serialize, List.length_append, Vector.length_toList, leBytes_length]
    omega
  have houtputs : (v.outputs.flatMap OutputValue.serialize).length ≤ 32781 * v.outputs.length := by
    refine flatMap_length_le fun o ho => ?_
    have hscript := h.challengeScripts o ho
    have hcount := compactSize_length_le o.challengeScript.length
    simp only [OutputValue.serialize, List.length_append, leBytes_length]
    omega
  have hin := compactSize_length_le v.inputs.length
  have hout := compactSize_length_le v.outputs.length
  simp only [TransactionValue.serialize, List.length_append, leBytes_length]
  omega

theorem transactions_length_le (vs : List TransactionValue) (h : ∀ v ∈ vs, v.WithinLimits) :
    (vs.flatMap TransactionValue.serialize).length ≤
      18 * vs.length + 32816 * inputTotal vs + 32781 * outputTotal vs := by
  induction vs with
  | nil => simp [inputTotal, outputTotal]
  | cons v vs ih =>
    have hv := v.serialize_length_le (h v List.mem_cons_self)
    have hvs := ih fun v hv => h v (List.mem_cons_of_mem _ hv)
    simp only [inputTotal, outputTotal, List.flatMap_cons, List.length_append, List.length_cons,
      List.map_cons, List.sum_cons] at hvs ⊢
    omega

/-- The length of a block within the limits is a `uint32_t`. -/
theorem BlockValue.serialize_length_lt (v : BlockValue) (h : v.WithinLimits) :
    v.serialize.length < 2 ^ 32 := by
  have htransactions := transactions_length_le v.transactions h.transactions
  have hcount := compactSize_length_le v.transactions.length
  have hlt := h.transactions_lt
  have hin := h.inputs_lt
  have hout := h.outputs_lt
  simp only [BlockValue.serialize, List.length_append, v.header.bytes_length]
  omega

/-! ## The round trip -/

/-- The block holds the value `v`, read to the end, with the inputs and outputs
of each transaction behind those of the transactions before it. -/
structure ParsedTo (v : BlockValue) (b : BlockImpl) : Prop where
  value : b.value = v
  atEnd : b.mBlockRead = b.mBlockEnd
  inputSlices : ∀ k < v.transactions.length,
    (b.mTransactions k).inputs = inputTotal (v.transactions.take k)
  outputSlices : ∀ k < v.transactions.length,
    (b.mTransactions k).outputs = outputTotal (v.transactions.take k)
  inputsDisjoint : ∀ j k, j < k → k < v.transactions.length →
    (b.mTransactions j).inputs + (b.mTransactions j).inputCount.toNat ≤ (b.mTransactions k).inputs
  outputsDisjoint : ∀ j k, j < k → k < v.transactions.length →
    (b.mTransactions j).outputs + (b.mTransactions j).outputCount.toNat ≤
      (b.mTransactions k).outputs
  totalInputCount : b.totalInputCount.toNat = inputTotal v.transactions
  totalOutputCount : b.totalOutputCount.toNat = outputTotal v.transactions
  blockReward : b.blockReward =
    (v.transactions.map fun t => (t.outputs.map OutputValue.value).sum).sum

theorem header_of_holds {b : BlockImpl} {header : HeaderWire} {f : BlockImpl.Frame}
    {n : UInt32} (hmem : Holds b.mBlockData 0 header.bytes)
    (hframe : b.frame = { f with
      blockFormatVersion := header.blockFormatVersion, previousBlockHash := 0 + 4
      merkleRoot := 0 + 36, timeStamp := header.timeStamp, bits := header.bits
      nonce := header.nonce, transactionCount := n }) : b.header = header := by
  simp only [HeaderWire.bytes, holds_append, leBytes_length, Vector.length_toList] at hmem
  obtain ⟨_, hprevious, hmerkle, _, _, _⟩ := hmem
  simp only [BlockImpl.frame, BlockImpl.Frame.mk.injEq] at hframe
  obtain ⟨_, hversion, hprev, hroot, htime, hbits, hnonce, _⟩ := hframe
  simp only [BlockImpl.header, hversion, hprev, hroot, htime, hbits, hnonce]
  rw [bytesAt_of_holds hprevious, bytesAt_of_holds hmerkle]

/-- The entries of one transaction end where those of a later one start, or before. -/
theorem sum_take_add_le (ns : List Nat) {j k : Nat} (hj : j < k) (hk : k < ns.length) :
    (ns.take j).sum + ns[j] ≤ (ns.take k).sum := by
  have hle : j + 1 ≤ k := hj
  have htake : (ns.take k).take (j + 1) = ns.take (j + 1) := by
    rw [List.take_take, Nat.min_eq_left hle]
  have hsplit := List.sum_take_add_sum_drop (ns.take k) (j + 1)
  rw [htake, List.sum_take_succ ns j (by omega)] at hsplit
  omega

theorem processBlockData_run (s : ParseState) (mem : Memory) (n : UInt32) :
    (processBlockData H mem n).run s = (readBlockData H).run (s.setBlockData mem n) := rfl

theorem inputTotal_values (ws : List TransactionWire) :
    inputTotal (ws.map TransactionWire.value) = (ws.map fun w => w.inputs.length).sum := by
  rw [inputTotal, List.map_map]
  simp [TransactionWire.value, Function.comp_def]

theorem outputTotal_values (ws : List TransactionWire) :
    outputTotal (ws.map TransactionWire.value) = (ws.map fun w => w.outputs.length).sum := by
  rw [outputTotal, List.map_map]
  simp [TransactionWire.value, Function.comp_def]

/-- The entry `k` of the block is that of `w`, behind the slices of the `k` entries before it. -/
structure EntryRead (b : BlockImpl) (ws : List TransactionWire) (k : Nat) (w : TransactionWire) :
    Prop where
  value : b.transactionValue (b.mTransactions k) = w.value
  inputs : (b.mTransactions k).inputs = ((ws.take k).map fun w => w.inputs.length).sum
  outputs : (b.mTransactions k).outputs = ((ws.take k).map fun w => w.outputs.length).sum
  inputCount : (b.mTransactions k).inputCount.toNat = w.inputs.length
  outputCount : (b.mTransactions k).outputCount.toNat = w.outputs.length

theorem BlockRead.entry {s s' : ParseState} {header : HeaderWire} {count : Count}
    {ws : List TransactionWire} (hread : BlockRead H s s' header count ws)
    (fit : TransactionsFit 0 0 ws) (hin : s.block.totalInputCount = 0)
    (hout : s.block.totalOutputCount = 0)
    (hbody : Holds s'.block.mBlockData (s.block.mBlockRead + 80 + count.bytes.length)
      (ws.flatMap TransactionWire.bytes)) (k : Nat) (hk : k < ws.length) :
    EntryRead s'.block ws k ws[k] := by
  obtain ⟨-, -, -, hstep⟩ := hread
  rw [hin, hout] at hstep
  obtain ⟨tin, tout, hstored, htin, htout⟩ :=
    hstep.stored.get H fit (by decide) (by decide) k hk
  rw [Nat.zero_add] at hstored
  refine ⟨transactionValue_of_stored H hstored (hbody.flatMap_getElem k hk), ?_, ?_, ?_, ?_⟩
  · rw [hstored.record]
    simpa [TransactionWire.record] using htin
  · rw [hstored.record]
    simpa [TransactionWire.record] using htout
  · rw [hstored.record]
    exact (ws[k].inputs_length).symm
  · rw [hstored.record]
    exact (ws[k].outputs_length).symm

/-- The transactions and slices of a block whose transactions are all stored. -/
theorem parsedTo_of_read {s s' : ParseState} {header : HeaderWire} {count : Count}
    {ws : List TransactionWire} {v : BlockValue} (hread : BlockRead H s s' header count ws)
    (fit : TransactionsFit 0 0 ws) (hheader : v.header = header)
    (hws : ws.map TransactionWire.value = v.transactions) (hlen : ws.length = count.value.toNat)
    (hin : s.block.totalInputCount = 0) (hout : s.block.totalOutputCount = 0)
    (hreward : s.block.blockReward = 0) (hstart : s.block.mBlockRead = 0)
    (hs : Sees s (header.bytes ++ count.bytes ++ ws.flatMap TransactionWire.bytes))
    (hend : s.block.mBlockEnd =
      (header.bytes ++ count.bytes ++ ws.flatMap TransactionWire.bytes).length) :
    ParsedTo v s'.block := by
  have hmem : Holds s'.block.mBlockData 0
      (header.bytes ++ count.bytes ++ ws.flatMap TransactionWire.bytes) := by
    rw [hread.mBlockData, ← hstart]
    exact hs
  have hbody : Holds s'.block.mBlockData (s.block.mBlockRead + 80 + count.bytes.length)
      (ws.flatMap TransactionWire.bytes) := by
    have h := ((holds_append _ _ _ _).mp hmem).2
    rwa [List.length_append, header.bytes_length, ← Nat.add_assoc, ← hstart] at h
  have hget := hread.entry H fit hin hout hbody
  obtain ⟨hframe, hcursor, -, hstep⟩ := hread
  rw [hin, hout, hstart] at hstep
  rw [hstart] at hframe hcursor
  have hvlen : v.transactions.length = ws.length := by rw [← hws, List.length_map]
  have hcount : s'.block.transactionCount.toNat = ws.length := by
    have h := congrArg BlockImpl.Frame.transactionCount hframe
    rw [hlen]
    exact congrArg UInt32.toNat h
  refine ⟨?_, ?_, ?_, ?_, ?_, ?_, ?_, ?_, ?_⟩
  · have htransactions : s'.block.value.transactions = v.transactions := by
      rw [← hws]
      apply List.ext_getElem
      · simp [BlockImpl.value, hcount]
      · intro k h1 h2
        simp only [BlockImpl.value, List.getElem_map, List.getElem_range]
        exact (hget k (by simpa using h2)).value
    have hhead : s'.block.value.header = v.header := by
      rw [hheader]
      exact header_of_holds ((holds_append _ _ _ _).mp ((holds_append _ _ _ _).mp hmem).1).1 hframe
    exact BlockValue.ext hhead htransactions
  · have hstop := congrArg BlockImpl.Frame.mBlockEnd hframe
    rw [hcursor, Nat.zero_add, ← hend]
    exact hstop.symm
  · intro k hk
    rw [← hws, ← List.map_take, inputTotal_values]
    exact (hget k (by omega)).inputs
  · intro k hk
    rw [← hws, ← List.map_take, outputTotal_values]
    exact (hget k (by omega)).outputs
  · intro j k hj hk
    have hle := sum_take_add_le (ws.map fun w => w.inputs.length) hj (by simpa [← hvlen] using hk)
    rw [← List.map_take, ← List.map_take, List.getElem_map] at hle
    rw [(hget j (by omega)).inputs, (hget k (by omega)).inputs, (hget j (by omega)).inputCount]
    exact hle
  · intro j k hj hk
    have hle := sum_take_add_le (ws.map fun w => w.outputs.length) hj (by simpa [← hvlen] using hk)
    rw [← List.map_take, ← List.map_take, List.getElem_map] at hle
    rw [(hget j (by omega)).outputs, (hget k (by omega)).outputs, (hget j (by omega)).outputCount]
    exact hle
  · have htotal := hstep.totalInputCount
    rw [htotal, ← hws, inputTotal_values]
    exact Nat.zero_add _
  · have htotal := hstep.totalOutputCount
    rw [htotal, ← hws, outputTotal_values]
    exact Nat.zero_add _
  · have htotal := hstep.blockReward
    rw [hreward, UInt64.zero_add] at htotal
    rw [htotal, ← hws, List.map_map]
    simp [TransactionWire.value, totalValue, OutputWire.outputValue, Function.comp_def]

/-- The parser undoes the serialization of every block within the limits. -/
theorem a_serialized_block_parses_back (v : BlockValue) (hv : v.WithinLimits) (s : ParseState)
    (beyond : Memory) (hin : s.block.totalInputCount = 0) (hout : s.block.totalOutputCount = 0)
    (hreward : s.block.blockReward = 0) :
    ∃ s', (processBlockData H (overlay v.serialize beyond)
      (UInt32.ofNat v.serialize.length)).run s = .ok true s' ∧ ParsedTo v s'.block := by
  have houtputs : ∀ t ∈ v.transactions, t.outputs.length < 32768 := by
    intro t ht
    have hle : t.outputs.length ≤ outputTotal v.transactions :=
      List.single_le_sum (by simp) _ (List.mem_map_of_mem ht)
    have := hv.outputs_lt
    omega
  obtain ⟨ws, hws, hbytes⟩ := exists_wires v.transactions fun t ht =>
    exists_transactionWire t (hv.transactions t ht) (houtputs t ht)
  have hcount : v.transactions.length < 0xFFFF := by
    have := hv.transactions_lt
    omega
  have hlen : ws.length = v.transactions.length := by rw [← hws, List.length_map]
  have hserialize : v.serialize = v.header.bytes ++ (Count.ofNat _ hcount).bytes ++
      ws.flatMap TransactionWire.bytes := by
    rw [BlockValue.serialize, Count.ofNat_bytes, hbytes]
  have fit : TransactionsFit 0 0 ws := by
    refine transactionsFit_of_totals ?_ ?_
    · rw [hws]
      simpa using hv.inputs_lt
    · rw [hws]
      simpa using hv.outputs_lt
  have hlt := v.serialize_length_lt hv
  obtain ⟨s0, hs0⟩ : ∃ s0, s0 = s.setBlockData (overlay v.serialize beyond)
    (UInt32.ofNat v.serialize.length) := ⟨_, rfl⟩
  have hsees : Sees s0 (v.header.bytes ++ (Count.ofNat _ hcount).bytes ++
      ws.flatMap TransactionWire.bytes) := by
    rw [← hserialize, hs0]
    exact holds_overlay v.serialize beyond
  have hend : s0.block.mBlockEnd = v.serialize.length := by
    rw [hs0]
    exact UInt32.toNat_ofNat_of_lt' hlt
  have hin0 : s0.block.totalInputCount = 0 := by
    rw [hs0]
    exact hin
  have hout0 : s0.block.totalOutputCount = 0 := by
    rw [hs0]
    exact hout
  have hreward0 : s0.block.blockReward = 0 := by
    rw [hs0]
    exact hreward
  have hstart : s0.block.mBlockRead = 0 := by
    rw [hs0]
    rfl
  have hwslen : ws.length = (Count.ofNat _ hcount).value.toNat := by rw [hlen, Count.ofNat_value]
  obtain ⟨s', hrun, hread⟩ := readBlockData_contents H s0 v.header (Count.ofNat _ hcount)
    (Count.ofNat_value_lt hcount hv.transactions_lt) hwslen (by rw [hin0, hout0]; exact fit)
    (by rw [hin0]; decide) (by rw [hout0]; decide) hsees
  refine ⟨s', ?_, ?_⟩
  · rw [processBlockData_run, ← hs0]
    exact hrun
  · exact parsedTo_of_read H hread fit rfl hws hwslen hin0 hout0 hreward0 hstart hsees
      (by rw [hend, hserialize])

/-- A block with one transaction of one input and one output. -/
def sampleBlock : BlockValue :=
  { header :=
      { blockFormatVersion := 1, previousBlockHash := Vector.replicate 32 0
        merkleRoot := Vector.replicate 32 1, timeStamp := 2, bits := 3, nonce := 4 }
    transactions :=
      [{ transactionVersionNumber := 1
         inputs := [{ transactionHash := Vector.replicate 32 5, transactionIndex := 0xFFFFFFFF
                      responseScript := [6, 7], sequenceNumber := 8 }]
         outputs := [{ value := 5000000000, challengeScript := [] }]
         lockTime := 9 }] }

theorem a_sample_block_parses_back :
    ∃ s', (processBlockData default (overlay sampleBlock.serialize fun _ => 0)
      (UInt32.ofNat sampleBlock.serialize.length)).run default = .ok true s' ∧
      ParsedTo sampleBlock s'.block := by
  refine a_serialized_block_parses_back default sampleBlock ⟨by decide, ?_, by decide, by decide⟩
    default (fun _ => 0) rfl rfl rfl
  intro t ht
  simp only [sampleBlock, List.mem_singleton] at ht
  subst ht
  exact ⟨by decide, by decide, by decide, by decide⟩

end bitcoinstats.block_chain
