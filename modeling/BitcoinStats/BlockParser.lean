-- The parser of `BlockImpl`: inputs, outputs, transactions and whole blocks,
-- each read from the one cursor and stored in the arrays of the block.
import BitcoinStats.BlockReader
import BitcoinStats.OutputScript

open byte_memory bitcoinstats.bitcoin_address

namespace bitcoinstats.block_chain

/-- A script pointer, null for an empty script. -/
def readScript (length : UInt32) : Parser (Option Nat) := do
  if length ≠ 0 then
    let script ← getReadBufferAdvance length
    return some script
  else return none

/-! ## Inputs -/

def ParseState.storeInput (k : Nat) (input : BlockInput) (s : ParseState) : ParseState :=
  { s with block.mInputs := Function.update s.block.mInputs k input }

/-- Reads `mInputs[k]`. -/
def readInput (k : Nat) : Parser Bool := do
  let transactionHash ← readHash
  let transactionIndex ← readU32
  let responseScriptLength ← readVariableLengthInteger
  exitIf (¬ responseScriptLength < MAX_REASONABLE_SCRIPT_LENGTH)
    (.outrageousInputScript responseScriptLength)
  let responseScript ← readScript responseScriptLength
  let sequenceNumber ← readU32
  modify (ParseState.storeInput k
    { transactionHash, transactionIndex, responseScriptLength, responseScript, sequenceNumber })
  return true

/-- The loop over the inputs, and the one over the outputs: `left` more, the
next one at `k`. With none at all, `ret` stays as it was. -/
def readEach (read : Nat → Parser Bool) (failed : Shutdown) : Nat → Nat → Bool → Parser Bool
  | 0, _, ret => return ret
  | left + 1, k, _ => do
    let ret ← read k
    exitIf (ret = false) failed
    readEach read failed left (k + 1) ret

def readInputs : Nat → Nat → Bool → Parser Bool := readEach readInput .failedToReadInput

/-! ## Outputs -/

variable (H : Hashes)

def ParseState.addReward (value : UInt64) (s : ParseState) : ParseState :=
  { s with block.blockReward := s.block.blockReward + value }

/-- `readOutput` from where it has the script on. -/
def ParseState.storeOutput (k : Nat) (output : BlockOutput) (s : ParseState) : ParseState :=
  let decoded := decodeScript H s.block.mBlockData (s.stack 0) output
  let gReportTransactionHash := s.gReportTransactionHash || decoded.reportTransactionHash
  { s with
    block.mOutputs := Function.update s.block.mOutputs k decoded.output
    gReportTransactionHash := gReportTransactionHash
    gIsWarning := s.gIsWarning || decoded.isWarning || gReportTransactionHash
    stack := fun i => s.stack (i + 1) }

/-- Reads `mOutputs[k]`. -/
def readOutput (k : Nat) : Parser Bool := do
  let value ← readU64
  modify (ParseState.addReward value)
  let challengeScriptLength ← readVariableLengthInteger
  -- the limit is looked at only for lengths below 8192, so it is never exceeded
  exitIf (¬ 8192 ≤ challengeScriptLength ∧ MAX_REASONABLE_SCRIPT_LENGTH < challengeScriptLength)
    (.outputScriptTooLong challengeScriptLength)
  let challengeScript ← readScript challengeScriptLength
  modify (ParseState.storeOutput H k
    { BlockOutput.new with value, challengeScriptLength, challengeScript })
  return true

def readOutputs : Nat → Nat → Bool → Parser Bool := readEach (readOutput H) .failedToReadOutput

/-! ## Transactions -/

def ParseState.setTransaction (k : Nat) (f : BlockTransaction → BlockTransaction)
    (s : ParseState) : ParseState :=
  { s with
    block.mTransactions := Function.update s.block.mTransactions k (f (s.block.mTransactions k)) }

def ParseState.setVersion (k : Nat) (transactionVersionNumber : UInt32) (s : ParseState) :
    ParseState :=
  { s.setTransaction k (fun t => { t with transactionVersionNumber }) with
    gIsWarning :=
      if transactionVersionNumber = 1 ∨ transactionVersionNumber = 2 then s.gIsWarning else true }

/-- The inputs of the transaction start where `mInputs` is free. -/
def ParseState.setInputs (k : Nat) (inputCount : UInt32) (s : ParseState) : ParseState :=
  let inputs := s.block.totalInputCount.toNat
  { s.setTransaction k (fun t => { t with inputCount, inputs }) with
    block.totalInputCount := s.block.totalInputCount + inputCount }

def ParseState.setOutputs (k : Nat) (outputCount : UInt32) (s : ParseState) : ParseState :=
  let outputs := s.block.totalOutputCount.toNat
  { s.setTransaction k (fun t => { t with outputCount, outputs }) with
    block.totalOutputCount := s.block.totalOutputCount + outputCount }

/-- What is computed once the whole transaction is read, up to `transactionEnd`. -/
def ParseState.finishTransaction (k transactionBegin transactionEnd : Nat) (lockTime : UInt32)
    (s : ParseState) : ParseState :=
  let transactionLength := UInt32.ofNat (transactionEnd - transactionBegin)
  let transactionHash :=
    H.doubleSHA256 (window s.block.mBlockData transactionBegin transactionLength.toNat)
  let fileIndex := s.block.fileIndex
  let fileOffset := s.block.fileOffset + UInt32.ofNat transactionBegin
  let transactionIndex := s.transactionIndex
  { s.setTransaction k (fun t =>
      { t with
        lockTime, transactionLength, fileIndex, fileOffset, transactionIndex, transactionHash }) with
    transactionIndex := s.transactionIndex + 1
    gReportTransactionHash := false }

/-- `readTransaction` up to the loop over the inputs. -/
def readTransactionInputs (k : Nat) : Parser Bool := do
  let transactionVersionNumber ← readU32
  modify (ParseState.setVersion k transactionVersionNumber)
  let inputCount ← readVariableLengthInteger
  exitIf (MAX_REASONABLE_INPUTS ≤ inputCount) (.invalidInputs inputCount)
  let inputs := (← get).block.totalInputCount.toNat
  modify (ParseState.setInputs k inputCount)
  let totalInputCount := (← get).block.totalInputCount
  exitIf (MAX_BLOCK_INPUTS ≤ totalInputCount) (.invalidBlockInputs totalInputCount)
  readInputs inputCount.toNat inputs false

/-- `readTransaction` from where it has its inputs on. -/
def readTransactionOutputs (k transactionBegin : Nat) : Parser Bool := do
  let outputCount ← readVariableLengthInteger
  exitIf (MAX_REASONABLE_OUTPUTS < outputCount) .exceededMaximumOutputs
  let outputs := (← get).block.totalOutputCount.toNat
  modify (ParseState.setOutputs k outputCount)
  let totalOutputCount := (← get).block.totalOutputCount
  exitIf (MAX_BLOCK_OUTPUTS ≤ totalOutputCount) (.invalidBlockOutputs totalOutputCount)
  let ret ← readOutputs H outputCount.toNat outputs true
  let lockTime ← readU32
  let transactionEnd := (← get).block.mBlockRead
  modify (ParseState.finishTransaction H k transactionBegin transactionEnd lockTime)
  return ret

/-- Reads `mTransactions[k]`. A transaction without an input leaves `ret` at
`false`: it is rejected before its outputs are read. -/
def readTransaction (k : Nat) : Parser Bool := do
  let transactionBegin := (← get).block.mBlockRead
  let ret ← readTransactionInputs k
  if ret then readTransactionOutputs H k transactionBegin else return false

/-! ## Blocks -/

/-- The loop over the transactions: `left` more, the next one at `k`. -/
def readTransactions : Nat → Nat → Parser Bool
  | 0, _ => return true
  | left + 1, k => do
    let ok ← readTransaction H k
    if ok then readTransactions left (k + 1) else return false

/-- The cursor at the start of `blockLength` bytes of data. -/
def ParseState.setBlockData (blockData : Memory) (blockLength : UInt32) (s : ParseState) :
    ParseState :=
  { s with
    block.mBlockData := blockData
    block.mBlockRead := 0
    block.mBlockEnd := blockLength.toNat }

def ParseState.setHeader (blockFormatVersion : UInt32) (previousBlockHash merkleRoot : Nat)
    (timeStamp bits nonce transactionCount : UInt32) (s : ParseState) : ParseState :=
  { s with
    block.blockFormatVersion := blockFormatVersion
    block.previousBlockHash := previousBlockHash
    block.merkleRoot := merkleRoot
    block.timeStamp := timeStamp
    block.bits := bits
    block.nonce := nonce
    block.transactionCount := transactionCount }

/-- The fields before the transactions. -/
def readHeaderFields : Parser UInt32 := do
  let blockFormatVersion ← readU32
  let previousBlockHash ← readHash
  let merkleRoot ← readHash
  let timeStamp ← readU32
  let bits ← readU32
  let nonce ← readU32
  let transactionCount ← readVariableLengthInteger
  modify (ParseState.setHeader blockFormatVersion previousBlockHash merkleRoot timeStamp bits nonce
    transactionCount)
  return transactionCount

/-- `processBlockData` once the cursor is at the start of the data. -/
def readBlockData : Parser Bool := do
  let transactionCount ← readHeaderFields
  exitIf (MAX_BLOCK_TRANSACTION ≤ transactionCount) (.tooManyTransactions transactionCount)
  readTransactions H transactionCount.toNat 0

def processBlockData (blockData : Memory) (blockLength : UInt32) : Parser Bool := do
  modify (ParseState.setBlockData blockData blockLength)
  readBlockData H

/-- Reads one transaction on its own, as `mTransactions[0]`. -/
def processTransactionData (transactionData : Memory) (transactionLength : UInt32) :
    Parser PUnit := do
  modify (fun s => { s with transactionIndex := 0 })
  modify (ParseState.setBlockData transactionData transactionLength)
  let ok ← readTransaction H 0
  if ok then pure ⟨⟩ else throw .failedToProcessTransactionData

end bitcoinstats.block_chain
