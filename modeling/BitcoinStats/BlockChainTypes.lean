-- The limits, opcodes and classes of `BlockChain.h` and `BlockChain.cpp`. A
-- pointer into the block data is a position from `mBlockData` on, and a pointer
-- into one of the arrays of a block is an index.
import BitcoinStats.BitcoinAddress

open byte_memory

namespace bitcoinstats.block_chain

/-! ## The limits -/

def MAX_BLOCK_SIZE : UInt32 := 1024 * 1024 * 32
def MAX_BLOCK_TRANSACTION : UInt32 := 32768
def MAX_BLOCK_INPUTS : UInt32 := 32768
def MAX_BLOCK_OUTPUTS : UInt32 := 32768
def MAX_REASONABLE_SCRIPT_LENGTH : UInt32 := 1024 * 32
def MAX_REASONABLE_INPUTS : UInt32 := 32678
def MAX_REASONABLE_OUTPUTS : UInt32 := 32768
def MAX_MULTISIG : Nat := 5
def MAGIC_ID : UInt32 := 0xD9B4BEF9

/-! ## The opcodes that the parser looks at -/

def OP_0 : UInt8 := 0x00
def OP_1 : UInt8 := 0x51
def OP_2 : UInt8 := 0x52
def OP_3 : UInt8 := 0x53
def OP_4 : UInt8 := 0x54
def OP_5 : UInt8 := 0x55
def OP_RETURN : UInt8 := 0x6a
def OP_DUP : UInt8 := 0x76
def OP_EQUAL : UInt8 := 0x87
def OP_EQUALVERIFY : UInt8 := 0x88
def OP_HASH160 : UInt8 := 0xa9
def OP_CHECKSIG : UInt8 := 0xac
def OP_CHECKMULTISIG : UInt8 := 0xae

/-! ## Hashes, headers and locations -/

/-- A 256 bit hash. The four words of the class are its bytes. -/
abbrev Hash256 := Vector UInt8 32

structure BlockHeader where
  hash : Hash256
  mFileIndex : UInt32
  mFileOffset : UInt32
  mBlockLength : UInt32
  mPreviousBlockHash : Hash256
deriving DecidableEq, Inhabited

structure FileLocation where
  hash : Hash256
  mFileIndex : UInt32
  mFileOffset : UInt32
  mFileLength : UInt32
  mTransactionIndex : UInt32
deriving DecidableEq

/-! ## Blocks -/

structure BlockInput where
  transactionHash : Nat
  transactionIndex : UInt32
  responseScriptLength : UInt32
  responseScript : Option Nat
  sequenceNumber : UInt32
deriving DecidableEq, Inhabited

inductive KeyType where
  | KT_UNKNOWN
  | KT_UNCOMPRESSED_PUBLIC_KEY
  | KT_COMPRESSED_PUBLIC_KEY
  | KT_RIPEMD160
  | KT_TRUNCATED_COMPRESSED_KEY
  | KT_MULTISIG
  | KT_STEALTH
  | KT_SCRIPT_HASH
  | KT_ZERO_LENGTH
deriving DecidableEq, Inhabited

/-- Where a public key points: into the block data, or at the second byte of
one of the two built-in keys. -/
inductive KeyPointer where
  | blockData (position : Nat)
  | zeroByteKey
  | dummyKey
deriving DecidableEq

structure BlockOutput where
  value : UInt64
  challengeScriptLength : UInt32
  challengeScript : Option Nat
  signatureCount : UInt32
  keyType : KeyType
  keyTypeName : String
  multiSigFormat : UInt32
  publicKey : Vector (Option KeyPointer) 5
  addresses : Vector (Vector UInt8 25) 5
  multisig : Vector UInt8 25
  /-- The characters before the closing zero. -/
  asciiAddress : List UInt8
deriving DecidableEq

/-- The constructor of the class. -/
def BlockOutput.new : BlockOutput :=
  { value := 0, challengeScriptLength := 0, challengeScript := none, signatureCount := 1,
    keyType := .KT_UNKNOWN, keyTypeName := "UNKNOWN", multiSigFormat := 0,
    publicKey := Vector.replicate 5 none,
    addresses := Vector.replicate 5 (Vector.replicate 25 0),
    multisig := Vector.replicate 25 0, asciiAddress := [] }

instance : Inhabited BlockOutput := ⟨BlockOutput.new⟩

/-- The bound of the first entry of `publicKey`. -/
theorem first_lt_five : 0 < 5 := by decide

structure BlockTransaction where
  transactionVersionNumber : UInt32
  inputCount : UInt32
  /-- The index of the first input in `mInputs`. -/
  inputs : Nat
  outputCount : UInt32
  /-- The index of the first output in `mOutputs`. -/
  outputs : Nat
  lockTime : UInt32
  transactionHash : Hash256
  transactionLength : UInt32
  fileIndex : UInt32
  fileOffset : UInt32
  transactionIndex : UInt32
deriving DecidableEq, Inhabited

/-- `Block` and `BlockImpl`. The arrays and the pointer `transactions` that
leads to the first of them are one thing here. -/
structure BlockImpl where
  blockLength : UInt32
  blockFormatVersion : UInt32
  previousBlockHash : Nat
  merkleRoot : Nat
  timeStamp : UInt32
  bits : UInt32
  nonce : UInt32
  transactionCount : UInt32
  computedBlockHash : Hash256
  blockIndex : UInt32
  totalInputCount : UInt32
  totalOutputCount : UInt32
  fileIndex : UInt32
  fileOffset : UInt32
  blockReward : UInt64
  /-- The index of the header whose `mPreviousBlockHash` it points to. -/
  nextBlockHash : Option Nat
  warning : Bool
  mBlockRead : Nat
  mBlockEnd : Nat
  mBlockData : Memory
  mTransactions : Nat → BlockTransaction
  mInputs : Nat → BlockInput
  mOutputs : Nat → BlockOutput
deriving Inhabited

/-- Why the code calls `exit(1)`, with the number that its message prints. -/
inductive Shutdown where
  | outrageousInputScript (length : UInt32)
  | outputScriptTooLong (length : UInt32)
  | invalidInputs (inputCount : UInt32)
  | invalidBlockInputs (totalInputCount : UInt32)
  | failedToReadInput
  | exceededMaximumOutputs
  | invalidBlockOutputs (totalOutputCount : UInt32)
  | failedToReadOutput
  | tooManyTransactions (transactionCount : UInt32)
  | failedToProcessTransactionData
  | failedToReadInputBlock
  | failedToFindTransaction
deriving DecidableEq

/-- The state of the parser: the block, the counter that the caller passes by
reference, and the globals. -/
structure ParseState where
  block : BlockImpl
  transactionIndex : UInt32
  gIsWarning : Bool
  gReportTransactionHash : Bool
  /-- What the stack holds where each call of `readOutput` has its `key[32]`. -/
  stack : Nat → UInt8
  /-- Every range (start and length) that a read function read or handed out. -/
  windows : List (Nat × Nat)
deriving Inhabited

abbrev Parser := EStateM Shutdown ParseState

end bitcoinstats.block_chain
