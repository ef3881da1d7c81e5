-- The calls that read through the built chain: `readBlock`, which fills
-- `mSingleReadBlock` and the index of the transactions, `readSingleTransaction`,
-- which reads a transaction again through the index, and `printBlock`.
import BitcoinStats.ChainBuild
import BitcoinStats.Library.Runs

open byte_memory keyed_set exec runs bitcoinstats.bitcoin_address

namespace bitcoinstats.block_chain

/-! ## The parser of the interface -/

/-- The state of the parser on one of the two blocks, with the globals. -/
def BlockChainImpl.parseState (b : BlockChainImpl) (block : BlockImpl) (transactionIndex : UInt32) :
    ParseState :=
  { block, transactionIndex, gIsWarning := b.gIsWarning
    gReportTransactionHash := b.gReportTransactionHash, stack := b.stack, windows := [] }

/-- The globals as the parser leaves them. -/
def BlockChainImpl.withGlobals (b : BlockChainImpl) (s : ParseState) : BlockChainImpl :=
  { b with
    gIsWarning := s.gIsWarning
    gReportTransactionHash := s.gReportTransactionHash
    stack := s.stack }

/-! ## The index of the transactions -/

def BlockImpl.transactionList (block : BlockImpl) : List BlockTransaction :=
  (List.range block.transactionCount.toNat).map block.mTransactions

def BlockImpl.inputList (block : BlockImpl) (t : BlockTransaction) : List BlockInput :=
  (List.range t.inputCount.toNat).map (fun j => block.mInputs (t.inputs + j))

/-- The hash that an input points to. -/
def BlockImpl.hashOf (block : BlockImpl) (input : BlockInput) : Hash256 :=
  bytesAt block.mBlockData input.transactionHash 32

/-- The hashes that a transaction names, but for those of new coins. -/
def BlockImpl.spentHashes (block : BlockImpl) (t : BlockTransaction) : List Hash256 :=
  ((block.inputList t).filter (fun input => input.transactionIndex ≠ 0xFFFFFFFF)).map block.hashOf

def BlockTransaction.location (t : BlockTransaction) : FileLocation :=
  { hash := t.transactionHash, mFileIndex := t.fileIndex, mFileOffset := t.fileOffset
    mFileLength := t.transactionLength, mTransactionIndex := t.transactionIndex }

/-- The second loop of `processTransactions`. -/
def BlockChainImpl.findInputs (b : BlockChainImpl) (block : BlockImpl) :
    List BlockTransaction → Except Shutdown BlockChainImpl
  | [] => .ok b
  | t :: ts =>
    let b := { b with
      mTotalInputCount := b.mTotalInputCount + t.inputCount
      mTotalOutputCount := b.mTotalOutputCount + t.outputCount }
    if ∀ hash ∈ block.spentHashes t, (b.mTransactionSet.lookup hash).isSome then
      b.findInputs block ts
    else .error .failedToFindTransaction

def BlockChainImpl.processTransactions (b : BlockChainImpl) (block : BlockImpl) :
    Except Shutdown BlockChainImpl :=
  let b := { b with
    mTotalTransactionCount := b.mTotalTransactionCount + block.transactionCount
    mTransactionSet :=
      b.mTransactionSet.insertAll (block.transactionList.map BlockTransaction.location) }
  b.findInputs block block.transactionList

/-! ## `readBlock` -/

/-- The header that `nextBlockHash` points into, or the pointer as it was. -/
def nextNext (mBlockCount blockIndex : UInt32) (nextBlockHash : Option Nat) : Option Nat :=
  if blockIndex < mBlockCount - 2 then some (blockIndex + 2).toNat else nextBlockHash

/-- The fields that are set before the data is read. -/
def BlockImpl.startRead (block : BlockImpl) (mBlockCount blockIndex : UInt32)
    (header : BlockHeader) : BlockImpl :=
  { block with
    blockIndex := blockIndex
    warning := false
    blockLength := header.mBlockLength
    blockReward := 0
    totalInputCount := 0
    totalOutputCount := 0
    fileIndex := header.mFileIndex
    fileOffset := header.mFileOffset
    nextBlockHash := nextNext mBlockCount blockIndex block.nextBlockHash }

variable (H : Hashes)

/-- The data that was read is in `mBlockDataBuffer`: the hash is taken and the
transactions are read. -/
def BlockChainImpl.parseBlock (b : BlockChainImpl) : Except Shutdown (Bool × BlockChainImpl) :=
  let block :=
    { b.mSingleReadBlock with computedBlockHash := H.doubleSHA256 (window b.mBlockDataBuffer 0 80) }
  match (processBlockData H b.mBlockDataBuffer block.blockLength).run
    (b.parseState block b.mTransactionCount) with
  | .ok ret s =>
    .ok (ret, { b.withGlobals s with
      mSingleReadBlock := s.block
      mTransactionCount := s.transactionIndex })
  | .error reason _ => .error reason

/-- `block.warning = gIsWarning; gIsWarning = false;` -/
def BlockChainImpl.takeWarning (b : BlockChainImpl) : BlockChainImpl :=
  { b with mSingleReadBlock.warning := b.gIsWarning, gIsWarning := false }

/-- The file position and the fields before the data is read. -/
def BlockChainImpl.startRead (b : BlockChainImpl) (blockIndex : UInt32) (header : BlockHeader) :
    BlockChainImpl :=
  { b.fseek header.mFileIndex.toNat header.mFileOffset.toNat with
    mSingleReadBlock := b.mSingleReadBlock.startRead b.mBlockCount blockIndex header }

/-- `readBlock` on the header of the block. -/
def BlockChainImpl.readBlockAt (b : BlockChainImpl) (blockIndex : UInt32) (header : BlockHeader) :
    Except Shutdown (Bool × BlockChainImpl) :=
  let (chunk, b) := (b.startRead blockIndex header).fread header.mFileIndex.toNat
    header.mBlockLength.toNat
  if header.mBlockLength ≠ 0 ∧ chunk.length = header.mBlockLength.toNat then do
    let (ret, b) ← { b with mBlockDataBuffer := overlay chunk b.mBlockDataBuffer }.parseBlock H
    let b ← if ret then b.processTransactions b.mSingleReadBlock else .ok b
    .ok (ret, b.takeWarning)
  else .error .failedToReadInputBlock

/-- The search for text is off, as the constructor leaves it. -/
def BlockChainImpl.readBlock (b : BlockChainImpl) (blockIndex : UInt32) :
    Except Shutdown (Bool × BlockChainImpl) :=
  if b.mBlockCount ≤ blockIndex then .ok (false, b)
  else b.readBlockAt H blockIndex (b.mBlockChainHeaders.getD blockIndex.toNat default)

/-! ## `readSingleTransaction` and `printBlock` -/

/-- `processSingleTransaction`, and the place of the transaction behind it. -/
def BlockChainImpl.parseTransaction (b : BlockChainImpl) (f : FileLocation) :
    Except Shutdown BlockChainImpl :=
  let block :=
    { b.mSingleTransactionBlock with
      blockIndex := 0, blockReward := 0, totalInputCount := 0, totalOutputCount := 0,
      fileIndex := 0, fileOffset := 0 }
  match (processTransactionData H b.mTransactionBlockBuffer f.mFileLength).run
    (b.parseState block 0) with
  | .ok _ s =>
    let s := s.setTransaction 0 (fun t =>
      { t with
        transactionIndex := f.mTransactionIndex
        fileIndex := f.mFileIndex
        fileOffset := f.mFileOffset })
    .ok { b.withGlobals s with mSingleTransactionBlock := s.block }
  | .error reason _ => .error reason

/-- `readSingleTransaction` on the place that the index gives. -/
def BlockChainImpl.readTransactionAt (b : BlockChainImpl) (f : FileLocation) :
    Except Shutdown (Bool × BlockChainImpl) :=
  let fph := f.mFileIndex.toNat
  if fph < b.mBlockDataFiles.length ∧ f.mFileLength < MAX_BLOCK_SIZE then
    let saveLocation := (b.file fph).ftell
    let (chunk, b) := (b.fseek fph f.mFileOffset.toNat).fread fph f.mFileLength.toNat
    let b := { b with mTransactionBlockBuffer := overlay chunk b.mTransactionBlockBuffer }
    if f.mFileLength ≠ 0 ∧ chunk.length = f.mFileLength.toNat then do
      let b ← b.parseTransaction H f
      .ok (true, b.fseek fph saveLocation.toNat)
    else .ok (false, b.fseek fph saveLocation.toNat)
  else .ok (false, b)

/-- Whether it gives a transaction, which is then `mTransactions[0]` of
`mSingleTransactionBlock`. -/
def BlockChainImpl.readSingleTransaction (b : BlockChainImpl) (transactionHash : Hash256) :
    Except Shutdown (Bool × BlockChainImpl) :=
  match b.mTransactionSet.lookup transactionHash with
  | none => .ok (false, b)
  | some f => b.readTransactionAt H f

def BlockChainImpl.readTransactionsAgain (b : BlockChainImpl) :
    List Hash256 → Except Shutdown BlockChainImpl
  | [] => .ok b
  | hash :: hashes => do
    let (_, b) ← b.readSingleTransaction H hash
    b.readTransactionsAgain hashes

/-- What `printBlock` does besides printing: it reads again what the inputs of
the block spend. -/
def BlockChainImpl.printBlock (b : BlockChainImpl) : Except Shutdown BlockChainImpl :=
  b.readTransactionsAgain H
    (b.mSingleReadBlock.transactionList.flatMap b.mSingleReadBlock.spentHashes)

/-! ## Runs of calls -/

/-- A call that came back, with what it returned. -/
inductive Call where
  | scanBlockChain
  | buildBlockChain
  | readBlock (blockIndex : UInt32) (returned : Bool)
  | readSingleTransaction (transactionHash : Hash256) (returned : Bool)
  | printBlock

inductive Step : BlockChainImpl → Call → BlockChainImpl → Prop
  | scanBlockChain (b : BlockChainImpl) (lastBlockRead : UInt32) :
      Step b .scanBlockChain (b.scanBlockChain H lastBlockRead).2.2
  | buildBlockChain {b b' : BlockChainImpl} {blockCount : UInt32}
      (h : b.buildBlockChain = some (blockCount, b')) : Step b .buildBlockChain b'
  | readBlock {b b' : BlockChainImpl} {blockIndex : UInt32} {returned : Bool}
      (h : b.readBlock H blockIndex = .ok (returned, b')) : Step b (.readBlock blockIndex returned) b'
  | readSingleTransaction {b b' : BlockChainImpl} {transactionHash : Hash256} {returned : Bool}
      (h : b.readSingleTransaction H transactionHash = .ok (returned, b')) :
      Step b (.readSingleTransaction transactionHash returned) b'
  | printBlock {b b' : BlockChainImpl} (h : b.printBlock H = .ok b') : Step b .printBlock b'

end bitcoinstats.block_chain
