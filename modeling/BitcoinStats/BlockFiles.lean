-- The block chain interface of `BlockChain.cpp`, its files, and the scan of
-- their block headers.
import BitcoinStats.BlockParser
import BitcoinStats.Library.KeyedSet

open byte_memory keyed_set bitcoinstats.bitcoin_address

namespace bitcoinstats.block_chain

/-! ## Files -/

/-- A `FILE` that is open for reading: its bytes, and its position. -/
structure File where
  bytes : List UInt8
  position : Nat
deriving DecidableEq, Inhabited

def File.fseek (f : File) (position : Nat) : File := { f with position }

/-- What `ftell` gives, as the 32 bits that the code keeps of it. -/
def File.ftell (f : File) : UInt32 := UInt32.ofNat f.position

/-- The bytes that `fread` copies when it is asked for `n`. -/
def File.chunk (f : File) (n : Nat) : List UInt8 := (f.bytes.drop f.position).take n

def File.fread (f : File) (n : Nat) : File :=
  { f with position := f.position + (f.chunk n).length }

/-! ## The interface -/

/-- The class without its text report, with the globals of the parser. -/
structure BlockChainImpl where
  /-- The bytes of `blk00000.dat`, `blk00001.dat` and so on under `mRootDir`. -/
  disk : Nat → Option (List UInt8)
  /-- What lies on the heap behind the block of `MAX_BLOCK_SIZE` bytes in
  which the scan looks for a header. -/
  heap : Memory
  mMaxBlocks : UInt32
  mTotalTransactionCount : UInt32
  mTotalInputCount : UInt32
  mTotalOutputCount : UInt32
  mScanCount : UInt32
  mBlockDataBuffer : Memory
  mBlockIndex : UInt32
  mFileLength : UInt32
  mBlockDataFiles : List File
  mLastBlockHeader : BlockHeader
  mBlockHeaderSet : KeyedSet BlockHeader.hash
  mBlockCount : UInt32
  mBlockChainHeaders : List BlockHeader
  mSingleReadBlock : BlockImpl
  mSingleTransactionBlock : BlockImpl
  mTransactionCount : UInt32
  mTransactionBlockBuffer : Memory
  mTransactionSet : KeyedSet FileLocation.hash
  gIsWarning : Bool
  gReportTransactionHash : Bool
  stack : Nat → UInt8
deriving Inhabited

/-- The file behind a `FILE` pointer, which is an index of `mBlockDataFiles`. -/
def BlockChainImpl.file (b : BlockChainImpl) (fph : Nat) : File := b.mBlockDataFiles.getD fph default

def BlockChainImpl.setFile (b : BlockChainImpl) (fph : Nat) (f : File) : BlockChainImpl :=
  { b with mBlockDataFiles := b.mBlockDataFiles.set fph f }

def BlockChainImpl.fseek (b : BlockChainImpl) (fph position : Nat) : BlockChainImpl :=
  b.setFile fph ((b.file fph).fseek position)

def BlockChainImpl.fread (b : BlockChainImpl) (fph n : Nat) : List UInt8 × BlockChainImpl :=
  ((b.file fph).chunk n, b.setFile fph ((b.file fph).fread n))

/-- `fread` of one 32 bit number; nothing when it does not return 1. -/
def BlockChainImpl.freadU32 (b : BlockChainImpl) (fph : Nat) : Option UInt32 × BlockChainImpl :=
  let (chunk, b) := b.fread fph 4
  (if chunk.length = 4 then some (UInt32.ofNat (leVal chunk)) else none, b)

/-- The file stays closed when there is none on the disk, and `mBlockIndex` is
then past the last open file. -/
def BlockChainImpl.openBlock (b : BlockChainImpl) : Bool × BlockChainImpl :=
  let b := { b with mBlockIndex := UInt32.ofNat b.mBlockDataFiles.length }
  match b.disk b.mBlockIndex.toNat with
  | some bytes =>
    (true, { b with
      mFileLength := UInt32.ofNat bytes.length
      mBlockDataFiles := b.mBlockDataFiles ++ [{ bytes, position := 0 }] })
  | none => (false, b)

/-- The members that the constructors set, in the memory that the object gets. -/
def BlockChainImpl.initialised (memory : BlockChainImpl) (maxBlocks : UInt32) : BlockChainImpl :=
  { memory with
    mMaxBlocks := maxBlocks
    mTotalTransactionCount := 0
    mTotalInputCount := 0
    mTotalOutputCount := 0
    mScanCount := 0
    mBlockIndex := 0
    mFileLength := 0
    mBlockDataFiles := []
    mBlockHeaderSet := .empty _
    mBlockCount := 0
    mBlockChainHeaders := []
    mSingleReadBlock := { memory.mSingleReadBlock with transactionCount := 0, nextBlockHash := none }
    mSingleTransactionBlock :=
      { memory.mSingleTransactionBlock with transactionCount := 0, nextBlockHash := none }
    mTransactionCount := 0
    mTransactionSet := .empty _ }

/-- The constructor. -/
def BlockChainImpl.new (memory : BlockChainImpl) (maxBlocks : UInt32) : BlockChainImpl :=
  (memory.initialised maxBlocks).openBlock.2

/-! ## The scan -/

variable (H : Hashes)

/-- Where the search for a header stands: the file, the position before the
last number read, and the number, if there was one. -/
structure MagicRead where
  fph : Nat
  lastBlockRead : UInt32
  magicID : Option UInt32

/-- The first number of the next record. At the end of a file it is looked
for in the next one; `lastBlockRead` is then the position behind it. -/
def BlockChainImpl.readMagic (b : BlockChainImpl) : MagicRead × BlockChainImpl :=
  let fph := b.mBlockIndex.toNat
  let lastBlockRead := (b.file fph).ftell
  let (r, b) := b.freadU32 fph
  if r.isSome then ({ fph, lastBlockRead, magicID := r }, b)
  else
    let (opened, b) := b.openBlock
    if opened then
      let fph := b.mBlockIndex.toNat
      let (r, b) := b.freadU32 fph
      ({ fph, lastBlockRead := (b.file fph).ftell, magicID := r }, b)
    else ({ fph, lastBlockRead, magicID := none }, b)

/-- The block that `malloc` gives, cleared, with the chunk copied over it. -/
def searchMemory (heap : Memory) (chunk : List UInt8) : Memory :=
  overlay chunk (fun i => if i < MAX_BLOCK_SIZE.toNat then 0 else heap (i - MAX_BLOCK_SIZE.toNat))

/-- The first of the `c` positions with the magic number. The words at the
last three reach behind the bytes that were read. -/
def searchMagic (temp : Memory) (c : Nat) : Option Nat :=
  (List.range c).find? (fun i => UInt32.ofNat (readLe temp i 4) = MAGIC_ID)

/-- The search for the next header when there is none at `lastBlockRead`. It
gives the file, and whether the header was found. -/
def BlockChainImpl.skipToMagic (b : BlockChainImpl) (fph : Nat) (lastBlockRead : UInt32) :
    Nat × Bool × BlockChainImpl :=
  let b := b.fseek fph lastBlockRead.toNat
  let (chunk, b) := b.fread fph MAX_BLOCK_SIZE.toNat
  match searchMagic (searchMemory b.heap chunk) chunk.length with
  | some i =>
    let b := b.fseek fph (lastBlockRead + UInt32.ofNat i).toNat
    let (r, b) := b.freadU32 fph
    (fph, r.isSome, b)
  | none =>
    let (opened, b) := b.openBlock
    if opened then
      let fph := b.mBlockIndex.toNat
      let (r, b) := b.freadU32 fph
      (fph, r = some MAGIC_ID, b)
    else (fph, false, b)

/-- The header that is made of the 80 bytes of a `BlockPrefix`. -/
def prefixHeader (mFileIndex mFileOffset mBlockLength : UInt32) (blockPrefix : List UInt8) :
    BlockHeader :=
  { hash := H.doubleSHA256 blockPrefix
    mFileIndex, mFileOffset, mBlockLength
    mPreviousBlockHash := Vector.ofFn (fun i => blockPrefix.getD (4 + i) 0) }

/-- `readBlockHeader` behind the magic number. -/
def BlockChainImpl.readHeader (b : BlockChainImpl) (fph : Nat) : Bool × BlockChainImpl :=
  let (r, b) := b.freadU32 fph
  let mFileOffset := (b.file fph).ftell
  match r with
  | none => (false, b)
  | some mBlockLength =>
    if mBlockLength < MAX_BLOCK_SIZE then
      let (blockPrefix, b) := b.fread fph 80
      if blockPrefix.length = 80 then
        let header := prefixHeader H b.mBlockIndex mFileOffset mBlockLength blockPrefix
        let currentFileOffset := (b.file fph).ftell + (mBlockLength - 80)
        let b := b.fseek fph currentFileOffset.toNat
        (true, { b with
          mLastBlockHeader := header
          mBlockHeaderSet := b.mBlockHeaderSet.insert header })
      else (false, b)
    else (false, b)

def BlockChainImpl.readBlockHeader (b : BlockChainImpl) : Bool × BlockChainImpl :=
  if b.mBlockIndex.toNat < b.mBlockDataFiles.length then
    let (m, b) := b.readMagic
    match m.magicID with
    | none => (false, b)
    | some magicID =>
      if magicID ≠ MAGIC_ID then
        let (fph, found, b) := b.skipToMagic m.fph m.lastBlockRead
        if found then b.readHeader H fph else (false, b)
      else b.readHeader H m.fph
  else (false, b)

/-- It gives `true` when the scan is complete. The caller's `lastBlockRead`
goes in and comes out. -/
def BlockChainImpl.scanBlockChain (b : BlockChainImpl) (lastBlockRead : UInt32) :
    Bool × UInt32 × BlockChainImpl :=
  let (ok, b) := b.readBlockHeader H
  if ok ∧ b.mScanCount < b.mMaxBlocks then
    (false, b.mScanCount, { b with mScanCount := b.mScanCount + 1 })
  else (true, lastBlockRead, b)

end bitcoinstats.block_chain
