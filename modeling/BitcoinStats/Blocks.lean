-- The statistics of `blocks.cpp`: the scan of the block index records, the table
-- of the blocks by their height, and what is counted for each day.
import BitcoinStats.CBlockIndex
import BitcoinStats.KeyValueDatabase
import BitcoinStats.Library.Calendar
import BitcoinStats.Library.Decimal
import BitcoinStats.Library.KeyedSet
import Std.Data.TreeMap

open byte_memory keyed_set calendar decimal_text bitcoinstats.block_chain bitcoinstats.block_index
  bitcoinstats.key_value_database

namespace bitcoinstats.blocks

/-! ## The date of a block -/

/-- `gmtime` on the time of the block. -/
def date (cb : CBlockIndex) : Date := dateOfDay (cb.mTime.toNat / 86400)

/-- `"%4d-%02d-%02d"` -/
def dateText (d : Date) : List UInt8 :=
  pad 32 4 (decimal d.year) ++ 45 :: (pad 48 2 (decimal d.month) ++ 45 :: pad 48 2 (decimal d.day))

def getBlockTime (cb : CBlockIndex) : List UInt8 := dateText (date cb)

/-! ## The records -/

/-- The key of the table: `uint32_t(cb.mBlockHeight)`. -/
def blockHeight (cb : CBlockIndex) : UInt32 := cb.mBlockHeight.toUInt32

abbrev BlockIndexMap := KeyedSet blockHeight

/-- A record with the pointers behind what was read of its key and of its value. -/
structure ReadRecord where
  cb : CBlockIndex
  key : List UInt8
  value : List UInt8

/-- `CBlockIndex cb(key + 1); cb.readBlockIndex(value, size);` on the memory from
each of the two pointers on. It is undefined behind the end of the memory. -/
def readRecord (key value : List UInt8) (size : Nat) : Option ReadRecord := do
  let (blockHash, key) ← readHashBytes (key.drop 1)
  let r ← (CBlockIndex.new blockHash).readBlockIndex value size
  return { cb := r.index, key, value := r.scan }

/-- The variables of the loop over the records. -/
structure RecordScan where
  mBlocks : BlockIndexMap
  mBlockHeight : UInt32
  blockCount : UInt32
  blockLow : UInt32
  blockHigh : UInt32
  firstBlock : Bool
  /-- `assert(0)` was reached. -/
  assertReached : Bool

def RecordScan.new : RecordScan :=
  { mBlocks := .empty _, mBlockHeight := 0, blockCount := 0, blockLow := 0, blockHigh := 0,
    firstBlock := true, assertReached := false }

/-- The lowest and the highest height so far. -/
def RecordScan.updateRange (s : RecordScan) (blockHeight : UInt32) : RecordScan :=
  if s.firstBlock then
    { s with blockLow := blockHeight, blockHigh := blockHeight, firstBlock := false }
  else if blockHeight < s.blockLow then { s with blockLow := blockHeight }
  else if s.blockHigh < blockHeight then { s with blockHigh := blockHeight }
  else s

def RecordScan.storeRecord (s : RecordScan) (cb : CBlockIndex) : RecordScan :=
  let s : RecordScan :=
    { s with
      mBlocks := s.mBlocks.insert cb
      mBlockHeight := if s.mBlockHeight < blockHeight cb then blockHeight cb else s.mBlockHeight }
  s.updateRange (blockHeight cb)

/-- The record is stored under its height, or not when there is one already. -/
def RecordScan.addRecord (s : RecordScan) (cb : CBlockIndex) : RecordScan :=
  let s :=
    match s.mBlocks.lookup (blockHeight cb) with
    | some _ => { s with assertReached := true }
    | none => s.storeRecord cb
  { s with blockCount := s.blockCount + 1 }

/-- One turn of the loop. The characters of a string have a zero behind them. -/
def RecordScan.step (s : RecordScan) (record : Entry) : Option RecordScan := do
  let r ← readRecord (record.1 ++ [0]) (record.2 ++ [0]) record.2.length
  return s.addRecord r.cb

def RecordScan.scan (s : RecordScan) : List Entry → Option RecordScan
  | [] => some s
  | record :: records => do
    let s ← s.step record
    s.scan records

/-! ## The days -/

structure BlockDay where
  mDayNumber : UInt32
  mBlockTime : UInt32
  mMinBlockHeight : UInt64
  mMaxBlockHeight : UInt64
  mTransactionCount : UInt64
  mBlockCount : UInt32
deriving DecidableEq

abbrev BlockDayMap := Std.TreeMap (List UInt8) BlockDay
abbrev DayIndexMap := Std.TreeMap UInt32 (List UInt8)

/-- The first block of a day that is seen. -/
def BlockDay.first (cb : CBlockIndex) : BlockDay :=
  { mDayNumber := 0, mBlockTime := cb.mTime, mMinBlockHeight := cb.mBlockHeight,
    mMaxBlockHeight := cb.mBlockHeight, mTransactionCount := cb.mTransactionCount, mBlockCount := 1 }

/-- One more block on the day. -/
def BlockDay.add (bd : BlockDay) (cb : CBlockIndex) : BlockDay :=
  { bd with
    mMinBlockHeight := if cb.mBlockHeight < bd.mMinBlockHeight then cb.mBlockHeight
      else bd.mMinBlockHeight
    mMaxBlockHeight := if bd.mMaxBlockHeight < cb.mBlockHeight then cb.mBlockHeight
      else bd.mMaxBlockHeight
    mTransactionCount := bd.mTransactionCount + cb.mTransactionCount
    mBlockCount := bd.mBlockCount + 1 }

def addToDay (mDays : BlockDayMap) (cb : CBlockIndex) : BlockDayMap :=
  match mDays[getBlockTime cb]? with
  | none => mDays.insert (getBlockTime cb) (.first cb)
  | some bd => mDays.insert (getBlockTime cb) (bd.add cb)

/-- The block of a height counts for its day, if there is one. -/
def addHeight (mBlocks : BlockIndexMap) (mDays : BlockDayMap) (i : UInt32) : BlockDayMap :=
  match mBlocks.lookup i with
  | none => mDays
  | some cb => addToDay mDays cb

/-- The loop over the heights. -/
def addHeights (mBlocks : BlockIndexMap) (blockHigh : UInt32) :
    Nat → UInt32 → BlockDayMap → Option BlockDayMap
  | 0, _, _ => none
  | fuel + 1, i, mDays =>
    if i ≤ blockHigh then addHeights mBlocks blockHigh fuel (i + 1) (addHeight mBlocks mDays i)
    else some mDays

/-! ## The class -/

structure BlocksImpl where
  mDayCount : UInt32
  mBlockHeight : UInt32
  mBlocks : BlockIndexMap
  mDays : BlockDayMap
  mDayIndex : DayIndexMap

/-- The next number goes to the day. -/
def BlocksImpl.numberDay (b : BlocksImpl) (day : List UInt8) : BlocksImpl :=
  { b with
    mDays := b.mDays.modify day (fun bd => { bd with mDayNumber := b.mDayCount })
    mDayIndex := b.mDayIndex.insert b.mDayCount day
    mDayCount := b.mDayCount + 1 }

/-- The constructor behind the loop over the records. Each height up to
`blockHigh` takes one turn of the loop over the heights; a loop with more turns
than that has come back to height 0 and never ends. -/
def RecordScan.finish (s : RecordScan) : Option BlocksImpl := do
  let fuel := s.blockHigh.toNat + 2
  let mDays ← addHeights s.mBlocks s.blockHigh fuel s.blockLow ∅
  let b : BlocksImpl :=
    { mDayCount := 0, mBlockHeight := s.mBlockHeight, mBlocks := s.mBlocks, mDays, mDayIndex := ∅ }
  return mDays.keys.foldl BlocksImpl.numberDay b

/-- The constructor on the records that the database gives for the prefix "b",
and whether it has reached `assert(0)`. -/
def BlocksImpl.new (records : List Entry) : Option (BlocksImpl × Bool) := do
  let s ← RecordScan.new.scan records
  let b ← s.finish
  return (b, s.assertReached)

def BlocksImpl.getBlockHeight (b : BlocksImpl) : UInt32 := b.mBlockHeight

def BlocksImpl.getBlockIndex (b : BlocksImpl) (blockHeight : UInt32) : Option CBlockIndex :=
  b.mBlocks.lookup blockHeight

def BlocksImpl.getDayCount (b : BlocksImpl) : UInt32 := b.mDayCount

def BlocksImpl.getDay (b : BlocksImpl) (dayIndex : UInt32) : Option (List UInt8) :=
  b.mDayIndex[dayIndex]?

end bitcoinstats.blocks
