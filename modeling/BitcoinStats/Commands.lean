-- The commands of `Commands.cpp`, and which blocks the block command reaches.
import BitcoinStats.RecordScan

open byte_memory keyed_set decimal_text bitcoinstats.block_chain bitcoinstats.block_index
  bitcoinstats.key_value_database bitcoinstats.blocks

namespace bitcoinstats.commands

/-! ## The commands -/

inductive CommandType where
  | help
  | bye
  | block
  | last
deriving DecidableEq

/-- What a command prints, or calls. -/
inductive Action where
  | printHelp
  | usage
  | failedToFindBlockHeight (argument : List UInt8)
  | invalidBlockHeight (argument : List UInt8)
  | unknownCommand (command : List UInt8)
  | parseBlock (cbi : CBlockIndex) (dataDir : List UInt8)
deriving DecidableEq

/-- The texts "help", "bye" and "block". -/
def helpText : List UInt8 := [104, 101, 108, 112]
def byeText : List UInt8 := [98, 121, 101]
def blockText : List UInt8 := [98, 108, 111, 99, 107]

structure CommandsImpl where
  mCommands : List (List UInt8 × CommandType)
  mBlocks : BlocksImpl
  mBlocksDir : List UInt8

/-- The constructor, for the data directory and the blocks of its index. -/
def CommandsImpl.new (mDataDir : List UInt8) (mBlocks : BlocksImpl) : CommandsImpl :=
  { mCommands := [(helpText, .help), (byeText, .bye), (blockText, .block)]
    mBlocks := mBlocks
    -- the text "/blocks"
    mBlocksDir := mDataDir ++ [47, 98, 108, 111, 99, 107, 115] }

def CommandsImpl.getCommandType (c : CommandsImpl) (str : List UInt8) : CommandType :=
  match c.mCommands.find? (fun command => command.1 = str) with
  | some found => found.2
  | none => .last

def isspace (c : UInt8) : Bool := c = 32 ∨ (9 ≤ c ∧ c ≤ 13)

/-- The number at the start of a string. One that an `int` does not hold, where
the result is undefined, is cut to 32 bits. -/
def atoi (str : List UInt8) : Int32 :=
  match str.dropWhile isspace with
  | 45 :: digits => Int32.ofInt (-digitsValue 0 (digits.takeWhile IsDigit))
  | 43 :: digits => Int32.ofInt (digitsValue 0 (digits.takeWhile IsDigit))
  | digits => Int32.ofInt (digitsValue 0 (digits.takeWhile IsDigit))

/-- The command "block". -/
def CommandsImpl.processBlock (c : CommandsImpl) (argument : List UInt8) : Action :=
  let block := atoi argument
  if 0 ≤ block ∧ block < c.mBlocks.getBlockHeight.toInt32 then
    match c.mBlocks.getBlockIndex block.toUInt32 with
    | some cbi => .parseBlock cbi c.mBlocksDir
    | none => .failedToFindBlockHeight argument
  else .invalidBlockHeight argument

/-- Whether the program is to end, and what is done. Each command has a case:
the default of the `switch` is not reached. -/
def CommandsImpl.processCommand (c : CommandsImpl) (argv : List (List UInt8)) :
    Bool × List Action :=
  match argv with
  | [] => (false, [])
  | command :: arguments =>
    match c.getCommandType command with
    | .bye => (true, [])
    | .help => (false, [.printHelp])
    | .block =>
      match arguments with
      | [] => (false, [.usage])
      | argument :: _ => (false, [c.processBlock argument])
    | .last => (false, [.unknownCommand command])

/-! ## The argument -/

theorem atoi_decimal (n : Nat) : atoi (decimal n) = Int32.ofInt n := by
  have hdigit := isDigit_decimal n
  have hspace : (decimal n).dropWhile isspace = decimal n := by
    cases hd : decimal n with
    | nil => rfl
    | cons c rest =>
      have hc := hdigit c (by rw [hd]; exact List.mem_cons_self)
      have hnot : isspace c = false := by
        unfold IsDigit at hc
        unfold isspace
        simp only [decide_eq_false_iff_not, UInt8.le_iff_toNat_le]
        rintro (rfl | ⟨-, hle⟩)
        · exact absurd hc (by decide)
        · have hthirteen : (13 : UInt8).toNat = 13 := rfl
          omega
      simp [hnot]
  have htake : (decimal n).takeWhile IsDigit = decimal n := by
    have hall : ((decimal n) ++ []).takeWhile IsDigit = decimal n ++ [].takeWhile IsDigit :=
      List.takeWhile_append_of_pos (fun c hc => by simpa using hdigit c hc)
    simpa using hall
  unfold atoi
  rw [hspace]
  split
  · rename_i digits hd
    exact absurd (hdigit 45 (by rw [hd]; exact List.mem_cons_self)) (by decide)
  · rename_i digits hd
    exact absurd (hdigit 43 (by rw [hd]; exact List.mem_cons_self)) (by decide)
  · rw [htake, digitsValue_decimal]

/-! ## The block command -/

def Action.isError : Action → Prop
  | .failedToFindBlockHeight _ => True
  | .invalidBlockHeight _ => True
  | _ => False

/-- The block of a height in the index, the first of them if there are more. -/
def blockOfHeight (cbs : List CBlockIndex) (n : Nat) : Option CBlockIndex :=
  cbs.find? (fun cb => cb.mBlockHeight.toNat = n)

/-- The command calls `parseBlock` with the block of the height, and only
reports an error when there is none. -/
def ReachesIndexed (c : CommandsImpl) (cbs : List CBlockIndex) (n : Nat) : Prop :=
  match blockOfHeight cbs n with
  | some cbi => c.processCommand [blockText, decimal n] = (false, [.parseBlock cbi c.mBlocksDir])
  | none => ∃ e : Action, e.isError ∧ c.processCommand [blockText, decimal n] = (false, [e])

/-- The tip: no block of the index is higher. -/
def IsTip (cbs : List CBlockIndex) (n : Nat) : Prop :=
  (∃ cb ∈ cbs, cb.mBlockHeight.toNat = n) ∧ ∀ cb ∈ cbs, cb.mBlockHeight.toNat ≤ n

theorem processCommand_block (mDataDir : List UInt8) (b : BlocksImpl) (argument : List UInt8) :
    (CommandsImpl.new mDataDir b).processCommand [blockText, argument] =
      (false, [(CommandsImpl.new mDataDir b).processBlock argument]) := by
  have htype : (CommandsImpl.new mDataDir b).getCommandType blockText = .block := by
    simp [CommandsImpl.getCommandType, CommandsImpl.new, helpText, byeText, blockText]
  unfold CommandsImpl.processCommand
  simp only [htype]

/-- The two conversions between `int` and `uint32_t`, below 2 ^ 31. -/
theorem processBlock_decimal {mDataDir : List UInt8} {b : BlocksImpl} {n : Nat} (hn : n < 2 ^ 31)
    (htop : b.getBlockHeight.toNat < 2 ^ 31) :
    (CommandsImpl.new mDataDir b).processBlock (decimal n) =
      if n < b.getBlockHeight.toNat then
        match b.getBlockIndex (UInt32.ofNat n) with
        | some cbi => .parseBlock cbi (CommandsImpl.new mDataDir b).mBlocksDir
        | none => .failedToFindBlockHeight (decimal n)
      else .invalidBlockHeight (decimal n) := by
  have hblock : (Int32.ofInt n).toInt = n := Int32.toInt_ofInt_of_le (by omega) (by omega)
  have hheight : b.getBlockHeight.toInt32.toInt = b.getBlockHeight.toNat := by
    have hofNat : b.getBlockHeight.toInt32 = Int32.ofNat b.getBlockHeight.toNat := by
      rw [← UInt32.toInt32_ofNat', UInt32.ofNat_toNat]
    rw [hofNat]
    exact Int32.toInt_ofNat_of_lt htop
  have hindex : (Int32.ofInt (n : Int)).toUInt32 = UInt32.ofNat n := by
    rw [Int32.ofInt_eq_ofNat, Int32.toUInt32_ofNat']
  have hrange : (0 ≤ Int32.ofInt (n : Int) ∧ Int32.ofInt (n : Int) < b.getBlockHeight.toInt32) ↔
      n < b.getBlockHeight.toNat := by
    have hzero : (0 : Int32).toInt = 0 := rfl
    rw [Int32.le_iff_toInt_le, Int32.lt_iff_toInt_lt, hblock, hheight, hzero]
    omega
  have hblocks : (CommandsImpl.new mDataDir b).mBlocks = b := rfl
  unfold CommandsImpl.processBlock
  simp only [atoi_decimal, hblocks, hindex, hrange]

/-- Below 2 ^ 31 the table finds the first record of a height. -/
theorem lookup_eq_blockOfHeight {cbs : List CBlockIndex} {s : RecordScan} (h : Scanned cbs s)
    (hheights : ∀ cb ∈ cbs, cb.mBlockHeight.toNat < 2 ^ 31) {n : Nat} (hn : n < 2 ^ 31) :
    s.mBlocks.lookup (UInt32.ofNat n) = blockOfHeight cbs n := by
  rw [h.mBlocks, KeyedSet.lookup_insertAll, KeyedSet.lookup_empty, Option.none_or, blockOfHeight]
  have hsame : ∀ cb ∈ cbs, (blockHeight cb = UInt32.ofNat n ↔ cb.mBlockHeight.toNat = n) := by
    intro cb hcb
    have hlt := hheights cb hcb
    have hsize : n < UInt32.size := lt_of_lt_of_le hn (by decide)
    rw [← UInt32.toNat_inj, blockHeight, UInt64.toNat_toUInt32, UInt32.toNat_ofNat_of_lt' hsize,
      Nat.mod_eq_of_lt (by omega)]
  clear h hheights
  induction cbs with
  | nil => rfl
  | cons cb cbs ih =>
    have hcb := hsame cb List.mem_cons_self
    have ih := ih (fun x hx => hsame x (List.mem_cons_of_mem cb hx))
    rw [List.find?_cons, List.find?_cons, ih]
    simp only [hcb]

theorem blockOfHeight_eq_none {cbs : List CBlockIndex} {n : Nat} :
    blockOfHeight cbs n = none ↔ ∀ cb ∈ cbs, cb.mBlockHeight.toNat ≠ n := by
  rw [blockOfHeight, List.find?_eq_none]
  simp

/-- What the command does on a table with these blocks. -/
theorem reachesIndexed_iff {mDataDir : List UInt8} {cbs : List CBlockIndex} {s : RecordScan}
    {b : BlocksImpl} {n : Nat} (h : Scanned cbs s) (hindex : b.mBlocks = s.mBlocks)
    (htop : b.getBlockHeight = s.mBlockHeight)
    (hheights : ∀ cb ∈ cbs, cb.mBlockHeight.toNat < 2 ^ 31) (hn : n < 2 ^ 31) :
    ReachesIndexed (CommandsImpl.new mDataDir b) cbs n ↔ ¬ IsTip cbs n := by
  have hnat : ∀ cb ∈ cbs, (blockHeight cb).toNat = cb.mBlockHeight.toNat := by
    intro cb hcb
    have hlt := hheights cb hcb
    rw [blockHeight, UInt64.toNat_toUInt32]
    exact Nat.mod_eq_of_lt (by omega)
  have hle : ∀ cb ∈ cbs, cb.mBlockHeight.toNat ≤ s.mBlockHeight.toNat := by
    intro cb hcb
    rw [← hnat cb hcb]
    exact UInt32.le_iff_toNat_le.mp (h.le_top cb hcb)
  have hattained : cbs = [] ∨ ∃ cb ∈ cbs, cb.mBlockHeight.toNat = s.mBlockHeight.toNat := by
    by_cases hnil : cbs = []
    · exact Or.inl hnil
    · obtain ⟨cb, hcb, hcbtop⟩ := h.top hnil
      exact Or.inr ⟨cb, hcb, by rw [← hnat cb hcb, hcbtop]⟩
  have hlt : b.getBlockHeight.toNat < 2 ^ 31 := by
    rw [htop]
    rcases hattained with hnil | ⟨cb, hcb, hcbtop⟩
    · rw [(h.empty hnil).1]
      decide
    · rw [← hcbtop]
      exact hheights cb hcb
  have hfound : b.getBlockIndex (UInt32.ofNat n) = blockOfHeight cbs n := by
    rw [BlocksImpl.getBlockIndex, hindex, lookup_eq_blockOfHeight h hheights hn]
  unfold ReachesIndexed
  rw [processCommand_block, processBlock_decimal hn hlt, hfound, htop]
  by_cases hbelow : n < s.mBlockHeight.toNat
  · rw [if_pos hbelow]
    refine iff_of_true ?_ ?_
    · cases blockOfHeight cbs n with
      | some cbi => rfl
      | none => exact ⟨.failedToFindBlockHeight (decimal n), trivial, rfl⟩
    · rintro ⟨⟨cb, hcb, -⟩, hmax⟩
      obtain ⟨top, htopmem, htopheight⟩ := hattained.resolve_left (List.ne_nil_of_mem hcb)
      have hle' := hmax top htopmem
      omega
  · rw [if_neg hbelow]
    cases hblock : blockOfHeight cbs n with
    | some cbi =>
      refine iff_of_false (by simp) (fun hnot => hnot ⟨?_, ?_⟩)
      · exact ⟨cbi, List.mem_of_find?_eq_some hblock, by simpa using List.find?_some hblock⟩
      · intro cb hcb
        exact (hle cb hcb).trans (Nat.not_lt.mp hbelow)
    | none =>
      refine iff_of_true ⟨.invalidBlockHeight (decimal n), trivial, rfl⟩ ?_
      rintro ⟨⟨cb, hcb, hheight⟩, -⟩
      exact blockOfHeight_eq_none.mp hblock cb hcb hheight

/-- The block command reaches every block of the index but its tip. -/
theorem the_block_command_reaches_exactly_what_is_not_the_tip (mDataDir : List UInt8)
    (records : List Entry) (cbs : List CBlockIndex)
    (hrecords : records.map decodeRecord = cbs.map some)
    (hheights : ∀ cb ∈ cbs, cb.mBlockHeight.toNat < 2 ^ 31) (n : Nat) (hn : n < 2 ^ 31) :
    ∃ b reached, BlocksImpl.new records = some (b, reached) ∧
      (ReachesIndexed (CommandsImpl.new mDataDir b) cbs n ↔ ¬ IsTip cbs n) := by
  obtain ⟨s, h, hnew⟩ := new_eq hrecords
  have hhigh : s.blockHigh ≠ 0xFFFFFFFF := by
    intro hlast
    rw [h.high] at hlast
    by_cases hnil : cbs = []
    · rw [(h.empty hnil).1] at hlast
      exact absurd hlast (by decide)
    · obtain ⟨cb, hcb, hcbtop⟩ := h.top hnil
      have hnat := congrArg UInt32.toNat (hcbtop.trans hlast)
      have hlt := hheights cb hcb
      have hmax : (0xFFFFFFFF : UInt32).toNat = 2 ^ 32 - 1 := rfl
      rw [blockHeight, UInt64.toNat_toUInt32, Nat.mod_eq_of_lt (by omega)] at hnat
      omega
  rw [if_neg hhigh] at hnew
  obtain ⟨htop, hblocks⟩ := numberDays_frame s.days.keys s.collected
  exact ⟨_, _, hnew, reachesIndexed_iff h hblocks htop hheights hn⟩

/-! ## A chain of one block -/

/-- The record of a block of height 0: no varint above 0 but the version, and zeros. -/
def rootRecord : Entry := (98 :: List.replicate 32 7, [1, 0, 0, 1] ++ List.replicate 80 0)

def rootBlock : CBlockIndex :=
  { CBlockIndex.new (Vector.replicate 32 7) with mVersionNumber := 1, mTransactionCount := 1 }

theorem block_1_is_reached_exactly_unless_it_is_the_tip : ∃ b reached,
    BlocksImpl.new [rootRecord] = some (b, reached) ∧
      (ReachesIndexed (CommandsImpl.new [] b) [rootBlock] 1 ↔ ¬ IsTip [rootBlock] 1) :=
  the_block_command_reaches_exactly_what_is_not_the_tip [] [rootRecord] [rootBlock]
    (by decide +kernel) (by decide +kernel) 1 (by decide)

/-- The only block is the tip, and is not reached. -/
theorem the_only_block_is_not_reached : ∃ b reached,
    BlocksImpl.new [rootRecord] = some (b, reached) ∧ b.getBlockIndex 0 = some rootBlock ∧
      (CommandsImpl.new [] b).processCommand [blockText, decimal 0] =
        (false, [.invalidBlockHeight (decimal 0)]) ∧
      ¬ ReachesIndexed (CommandsImpl.new [] b) [rootBlock] 0 := by
  have hnew : (BlocksImpl.new [rootRecord]).map (fun r => (r.1.getBlockIndex 0,
      (CommandsImpl.new [] r.1).processCommand [blockText, decimal 0])) =
        some (some rootBlock, (false, [.invalidBlockHeight (decimal 0)])) := by decide +kernel
  obtain ⟨⟨b, reached⟩, hb, hresult⟩ := Option.map_eq_some_iff.mp hnew
  obtain ⟨hindex, hcommand⟩ := Prod.mk.inj hresult
  refine ⟨b, reached, hb, hindex, hcommand, ?_⟩
  intro hreaches
  have hblock : blockOfHeight [rootBlock] 0 = some rootBlock := by decide +kernel
  unfold ReachesIndexed at hreaches
  rw [hblock] at hreaches
  simp only [hcommand] at hreaches
  cases hreaches

end bitcoinstats.commands
