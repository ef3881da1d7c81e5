-- The warning flag of the block that `readBlock` gives: its own warnings, and
-- one that a transaction which was read again has left behind.
import BitcoinStats.BlockWarnings
import BitcoinStats.SingleTransaction

open byte_memory keyed_set exec cursor runs bitcoinstats.bitcoin_address

namespace bitcoinstats.block_chain

/-! ## The claim about one call -/

variable (H : Hashes)

/-- The parser issues a warning on these bytes alone. -/
def OwnWarning (bytes : List UInt8) : Prop :=
  (finalState ((processBlockData H (overlay bytes fun _ => 0) (UInt32.ofNat bytes.length)).run
    default)).gIsWarning = true

/-- The bytes start with a block whose transactions all are there. -/
def StartsWhole (bytes : List UInt8) : Prop :=
  ∃ (w : WholeBlock) (rest : List UInt8), bytes = w.bytes ++ rest

def BlockChainImpl.raise (b : BlockChainImpl) : BlockChainImpl := { b with gIsWarning := true }

def BlockChainImpl.lower (b : BlockChainImpl) : BlockChainImpl := { b with gIsWarning := false }

/-- The call raises the warning by itself, and leaves it so. -/
def RaisesWarning (b : BlockChainImpl) (call : Call) : Prop :=
  ∃ b', Step H b.lower call b' ∧ b'.gIsWarning = true

/-- A call of `readBlock` on a block of the chain takes the warning down. -/
def TakesWarning (b : BlockChainImpl) (call : Call) : Prop :=
  ∃ blockIndex returned, call = .readBlock blockIndex returned ∧ blockIndex < b.mBlockCount

/-- A call of the run has raised the warning, and none behind it has taken it down. -/
inductive WarningLeft (b0 : BlockChainImpl) : List Call → BlockChainImpl → Prop
  | raised {calls : List Call} {s t : BlockChainImpl} {call : Call}
      (before : Run (Step H) b0 calls s) (last : Step H s call t) (raises : RaisesWarning H s call) :
      WarningLeft b0 (calls ++ [call]) t
  | stays {calls : List Call} {s t : BlockChainImpl} {call : Call}
      (before : WarningLeft b0 calls s) (last : Step H s call t) (other : ¬ TakesWarning s call) :
      WarningLeft b0 (calls ++ [call]) t

/-! ## A warning from before -/

def ParseState.raise (s : ParseState) : ParseState := { s with gIsWarning := true }

variable {H}

/-- The parser does the same whether there was a warning or not. -/
theorem raise_kept : KeptByParser H (fun s s' => s' = s.raise) where
  peek := by rintro s _ rfl n; rfl
  mBlockRead := by rintro s _ rfl; rfl
  totalInputCount := by rintro s _ rfl; rfl
  totalOutputCount := by rintro s _ rfl; rfl
  advance := by rintro s _ n rfl; rfl
  addReward := by rintro s _ value rfl; rfl
  storeInput := by rintro s _ k input rfl; rfl
  storeOutput := by rintro s _ k output rfl; rfl
  setVersion := by
    rintro s _ k version rfl
    unfold ParseState.setVersion ParseState.raise
    by_cases h : version = 1 ∨ version = 2
    · rw [if_pos h]
      rfl
    · rw [if_neg h]
      rfl
  setInputs := by rintro s _ k count rfl; rfl
  setOutputs := by rintro s _ k count rfl; rfl
  finishTransaction := by rintro s _ k p q lockTime rfl; rfl
  setHeader := by rintro s _ v p m t b n c rfl; rfl

theorem parseTransaction_raise (b : BlockChainImpl) (f : FileLocation) :
    b.raise.parseTransaction H f = (b.parseTransaction H f).map BlockChainImpl.raise := by
  have hstart : b.raise.transactionStart f = (b.transactionStart f).raise := rfl
  have hrun := run_map_of_related (related_readTransaction (raise_kept (H := H)) 0)
    (b.transactionStart f)
  rw [parseTransaction_eq, parseTransaction_eq, hstart, hrun]
  cases (readTransaction H 0).run (b.transactionStart f) with
  | error reason s => rfl
  | ok ok s =>
    cases ok with
    | true => rfl
    | false => rfl

theorem readTransactionAt_raise (b : BlockChainImpl) (f : FileLocation) :
    b.raise.readTransactionAt H f =
      (b.readTransactionAt H f).map (fun r => (r.1, r.2.raise)) := by
  have hread : b.raise.transactionRead f = (b.transactionRead f).raise := rfl
  rw [readTransactionAt_eq, readTransactionAt_eq]
  by_cases hplace : b.Locates f
  · rw [if_pos hplace, if_pos (by exact hplace)]
    by_cases hcan : b.CanReadTransaction f
    · rw [if_pos hcan, if_pos (by exact hcan), hread, parseTransaction_raise]
      cases (b.transactionRead f).parseTransaction H f with
      | error reason => rfl
      | ok b' => rfl
    · rw [if_neg hcan, if_neg (by exact hcan)]
      rfl
  · rw [if_neg hplace, if_neg (by exact hplace)]
    rfl

theorem readSingleTransaction_raise (b : BlockChainImpl) (transactionHash : Hash256) :
    b.raise.readSingleTransaction H transactionHash =
      (b.readSingleTransaction H transactionHash).map (fun r => (r.1, r.2.raise)) := by
  have hset : b.raise.mTransactionSet = b.mTransactionSet := rfl
  unfold BlockChainImpl.readSingleTransaction
  rw [hset]
  cases b.mTransactionSet.lookup transactionHash with
  | none => rfl
  | some f => exact readTransactionAt_raise b f

theorem readTransactionsAgain_raise (b : BlockChainImpl) (hashes : List Hash256) :
    b.raise.readTransactionsAgain H hashes =
      (b.readTransactionsAgain H hashes).map BlockChainImpl.raise := by
  induction hashes generalizing b with
  | nil => rfl
  | cons hash hashes ih =>
    unfold BlockChainImpl.readTransactionsAgain
    rw [readSingleTransaction_raise]
    cases b.readSingleTransaction H hash with
    | error reason => rfl
    | ok r => exact ih r.2

theorem printBlock_raise (b : BlockChainImpl) :
    b.raise.printBlock H = (b.printBlock H).map BlockChainImpl.raise :=
  readTransactionsAgain_raise b _

/-- A call that does the same with the warning up does it with the warning
down as well, and the warning behind it is the one from before or its own. -/
theorem warning_of_raise {β : Type} {f : BlockChainImpl → Except Shutdown β}
    {g : β → BlockChainImpl} {u : β → β} (hup : ∀ r, (g (u r)).gIsWarning = true)
    (hcall : ∀ b, f b.raise = (f b).map u) {b : BlockChainImpl} {r : β} (h : f b = .ok r) :
    ∃ t, f b.lower = .ok t ∧ (r = t ∨ r = u t) ∧
      (g r).gIsWarning = (b.gIsWarning || (g t).gIsWarning) := by
  cases hold : b.gIsWarning with
  | false =>
    have hlower : b.lower = b := by
      unfold BlockChainImpl.lower
      rw [← hold]
    exact ⟨r, by rw [hlower, h], Or.inl rfl, (Bool.false_or _).symm⟩
  | true =>
    have hraise : b.lower.raise = b := by
      unfold BlockChainImpl.raise BlockChainImpl.lower
      rw [← hold]
    have hmap := hcall b.lower
    rw [hraise, h] at hmap
    cases hlow : f b.lower with
    | error reason =>
      rw [hlow] at hmap
      cases hmap
    | ok t =>
      rw [hlow] at hmap
      obtain rfl := Except.ok.inj hmap
      exact ⟨t, rfl, Or.inr rfl, by rw [hup, Bool.true_or]⟩

/-! ## The flag behind a call of `readBlock` -/

theorem readBlock_warning {b b' : BlockChainImpl} {blockIndex : UInt32} {returned : Bool}
    (hrange : blockIndex < b.mBlockCount) (h : b.readBlock H blockIndex = .ok (returned, b')) :
    b'.gIsWarning = false := by
  rcases readBlock_cases H h with ⟨hle, -, -⟩ | ⟨-, s, -, rfl⟩ | ⟨-, s, b2, -, -, rfl⟩
  · exact absurd hrange (UInt32.not_lt.mpr hle)
  · rfl
  · rfl

theorem readBlock_outOfRange {b b' : BlockChainImpl} {blockIndex : UInt32} {returned : Bool}
    (hrange : ¬ blockIndex < b.mBlockCount) (h : b.readBlock H blockIndex = .ok (returned, b')) :
    b' = b := by
  rcases readBlock_cases H h with ⟨-, -, rfl⟩ | ⟨-, s, hs, -⟩ | ⟨-, s, b2, hs, -, -⟩
  · rfl
  · exact absurd hs.inRange hrange
  · exact absurd hs.inRange hrange

/-- The warnings of a block do not depend on what lies behind it. -/
theorem ownWarning_iff {bytes rest : List UInt8} {w : WholeBlock} (h : bytes = w.bytes ++ rest)
    (mem : Memory) : OwnWarning H bytes ↔
      transactionsWarn (overlay bytes mem) w.transactionsStart w.transactions = true := by
  have hsees := holds_overlay_append h fun _ => 0
  obtain ⟨s0, hs0⟩ : ∃ s0, s0 = (default : ParseState).setBlockData (overlay bytes fun _ => 0)
    (UInt32.ofNat bytes.length) := ⟨_, rfl⟩
  have hsees0 : Sees s0 w.bytes := by
    rw [hs0]
    exact hsees
  obtain ⟨s', hrun, -⟩ := w.readBlockData_run H (s := s0) (by rw [hs0]; rfl) (by rw [hs0]; rfl) hsees0
  have hflags := w.run_flags H (by rw [hs0]; rfl) (by rw [hs0]; rfl) (by rw [hs0]; rfl)
    (by rw [hs0]; rfl) hsees0 hrun
  have hwarning : s'.gIsWarning =
      transactionsWarn (overlay bytes fun _ => 0) w.transactionsStart w.transactions := by
    have hfirst := (Prod.mk.inj hflags).1
    rw [hs0] at hfirst
    exact hfirst
  have hfinal : (finalState ((processBlockData H (overlay bytes fun _ => 0)
      (UInt32.ofNat bytes.length)).run default)).gIsWarning = s'.gIsWarning := by
    rw [hs0] at hrun
    exact congrArg (fun r => (finalState r).gIsWarning) hrun
  unfold OwnWarning
  rw [hfinal, hwarning, transactionsWarn_congr (WholeBlock.holds_transactions hsees)
    (WholeBlock.holds_transactions (holds_overlay_append h mem))]

/-- The flag of the block is the warning from before or its own. -/
theorem readBlock_flag {b b' : BlockChainImpl} {blockIndex : UInt32}
    (hreport : b.gReportTransactionHash = false)
    (h : b.readBlock H blockIndex = .ok (true, b'))
    (hwhole : StartsWhole (b.chunkOf (b.headerAt blockIndex))) :
    b'.mSingleReadBlock.warning = true ↔
      b.gIsWarning = true ∨ OwnWarning H (b.chunkOf (b.headerAt blockIndex)) := by
  rcases readBlock_cases H h with ⟨-, hfalse, -⟩ | ⟨hfalse, -⟩ | ⟨-, s, b2, hs, hindexed, rfl⟩
  · cases hfalse
  · cases hfalse
  · obtain ⟨w, rest, hbytes⟩ := hwhole
    have hflags := w.run_flags H (s := b.parseStart H blockIndex) rfl rfl rfl hreport
      (holds_overlay_append hbytes b.mBlockDataBuffer) hs.run_eq
    obtain ⟨total, inputs, outputs, set, rfl⟩ := hindexed.frame
    have hwarning : s.gIsWarning = (b.gIsWarning ||
      transactionsWarn (b.dataOf (b.headerAt blockIndex)) w.transactionsStart w.transactions) :=
        (Prod.mk.inj hflags).1
    have hflag : s.gIsWarning = true ↔ b.gIsWarning = true ∨
        OwnWarning H (b.chunkOf (b.headerAt blockIndex)) := by
      rw [hwarning, Bool.or_eq_true, ownWarning_iff hbytes b.mBlockDataBuffer]
      rfl
    exact hflag

/-! ## No report between the calls -/

/-- The parser has reported what it had to, whatever the call was. -/
theorem readBlock_report {b b' : BlockChainImpl} {blockIndex : UInt32} {returned : Bool}
    (hreport : b.gReportTransactionHash = false)
    (h : b.readBlock H blockIndex = .ok (returned, b')) : b'.gReportTransactionHash = false := by
  rcases readBlock_cases H h with ⟨-, -, rfl⟩ | ⟨-, s, hs, rfl⟩ | ⟨-, s, b2, hs, hindexed, rfl⟩
  · exact hreport
  · obtain ⟨w, hw⟩ := hs.rejected
    exact w.run_report H (s := b.parseStart H blockIndex) rfl rfl hreport hw hs.run_eq
  · obtain ⟨w, hw, -⟩ := hs.whole
    have hflags := w.run_flags H (s := b.parseStart H blockIndex) rfl rfl rfl hreport hw hs.run_eq
    obtain ⟨total, inputs, outputs, set, rfl⟩ := hindexed.frame
    exact (Prod.mk.inj hflags).2

theorem parseTransaction_report {b b' : BlockChainImpl} {f : FileLocation}
    (hreport : b.gReportTransactionHash = false) (h : b.parseTransaction H f = .ok b') :
    b'.gReportTransactionHash = false := by
  obtain ⟨s, hrun, rfl⟩ := parseTransaction_ok H h
  obtain ⟨w, rs, -, -, rfl⟩ := readTransaction_ok H hrun
  have hflags := transactionChange_flags H 0 (b.transactionStart f).block.mBlockRead
    (b.transactionStart f).block.totalInputCount (b.transactionStart f).block.totalOutputCount w
    (moved (b.transactionStart f) w.bytes.length rs) hreport
  exact (Prod.mk.inj hflags).2

theorem readSingleTransaction_report {b b' : BlockChainImpl} {transactionHash : Hash256}
    {returned : Bool} (hreport : b.gReportTransactionHash = false)
    (h : b.readSingleTransaction H transactionHash = .ok (returned, b')) :
    b'.gReportTransactionHash = false := by
  unfold BlockChainImpl.readSingleTransaction at h
  split at h
  · obtain ⟨-, rfl⟩ := Prod.mk.inj (Except.ok.inj h)
    exact hreport
  · rename_i f _
    rw [readTransactionAt_eq] at h
    split at h
    · split at h
      · cases hparse : (b.transactionRead f).parseTransaction H f with
        | error reason =>
          rw [hparse] at h
          cases h
        | ok b1 =>
          rw [hparse] at h
          obtain ⟨-, rfl⟩ := Prod.mk.inj (Except.ok.inj h)
          have hread : (b.transactionRead f).gReportTransactionHash = false := hreport
          have hparsed : b1.gReportTransactionHash = false := parseTransaction_report hread hparse
          exact hparsed
      · obtain ⟨-, rfl⟩ := Prod.mk.inj (Except.ok.inj h)
        exact hreport
    · obtain ⟨-, rfl⟩ := Prod.mk.inj (Except.ok.inj h)
      exact hreport

theorem readTransactionsAgain_report {b b' : BlockChainImpl} {hashes : List Hash256}
    (hreport : b.gReportTransactionHash = false) (h : b.readTransactionsAgain H hashes = .ok b') :
    b'.gReportTransactionHash = false := by
  induction hashes generalizing b with
  | nil =>
    obtain rfl := Except.ok.inj h
    exact hreport
  | cons hash hashes ih =>
    unfold BlockChainImpl.readTransactionsAgain at h
    obtain ⟨⟨returned, b1⟩, hread, hrest⟩ := bind_eq_ok.mp h
    exact ih (readSingleTransaction_report hreport hread) hrest

theorem report_step {b b' : BlockChainImpl} {call : Call}
    (hreport : b.gReportTransactionHash = false) (h : Step H b call b') :
    b'.gReportTransactionHash = false := by
  cases h with
  | scanBlockChain lastBlockRead =>
    obtain ⟨fs, i, n, last, set, count, hscan⟩ := scanOnly_scanBlockChain H b lastBlockRead
    rw [hscan]
    exact hreport
  | buildBlockChain hbuild =>
    obtain ⟨headers, count, scanned, rfl⟩ := buildBlockChain_frame hbuild
    exact hreport
  | readBlock hread => exact readBlock_report hreport hread
  | readSingleTransaction hread => exact readSingleTransaction_report hreport hread
  | printBlock hprint => exact readTransactionsAgain_report hreport hprint

/-! ## The warning along a run -/

theorem not_takesWarning {b : BlockChainImpl} {call : Call}
    (h : ∀ blockIndex returned, call = .readBlock blockIndex returned → b.mBlockCount ≤ blockIndex) :
    ¬ TakesWarning b call := by
  rintro ⟨blockIndex, returned, hcall, hlt⟩
  exact absurd hlt (UInt32.not_lt.mpr (h blockIndex returned hcall))

/-- A call that has nothing to do with the warning. -/
theorem warning_step_of_kept {b b' : BlockChainImpl} {call : Call} (h : b'.gIsWarning = b.gIsWarning)
    (hlower : ∀ t, Step H b.lower call t → t.gIsWarning = false) (hother : ¬ TakesWarning b call) :
    b'.gIsWarning = true ↔
      RaisesWarning H b call ∨ b.gIsWarning = true ∧ ¬ TakesWarning b call := by
  rw [h]
  constructor
  · intro hwarning
    exact Or.inr ⟨hwarning, hother⟩
  · rintro (⟨t, hstep, ht⟩ | ⟨hwarning, -⟩)
    · rw [hlower t hstep] at ht
      cases ht
    · exact hwarning

/-- A call that adds its own warning. -/
theorem warning_step_of_own {b b' : BlockChainImpl} {call : Call} {own : Bool}
    (h : b'.gIsWarning = (b.gIsWarning || own))
    (hlower : RaisesWarning H b call ↔ own = true) (hother : ¬ TakesWarning b call) :
    b'.gIsWarning = true ↔
      RaisesWarning H b call ∨ b.gIsWarning = true ∧ ¬ TakesWarning b call := by
  rw [h, Bool.or_eq_true, hlower]
  constructor
  · rintro (hwarning | hown)
    · exact Or.inr ⟨hwarning, hother⟩
    · exact Or.inl hown
  · rintro (hown | ⟨hwarning, -⟩)
    · exact Or.inr hown
    · exact Or.inl hwarning

theorem scanBlockChain_warning (b : BlockChainImpl) (lastBlockRead : UInt32) :
    (b.scanBlockChain H lastBlockRead).2.2.gIsWarning = b.gIsWarning := by
  obtain ⟨fs, i, n, last, set, count, hscan⟩ := scanOnly_scanBlockChain H b lastBlockRead
  rw [hscan]
  rfl

theorem buildBlockChain_warning {b b' : BlockChainImpl} {blockCount : UInt32}
    (h : b.buildBlockChain = some (blockCount, b')) : b'.gIsWarning = b.gIsWarning := by
  obtain ⟨headers, count, scanned, rfl⟩ := buildBlockChain_frame h
  rfl

theorem warning_step_readBlock {b b' : BlockChainImpl} {blockIndex : UInt32} {returned : Bool}
    (h : b.readBlock H blockIndex = .ok (returned, b')) : b'.gIsWarning = true ↔
      RaisesWarning H b (.readBlock blockIndex returned) ∨
        b.gIsWarning = true ∧ ¬ TakesWarning b (.readBlock blockIndex returned) := by
  by_cases hrange : blockIndex < b.mBlockCount
  · rw [readBlock_warning hrange h]
    refine iff_of_false Bool.false_ne_true ?_
    rintro (⟨t, hstep, ht⟩ | ⟨-, hno⟩)
    · cases hstep with
      | readBlock h' =>
        have hlower : blockIndex < b.lower.mBlockCount := hrange
        rw [readBlock_warning hlower h'] at ht
        cases ht
    · exact hno ⟨blockIndex, returned, rfl, hrange⟩
  · obtain rfl := readBlock_outOfRange hrange h
    refine warning_step_of_kept rfl ?_ (not_takesWarning ?_)
    · intro t hstep
      cases hstep with
      | readBlock h' =>
        have hlower : ¬ blockIndex < b'.lower.mBlockCount := hrange
        rw [readBlock_outOfRange hlower h']
        rfl
    · intro i r hcall
      obtain ⟨rfl, -⟩ := Call.readBlock.inj hcall
      exact UInt32.not_lt.mp hrange

theorem warning_step_readSingleTransaction {b b' : BlockChainImpl} {transactionHash : Hash256}
    {returned : Bool} (h : b.readSingleTransaction H transactionHash = .ok (returned, b')) :
    b'.gIsWarning = true ↔ RaisesWarning H b (.readSingleTransaction transactionHash returned) ∨
      b.gIsWarning = true ∧ ¬ TakesWarning b (.readSingleTransaction transactionHash returned) := by
  obtain ⟨⟨returned', t⟩, hlow, hsame, hwarning⟩ := warning_of_raise
    (f := fun b => b.readSingleTransaction H transactionHash) (g := Prod.snd)
    (u := fun r => (r.1, r.2.raise)) (fun _ => rfl)
    (fun b => readSingleTransaction_raise b transactionHash) h
  have hreturned : returned' = returned := by
    rcases hsame with hr | hr
    · exact (Prod.mk.inj hr).1.symm
    · exact (Prod.mk.inj hr).1.symm
  subst hreturned
  refine warning_step_of_own hwarning ?_ (not_takesWarning (fun i r hcall => by cases hcall))
  constructor
  · rintro ⟨t', hstep, ht'⟩
    cases hstep with
    | readSingleTransaction h' =>
      rw [h'] at hlow
      obtain ⟨-, rfl⟩ := Prod.mk.inj (Except.ok.inj hlow)
      exact ht'
  · intro ht
    exact ⟨t, .readSingleTransaction hlow, ht⟩

theorem warning_step_printBlock {b b' : BlockChainImpl} (h : b.printBlock H = .ok b') :
    b'.gIsWarning = true ↔
      RaisesWarning H b .printBlock ∨ b.gIsWarning = true ∧ ¬ TakesWarning b .printBlock := by
  obtain ⟨t, hlow, -, hwarning⟩ := warning_of_raise (f := fun b => b.printBlock H) (g := id)
    (u := BlockChainImpl.raise) (fun _ => rfl) printBlock_raise h
  refine warning_step_of_own hwarning ?_ (not_takesWarning (fun i r hcall => by cases hcall))
  constructor
  · rintro ⟨t', hstep, ht'⟩
    cases hstep with
    | printBlock h' =>
      rw [hlow] at h'
      obtain rfl := Except.ok.inj h'
      exact ht'
  · intro ht
    exact ⟨t, .printBlock hlow, ht⟩

/-- Behind each call the warning is one that the call has raised, or the one
from before if the call has not taken it down. -/
theorem warning_step {b b' : BlockChainImpl} {call : Call} (h : Step H b call b') :
    b'.gIsWarning = true ↔
      RaisesWarning H b call ∨ b.gIsWarning = true ∧ ¬ TakesWarning b call := by
  cases h with
  | scanBlockChain lastBlockRead =>
    refine warning_step_of_kept (scanBlockChain_warning b lastBlockRead) ?_
      (not_takesWarning (fun i r hcall => by cases hcall))
    intro t hstep
    cases hstep
    exact scanBlockChain_warning b.lower _
  | buildBlockChain hbuild =>
    refine warning_step_of_kept (buildBlockChain_warning hbuild) ?_
      (not_takesWarning (fun i r hcall => by cases hcall))
    intro t hstep
    cases hstep with
    | buildBlockChain hbuild' => exact buildBlockChain_warning hbuild'
  | readBlock hread => exact warning_step_readBlock hread
  | readSingleTransaction hread => exact warning_step_readSingleTransaction hread
  | printBlock hprint => exact warning_step_printBlock hprint

theorem warningLeft_iff {b0 b : BlockChainImpl} {calls : List Call}
    (hwarning : b0.gIsWarning = false) (hrun : Run (Step H) b0 calls b) :
    WarningLeft H b0 calls b ↔ b.gIsWarning = true := by
  constructor
  · intro hleft
    clear hrun
    induction hleft with
    | raised before last raises => exact (warning_step last).mpr (Or.inl raises)
    | stays before last other ih => exact (warning_step last).mpr (Or.inr ⟨ih, other⟩)
  · intro hb
    induction hrun with
    | nil =>
      rw [hwarning] at hb
      cases hb
    | snoc before last ih =>
      rcases (warning_step last).mp hb with hraises | ⟨hs, hother⟩
      · exact .raised before last hraises
      · exact .stays (ih hs) last hother

/-- The flag of a block that is given tells of its own warnings exactly when it
has one, or no warning was left behind by a transaction that was read again. -/
theorem the_warning_is_the_blocks_own_exactly_when_none_was_left (H : Hashes)
    (b0 b b' : BlockChainImpl) (calls : List Call) (blockIndex : UInt32)
    (hwarning : b0.gIsWarning = false) (hreport : b0.gReportTransactionHash = false)
    (hrun : Run (Step H) b0 calls b) (hread : b.readBlock H blockIndex = .ok (true, b'))
    (hwhole : StartsWhole (b.chunkOf (b.headerAt blockIndex))) :
    (b'.mSingleReadBlock.warning = true ↔ OwnWarning H (b.chunkOf (b.headerAt blockIndex))) ↔
      (OwnWarning H (b.chunkOf (b.headerAt blockIndex)) ∨ ¬ WarningLeft H b0 calls b) := by
  have hclear : b.gReportTransactionHash = false :=
    hrun.invariant (fun _ s => s.gReportTransactionHash = false) hreport
      (fun _ _ _ _ _ hs hstep => report_step hs hstep)
  rw [readBlock_flag hclear hread hwhole, warningLeft_iff hwarning hrun]
  by_cases hown : OwnWarning H (b.chunkOf (b.headerAt blockIndex))
  · simp [hown]
  · simp [hown]

/-! ## A warning that is left behind -/

/-- A header of zeros, and a transaction of the version 3. -/
def versionThreeBlock : List UInt8 := List.replicate 80 0 ++ [1] ++ plainTransaction 3

/-- The header behind it, and no transaction. -/
def quietBlock : List UInt8 :=
  List.replicate 4 0 ++ zeroHeaderHash.toList ++ List.replicate 44 0 ++ [0]

def quietBlockSHA256 : Hash256 :=
  #v[66, 73, 19, 96, 86, 15, 20, 126, 20, 81, 84, 23, 255, 14, 199, 211,
    219, 183, 166, 87, 89, 134, 21, 143, 168, 46, 103, 195, 73, 180, 84, 8]

def quietBlockHash : Hash256 :=
  #v[22, 254, 34, 161, 224, 34, 226, 14, 86, 154, 15, 43, 80, 73, 170, 12,
    49, 88, 239, 152, 58, 209, 118, 67, 40, 29, 43, 100, 240, 134, 122, 70]

def versionThreeSHA256 : Hash256 :=
  #v[173, 233, 210, 155, 146, 102, 186, 1, 238, 61, 214, 173, 181, 124, 15, 119,
    229, 156, 162, 16, 68, 26, 0, 83, 218, 59, 157, 148, 18, 65, 63, 65]

def versionThreeHash : Hash256 :=
  #v[238, 85, 127, 26, 147, 222, 241, 44, 81, 43, 197, 86, 14, 146, 128, 33,
    143, 204, 52, 68, 224, 106, 167, 40, 19, 251, 131, 151, 82, 15, 88, 107]

/-- SHA-256 on the two headers and the transaction, and on its results there. -/
def twoBlockHashes : Hashes where
  computeSHA256 bytes :=
    if bytes = List.replicate 80 0 then zeroHeaderSHA256
    else if bytes = zeroHeaderSHA256.toList then zeroHeaderHash
    else if bytes = quietBlock.take 80 then quietBlockSHA256
    else if bytes = quietBlockSHA256.toList then quietBlockHash
    else if bytes = plainTransaction 3 then versionThreeSHA256
    else versionThreeHash
  computeRIPEMD160 _ := Vector.replicate 20 0

/-- The memory of an interface whose one file has the two blocks. -/
def twoBlocks : BlockChainImpl :=
  { (default : BlockChainImpl) with
    disk := fun i =>
      if i = 0 then some ([versionThreeBlock, quietBlock].flatMap (fun data =>
        leBytes 4 MAGIC_ID.toNat ++ leBytes 4 data.length ++ data))
      else none }

/-- The interface once the two blocks are scanned. -/
def twoBlocksScanned : BlockChainImpl :=
  (((BlockChainImpl.new twoBlocks 4).scanBlockChain twoBlockHashes 0).2.2.scanBlockChain
    twoBlockHashes 0).2.2

/-- What the build, the first block, its transaction and the second block give. -/
structure ReadAgain where
  built : UInt32 × BlockChainImpl
  first : Bool × BlockChainImpl
  again : Bool × BlockChainImpl
  second : Bool × BlockChainImpl

def readAgain : Option ReadAgain := do
  let built ← twoBlocksScanned.buildBlockChain
  let first ← (built.2.readBlock twoBlockHashes 0).toOption
  let again ← (first.2.readSingleTransaction twoBlockHashes versionThreeHash).toOption
  let second ← (again.2.readBlock twoBlockHashes 1).toOption
  some { built, first, again, second }

theorem readAgain_returned : readAgain.map (fun r => [r.first.1, r.again.1, r.second.1]) =
    some [true, true, true] := by
  decide +kernel

/-- The flag is up for the first block and taken down, left up by its
transaction, and up for the second block. -/
theorem readAgain_flags : readAgain.map (fun r =>
      [r.first.2.mSingleReadBlock.warning, r.first.2.gIsWarning, r.again.2.gIsWarning,
        r.second.2.mSingleReadBlock.warning]) = some [true, false, true, true] := by
  decide +kernel

theorem readAgain_chunk :
    readAgain.map (fun r => r.again.2.chunkOf (r.again.2.headerAt 1)) = some quietBlock := by
  decide +kernel

theorem quietBlock_startsWhole : StartsWhole quietBlock := by
  refine ⟨⟨⟨0, zeroHeaderHash, Vector.replicate 32 0, 0, 0, 0⟩, .oneByte 0 (by decide), [],
    by decide, rfl, .nil 0 0⟩, [], ?_⟩
  decide

theorem quietBlock_not_ownWarning : ¬ OwnWarning twoBlockHashes quietBlock := by
  unfold OwnWarning
  decide +kernel

/-- The calls up to the second block. -/
def readAgainCalls : List Call :=
  [.scanBlockChain, .scanBlockChain, .buildBlockChain, .readBlock 0 true,
    .readSingleTransaction versionThreeHash true]

theorem readAgain_run : ∃ b b', Run (Step twoBlockHashes) (.new twoBlocks 4) readAgainCalls b ∧
    b.readBlock twoBlockHashes 1 = .ok (true, b') ∧ b'.mSingleReadBlock.warning = true ∧
    b.chunkOf (b.headerAt 1) = quietBlock := by
  obtain ⟨r, hr, hreturned⟩ := Option.map_eq_some_iff.mp readAgain_returned
  have hflags := readAgain_flags
  have hchunk := readAgain_chunk
  rw [hr, Option.map_some] at hflags hchunk
  replace hflags := Option.some.inj hflags
  replace hchunk := Option.some.inj hchunk
  unfold readAgain at hr
  obtain ⟨⟨count, built⟩, hbuild, hr⟩ := Option.bind_eq_some_iff.mp hr
  obtain ⟨⟨r1, first⟩, hfirst, hr⟩ := Option.bind_eq_some_iff.mp hr
  obtain ⟨⟨r2, again⟩, hagain, hr⟩ := Option.bind_eq_some_iff.mp hr
  obtain ⟨⟨r3, second⟩, hsecond, hr⟩ := Option.bind_eq_some_iff.mp hr
  obtain rfl := Option.some.inj hr
  simp only [List.cons.injEq] at hreturned hflags
  obtain ⟨rfl, rfl, rfl, -⟩ := hreturned
  refine ⟨again, second, ?_, toOption_eq_some.mp hsecond, hflags.2.2.2.1, hchunk⟩
  have hscans : Run (Step twoBlockHashes) (.new twoBlocks 4) [.scanBlockChain, .scanBlockChain]
      twoBlocksScanned := (Run.nil.snoc (.scanBlockChain _ 0)).snoc (.scanBlockChain _ 0)
  exact ((hscans.snoc (.buildBlockChain hbuild)).snoc (.readBlock (toOption_eq_some.mp hfirst))).snoc
    (.readSingleTransaction (toOption_eq_some.mp hagain))

/-- The condition on the second block: it has no warning, and one was left. -/
theorem the_quiet_block_shows_the_warning_that_was_left : ∃ b b',
    b.readBlock twoBlockHashes 1 = .ok (true, b') ∧
    ((b'.mSingleReadBlock.warning = true ↔
      OwnWarning twoBlockHashes (b.chunkOf (b.headerAt 1))) ↔
    (OwnWarning twoBlockHashes (b.chunkOf (b.headerAt 1)) ∨
      ¬ WarningLeft twoBlockHashes (.new twoBlocks 4) readAgainCalls b)) := by
  obtain ⟨b, b', hrun, hread, -, hchunk⟩ := readAgain_run
  refine ⟨b, b', hread, ?_⟩
  exact the_warning_is_the_blocks_own_exactly_when_none_was_left twoBlockHashes
    (.new twoBlocks 4) b b' readAgainCalls 1 (by decide +kernel) (by decide +kernel) hrun hread
    (by rw [hchunk]; exact quietBlock_startsWhole)

/-- A block without a warning of its own has the flag up, once a transaction
with a warning was read again. -/
theorem the_quiet_block_has_a_warning : ∃ b b',
    (BlockChainImpl.new twoBlocks 4).gIsWarning = false ∧
    (BlockChainImpl.new twoBlocks 4).gReportTransactionHash = false ∧
    Run (Step twoBlockHashes) (.new twoBlocks 4) readAgainCalls b ∧
    b.readBlock twoBlockHashes 1 = .ok (true, b') ∧
    StartsWhole (b.chunkOf (b.headerAt 1)) ∧
    b'.mSingleReadBlock.warning = true ∧
    ¬ OwnWarning twoBlockHashes (b.chunkOf (b.headerAt 1)) := by
  obtain ⟨b, b', hrun, hread, hwarning, hchunk⟩ := readAgain_run
  refine ⟨b, b', by decide +kernel, by decide +kernel, hrun, hread, ?_, hwarning, ?_⟩
  · rw [hchunk]
    exact quietBlock_startsWhole
  · rw [hchunk]
    exact quietBlock_not_ownWarning

end bitcoinstats.block_chain
