-- The loop of `blocks.cpp` over the heights, turn by turn. Its counter and its
-- bound have 32 bits, and the bound itself is a height of the loop.
import BitcoinStats.DailyStatistics

open byte_memory keyed_set calendar decimal_text bitcoinstats.block_chain bitcoinstats.block_index
  bitcoinstats.key_value_database

namespace bitcoinstats.blocks

/-! ## The turns of the loop -/

/-- From the height `i` on the loop takes `n` turns and ends with the days `mDays'`. -/
inductive HeightLoop (mBlocks : BlockIndexMap) (blockHigh : UInt32) :
    UInt32 → BlockDayMap → Nat → BlockDayMap → Prop
  | stop {i : UInt32} {mDays : BlockDayMap} (h : ¬ i ≤ blockHigh) :
      HeightLoop mBlocks blockHigh i mDays 0 mDays
  | turn {i : UInt32} {mDays mDays' : BlockDayMap} {n : Nat} (h : i ≤ blockHigh)
      (next : HeightLoop mBlocks blockHigh (i + 1) (addHeight mBlocks mDays i) n mDays') :
      HeightLoop mBlocks blockHigh i mDays (n + 1) mDays'

variable {mBlocks : BlockIndexMap} {blockHigh : UInt32}

/-- The loop of the model gives what the turns give, with fuel for each of them. -/
theorem addHeights_eq_some_iff {fuel : Nat} {i : UInt32} {mDays mDays' : BlockDayMap} :
    addHeights mBlocks blockHigh fuel i mDays = some mDays' ↔
      ∃ n < fuel, HeightLoop mBlocks blockHigh i mDays n mDays' := by
  induction fuel generalizing i mDays with
  | zero => simp [addHeights]
  | succ fuel ih =>
    unfold addHeights
    by_cases hle : i ≤ blockHigh
    · rw [if_pos hle, ih]
      constructor
      · rintro ⟨n, hn, hloop⟩
        exact ⟨n + 1, by omega, .turn hle hloop⟩
      · rintro ⟨n, hn, hloop⟩
        cases hloop with
        | stop h => exact absurd hle h
        | turn _ next => exact ⟨_, by omega, next⟩
    · rw [if_neg hle]
      constructor
      · intro hsome
        rw [← Option.some.inj hsome]
        exact ⟨0, by omega, .stop hle⟩
      · rintro ⟨n, hn, hloop⟩
        cases hloop with
        | stop h => rfl
        | turn h next => exact absurd h hle

/-- Below the last height each height up to the bound takes its turn. -/
theorem heightLoop_turns (hhigh : blockHigh ≠ 0xFFFFFFFF) (n : Nat) (i : UInt32)
    (mDays : BlockDayMap) (hn : blockHigh.toNat + 1 = i.toNat + n) :
    ∃ mDays', HeightLoop mBlocks blockHigh i mDays n mDays' := by
  induction n generalizing i mDays with
  | zero =>
    refine ⟨mDays, .stop ?_⟩
    rw [UInt32.le_iff_toNat_le]
    omega
  | succ n ih =>
    have hle : i ≤ blockHigh := by
      rw [UInt32.le_iff_toNat_le]
      omega
    have hnext := succ_toNat hle hhigh
    obtain ⟨mDays', hloop⟩ := ih (i + 1) (addHeight mBlocks mDays i) (by omega)
    exact ⟨mDays', .turn hle hloop⟩

/-- At the last height the counter turns over to 0, so the loop has no last turn. -/
theorem not_heightLoop_last {i : UInt32} {mDays mDays' : BlockDayMap} {n : Nat} :
    ¬ HeightLoop mBlocks 0xFFFFFFFF i mDays n mDays' := by
  intro hloop
  have hsome := addHeights_eq_some_iff.mpr ⟨n, Nat.lt_succ_self n, hloop⟩
  rw [addHeights_never_ends] at hsome
  cases hsome

/-! ## The bound -/

/-- The bound is the last height exactly when a block has it. -/
theorem Scanned.high_iff {cbs : List CBlockIndex} {s : RecordScan} (h : Scanned cbs s) :
    s.blockHigh = 0xFFFFFFFF ↔ ∃ cb ∈ cbs, blockHeight cb = 0xFFFFFFFF := by
  rw [h.high]
  constructor
  · intro hlast
    have hne : cbs ≠ [] := by
      intro hnil
      rw [(h.empty hnil).1] at hlast
      exact absurd hlast (by decide)
    obtain ⟨cb, hcb, htop⟩ := h.top hne
    exact ⟨cb, hcb, htop.trans hlast⟩
  · rintro ⟨cb, hcb, hlast⟩
    have hle := h.le_top cb hcb
    rw [hlast] at hle
    apply UInt32.le_antisymm _ hle
    rw [UInt32.le_iff_toNat_le]
    have hlt := s.mBlockHeight.toNat_lt
    have hmax : (0xFFFFFFFF : UInt32).toNat = 2 ^ 32 - 1 := rfl
    omega

/-- The lowest height is not above the highest. -/
theorem Scanned.low_le_high {cbs : List CBlockIndex} {s : RecordScan} (h : Scanned cbs s) :
    s.blockLow ≤ s.blockHigh := by
  rw [h.high]
  by_cases hnil : cbs = []
  · rw [(h.empty hnil).1, (h.empty hnil).2]
    exact UInt32.le_refl _
  · obtain ⟨cb, hcb, htop⟩ := h.top hnil
    rw [← htop]
    exact h.low_le cb hcb

/-! ## The constructor -/

/-- The constructor comes back, and the loop behind the scan `s` takes one turn for each height. -/
def FinishesDayTable (records : List Entry) (s : RecordScan) : Prop :=
  (BlocksImpl.new records).isSome ∧
    ∃ mDays, HeightLoop s.mBlocks s.blockHigh s.blockLow ∅
      (s.blockHigh.toNat - s.blockLow.toNat + 1) mDays

/-- Behind any scan of the records the loop takes one turn for each height, and the
constructor comes back, exactly when no record has the last height of 32 bits. -/
theorem the_day_table_is_finished_exactly_below_the_last_height (records : List Entry)
    (s : RecordScan) (hscan : RecordScan.new.scan records = some s) :
    FinishesDayTable records s ↔
      ∀ record ∈ records, ∀ cb, decodeRecord record = some cb → blockHeight cb ≠ 0xFFFFFFFF := by
  obtain ⟨cbs, hcbs⟩ := scan_some hscan
  have hscanned : Scanned cbs s := by
    rw [scan_eq _ hcbs] at hscan
    rw [← Option.some.inj hscan]
    exact scanned_foldl cbs
  have hnew : BlocksImpl.new records = s.finish.map (fun b => (b, s.assertReached)) := by
    unfold BlocksImpl.new
    simp only [hscan, Option.bind_eq_bind, Option.bind_some]
    cases s.finish <;> rfl
  have hmem : (∃ cb ∈ cbs, blockHeight cb = 0xFFFFFFFF) ↔
      ∃ record ∈ records, ∃ cb, decodeRecord record = some cb ∧ blockHeight cb = 0xFFFFFFFF := by
    constructor
    · rintro ⟨cb, hcb, hlast⟩
      have hsome : some cb ∈ records.map decodeRecord := hcbs ▸ List.mem_map_of_mem hcb
      obtain ⟨record, hrecord, hdecode⟩ := List.mem_map.mp hsome
      exact ⟨record, hrecord, cb, hdecode, hlast⟩
    · rintro ⟨record, hrecord, cb, hdecode, hlast⟩
      have hsome : some cb ∈ cbs.map some := by
        rw [← hcbs, ← hdecode]
        exact List.mem_map_of_mem hrecord
      exact ⟨cb, by simpa using hsome, hlast⟩
  have hlow := UInt32.le_iff_toNat_le.mp hscanned.low_le_high
  constructor
  · rintro ⟨-, mDays, hloop⟩ record hrecord cb hdecode hlast
    rw [hscanned.high_iff.mpr (hmem.mpr ⟨record, hrecord, cb, hdecode, hlast⟩)] at hloop
    exact not_heightLoop_last hloop
  · intro hnone
    have hhigh : s.blockHigh ≠ 0xFFFFFFFF := by
      intro hlast
      obtain ⟨record, hrecord, cb, hdecode, hmax⟩ := hmem.mp (hscanned.high_iff.mp hlast)
      exact hnone record hrecord cb hdecode hmax
    refine ⟨?_, heightLoop_turns hhigh _ _ _ (by omega)⟩
    rw [hnew, finish_eq, if_neg hhigh]
    rfl

theorem two_blocks_finish_the_day_table : ∃ s,
    RecordScan.new.scan [sampleRecord 4 2 1231150000, sampleRecord 2 1 1231006505] = some s ∧
    (FinishesDayTable [sampleRecord 4 2 1231150000, sampleRecord 2 1 1231006505] s ↔
      ∀ record ∈ [sampleRecord 4 2 1231150000, sampleRecord 2 1 1231006505], ∀ cb,
        decodeRecord record = some cb → blockHeight cb ≠ 0xFFFFFFFF) := by
  have hscan := @scan_eq [sampleRecord 4 2 1231150000, sampleRecord 2 1 1231006505]
    [sampleBlock 4 2 1231150000, sampleBlock 2 1 1231006505] .new (by decide +kernel)
  exact ⟨_, hscan, the_day_table_is_finished_exactly_below_the_last_height _ _ hscan⟩

/-- The varint of the height is 4294967295. -/
def lastRecord : Entry :=
  (98 :: List.replicate 32 0, [1, 0x8E, 0xFE, 0xFE, 0xFE, 0x7F, 0, 1] ++ List.replicate 80 0)

theorem the_last_height_keeps_the_loop_running :
    ¬ ∀ (records : List Entry) (s : RecordScan), RecordScan.new.scan records = some s →
      FinishesDayTable records s := by
  intro h
  have hheight : (decodeRecord lastRecord).map blockHeight = some 0xFFFFFFFF := by decide +kernel
  obtain ⟨cb, hdecode, hlast⟩ := Option.map_eq_some_iff.mp hheight
  have hscan := @scan_eq [lastRecord] [cb] .new (by simp [hdecode])
  obtain ⟨-, mDays, hloop⟩ := h [lastRecord] _ hscan
  rw [(scanned_foldl [cb]).high_iff.mpr ⟨cb, List.mem_singleton_self cb, hlast⟩] at hloop
  exact not_heightLoop_last hloop

end bitcoinstats.blocks
