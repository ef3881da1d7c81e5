-- The table of the blocks by their height, for a block index with forks: it is
-- the linked main chain exactly when no two records share a height.
import BitcoinStats.RecordScan

open byte_memory keyed_set bitcoinstats.block_chain bitcoinstats.block_index
  bitcoinstats.key_value_database

namespace bitcoinstats.blocks

/-! ## Block indexes with forks -/

/-- The tree of the blocks, as the records of their heights and hashes. -/
structure BlockTree (cbs : List CBlockIndex) : Prop where
  distinct : (cbs.map CBlockIndex.mBlockHash).Nodup
  root : ∃! cb, cb ∈ cbs ∧ cb.mBlockHeight = 0
  linked : ∀ cb ∈ cbs, ∀ height, cb.mBlockHeight.toNat = height + 1 →
    ∃ parent ∈ cbs, parent.mBlockHeight.toNat = height ∧ cb.mHashPrevious = parent.mBlockHash
  tip : ∃ tip ∈ cbs, ∀ cb ∈ cbs, cb ≠ tip → cb.mBlockHeight < tip.mBlockHeight

/-- The constructor comes back without reaching the assertion, with a chain. -/
def LinkedTable (records : List Entry) : Prop :=
  ∃ b, BlocksImpl.new records = some (b, false) ∧
    (∀ height ≤ b.getBlockHeight, ∃ cb, b.getBlockIndex height = some cb) ∧
    ∀ height < b.getBlockHeight, ∀ cb next, b.getBlockIndex height = some cb →
      b.getBlockIndex (height + 1) = some next → next.mHashPrevious = cb.mBlockHash

variable {cbs : List CBlockIndex}

/-- Below each block there are blocks of all heights. -/
theorem BlockTree.below (h : BlockTree cbs) {cb : CBlockIndex} (hcb : cb ∈ cbs) {height : Nat}
    (hle : height ≤ cb.mBlockHeight.toNat) : ∃ other ∈ cbs, other.mBlockHeight.toNat = height := by
  obtain ⟨k, hk⟩ : ∃ k, cb.mBlockHeight.toNat = height + k := ⟨_, (Nat.add_sub_cancel' hle).symm⟩
  induction k generalizing cb with
  | zero => exact ⟨cb, hcb, hk⟩
  | succ k ih =>
    obtain ⟨parent, hparent, hheight, -⟩ := h.linked cb hcb (height + k) hk
    exact ih hparent (by omega) hheight

/-- Without two records of one height no height turns over in 32 bits. -/
theorem BlockTree.height_lt (h : BlockTree cbs) (hdistinct : (cbs.map blockHeight).Nodup)
    {cb : CBlockIndex} (hcb : cb ∈ cbs) : cb.mBlockHeight.toNat < 2 ^ 32 := by
  by_contra hge
  obtain ⟨root, ⟨hroot, hzero⟩, -⟩ := h.root
  obtain ⟨other, hother, hheight⟩ := h.below hcb (Nat.not_lt.mp hge)
  have hsame : blockHeight other = blockHeight root := by
    apply UInt32.toNat_inj.mp
    unfold blockHeight
    rw [UInt64.toNat_toUInt32, hheight, hzero]
    rfl
  have heq := List.inj_on_of_nodup_map hdistinct hother hroot hsame
  rw [heq, hzero] at hheight
  cases hheight

theorem toNat_blockHeight {cb : CBlockIndex} (h : cb.mBlockHeight.toNat < 2 ^ 32) :
    (blockHeight cb).toNat = cb.mBlockHeight.toNat := by
  unfold blockHeight
  rw [UInt64.toNat_toUInt32]
  exact Nat.mod_eq_of_lt h

/-- The table of a tree without forks is its one chain. -/
theorem Scanned.linked {s : RecordScan} (h : Scanned cbs s) (htree : BlockTree cbs)
    (hdistinct : (cbs.map blockHeight).Nodup) :
    (∀ height ≤ s.mBlockHeight, ∃ cb, s.mBlocks.lookup height = some cb) ∧
    ∀ height < s.mBlockHeight, ∀ cb next, s.mBlocks.lookup height = some cb →
      s.mBlocks.lookup (height + 1) = some next → next.mHashPrevious = cb.mBlockHash := by
  have hnat : ∀ cb ∈ cbs, (blockHeight cb).toNat = cb.mBlockHeight.toNat :=
    fun cb hcb => toNat_blockHeight (htree.height_lt hdistinct hcb)
  obtain ⟨root, ⟨hroot, -⟩, -⟩ := htree.root
  obtain ⟨top, htop, hheight⟩ := h.top (List.ne_nil_of_mem hroot)
  constructor
  · intro height hle
    have hle' := UInt32.le_iff_toNat_le.mp hle
    rw [← hheight, hnat top htop] at hle'
    obtain ⟨cb, hcb, hcbheight⟩ := htree.below htop hle'
    refine ⟨cb, (h.lookup_iff hdistinct).mpr ⟨hcb, UInt32.toNat_inj.mp ?_⟩⟩
    rw [hnat cb hcb, hcbheight]
  · intro height hlt cb next hcb hnext
    obtain ⟨hcbmem, rfl⟩ := (h.lookup_iff hdistinct).mp hcb
    obtain ⟨hnextmem, hnextheight⟩ := (h.lookup_iff hdistinct).mp hnext
    have hsucc : next.mBlockHeight.toNat = (blockHeight cb).toNat + 1 := by
      have hlt' := UInt32.lt_iff_toNat_lt.mp hlt
      have hbound := s.mBlockHeight.toNat_lt
      have hone : (1 : UInt32).toNat = 1 := rfl
      rw [← hnat next hnextmem, hnextheight, UInt32.toNat_add, hone]
      exact Nat.mod_eq_of_lt (by omega)
    obtain ⟨parent, hparent, hparentheight, hhash⟩ := htree.linked next hnextmem _ hsucc
    have hsame : blockHeight parent = blockHeight cb := by
      apply UInt32.toNat_inj.mp
      rw [hnat parent hparent, hparentheight]
    rw [hhash, List.inj_on_of_nodup_map hdistinct hparent hcbmem hsame]

/-- On a tree the table is a linked chain, and the assertion is not reached,
exactly when no two heights are the same in 32 bits and none is the last one,
which the loop over the heights does not get past. -/
theorem the_height_table_is_linked_exactly_without_a_fork (records : List Entry)
    (cbs : List CBlockIndex) (hrecords : records.map decodeRecord = cbs.map some)
    (htree : BlockTree cbs) :
    LinkedTable records ↔
      (cbs.map blockHeight).Nodup ∧ ∀ cb ∈ cbs, blockHeight cb ≠ 0xFFFFFFFF := by
  obtain ⟨s, h, hnew⟩ := new_eq hrecords
  obtain ⟨root, ⟨hroot, -⟩, -⟩ := htree.root
  obtain ⟨top, htop, hheight⟩ := h.top (List.ne_nil_of_mem hroot)
  constructor
  · rintro ⟨b, hb, -, -⟩
    rw [hb] at hnew
    by_cases hhigh : s.blockHigh = 0xFFFFFFFF
    · rw [if_pos hhigh] at hnew
      cases hnew
    · rw [if_neg hhigh] at hnew
      obtain ⟨-, hassert⟩ := Prod.mk.inj (Option.some.inj hnew)
      constructor
      · by_contra hfork
        rw [h.assertReached.mpr hfork] at hassert
        cases hassert
      · intro cb hcb hlast
        have hle := h.le_top cb hcb
        rw [hlast, ← h.high] at hle
        have hmax : (0xFFFFFFFF : UInt32).toNat = 2 ^ 32 - 1 := rfl
        have hlt := s.blockHigh.toNat_lt
        have hnat := UInt32.le_iff_toNat_le.mp hle
        exact hhigh (UInt32.toNat_inj.mp (by omega))
  · rintro ⟨hdistinct, hlast⟩
    have hhigh : s.blockHigh ≠ 0xFFFFFFFF := by
      rw [h.high, ← hheight]
      exact hlast top htop
    have hassert : s.assertReached = false := by
      by_contra hreached
      exact h.assertReached.mp (by simpa using hreached) hdistinct
    rw [if_neg hhigh, hassert] at hnew
    obtain ⟨hheights, hblocks⟩ := numberDays_frame s.days.keys s.collected
    obtain ⟨hdefined, hlinked⟩ := h.linked htree hdistinct
    refine ⟨_, hnew, ?_, ?_⟩
    · intro height hle
      rw [BlocksImpl.getBlockHeight, hheights] at hle
      rw [BlocksImpl.getBlockIndex, hblocks]
      exact hdefined height hle
    · intro height hlt cb next hcb hnext
      rw [BlocksImpl.getBlockHeight, hheights] at hlt
      rw [BlocksImpl.getBlockIndex, hblocks] at hcb hnext
      exact hlinked height hlt cb next hcb hnext

/-! ## A stale sibling -/

/-- A block with the given hash on the one with the other hash. -/
def treeBlock (height : Nat) (hash previous : UInt8) : CBlockIndex :=
  { CBlockIndex.new (Vector.replicate 32 hash) with
    mVersionNumber := 1
    mBlockHeight := UInt64.ofNat height
    mHashPrevious := Vector.replicate 32 previous }

/-- Its record, for a small height. -/
def treeRecord (height : Nat) (hash previous : UInt8) : Entry :=
  (98 :: List.replicate 32 hash,
    [1, UInt8.ofNat height, 0, 0] ++ List.replicate 4 0 ++ List.replicate 32 previous ++
      List.replicate 44 0)

def chainRecords : List Entry := [treeRecord 1 2 3, treeRecord 0 3 0, treeRecord 2 4 2]
def chainBlocks : List CBlockIndex := [treeBlock 1 2 3, treeBlock 0 3 0, treeBlock 2 4 2]

/-- A second block of height 1, whose hash comes first. -/
def forkRecords : List Entry := treeRecord 1 1 3 :: chainRecords
def forkBlocks : List CBlockIndex := treeBlock 1 1 3 :: chainBlocks

/-- A tree that is checked block by block. -/
theorem blockTree_of_checks {cbs : List CBlockIndex} (r : CBlockIndex)
    (hdistinct : (cbs.map CBlockIndex.mBlockHash).Nodup)
    (hroot : r ∈ cbs ∧ ∀ cb ∈ cbs, cb.mBlockHeight = 0 ↔ cb = r)
    (hlinked : ∀ cb ∈ cbs, cb = r ∨ ∃ parent ∈ cbs,
      parent.mBlockHeight.toNat + 1 = cb.mBlockHeight.toNat ∧ cb.mHashPrevious = parent.mBlockHash)
    (htip : ∃ tip ∈ cbs, ∀ cb ∈ cbs, cb ≠ tip → cb.mBlockHeight < tip.mBlockHeight) :
    BlockTree cbs where
  distinct := hdistinct
  root := ⟨r, ⟨hroot.1, (hroot.2 r hroot.1).mpr rfl⟩, fun cb hcb => (hroot.2 cb hcb.1).mp hcb.2⟩
  linked := by
    intro cb hcb height hheight
    rcases hlinked cb hcb with rfl | ⟨parent, hparent, hsucc, hhash⟩
    · rw [(hroot.2 cb hcb).mpr rfl] at hheight
      cases hheight
    · exact ⟨parent, hparent, by omega, hhash⟩
  tip := htip

theorem chainBlocks_tree : BlockTree chainBlocks :=
  blockTree_of_checks (treeBlock 0 3 0) (by decide +kernel) (by decide +kernel)
    (by decide +kernel) (by decide +kernel)

theorem forkBlocks_tree : BlockTree forkBlocks :=
  blockTree_of_checks (treeBlock 0 3 0) (by decide +kernel) (by decide +kernel)
    (by decide +kernel) (by decide +kernel)

theorem three_blocks_are_linked_exactly_without_a_fork : LinkedTable chainRecords ↔
    (chainBlocks.map blockHeight).Nodup ∧ ∀ cb ∈ chainBlocks, blockHeight cb ≠ 0xFFFFFFFF :=
  the_height_table_is_linked_exactly_without_a_fork chainRecords chainBlocks (by decide +kernel)
    chainBlocks_tree

/-- The stale block has the smaller hash: it is kept, the block of the chain
reaches the assertion, and the tip is not linked to the block below it. -/
theorem a_stale_sibling_takes_the_height : BlockTree forkBlocks ∧
    forkRecords.map decodeRecord = forkBlocks.map some ∧
    (BlocksImpl.new forkRecords).map Prod.snd = some true ∧
    ∃ b cb next, BlocksImpl.new forkRecords = some (b, true) ∧ b.getBlockIndex 1 = some cb ∧
      b.getBlockIndex 2 = some next ∧ next.mHashPrevious ≠ cb.mBlockHash := by
  have hnew : (BlocksImpl.new forkRecords).map (fun r => (r.2, r.1.getBlockIndex 1,
      r.1.getBlockIndex 2)) = some (true, some (treeBlock 1 1 3), some (treeBlock 2 4 2)) := by
    decide +kernel
  obtain ⟨⟨b, reached⟩, hb, hresult⟩ := Option.map_eq_some_iff.mp hnew
  obtain ⟨rfl, hrest⟩ := Prod.mk.inj hresult
  obtain ⟨hone, htwo⟩ := Prod.mk.inj hrest
  exact ⟨forkBlocks_tree, by decide +kernel, by rw [hb]; rfl, b, _, _, hb, hone, htwo,
    by decide +kernel⟩

end bitcoinstats.blocks
