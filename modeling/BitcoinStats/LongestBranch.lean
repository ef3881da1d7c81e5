-- When the built chain is the longest branch of the tree of headers: exactly
-- when the record of its tip is the last one in the files.
import BitcoinStats.ChainBuild

open byte_memory keyed_set walk bitcoinstats.bitcoin_address

namespace bitcoinstats.block_chain

/-! ## Trees of headers -/

/-- The header among `headers` that a header names as the one before it. -/
def parentIn (headers : List BlockHeader) (header : BlockHeader) : Option BlockHeader :=
  headers.find? (fun h => h.hash = header.mPreviousBlockHash)

structure HeaderTree (headers : List BlockHeader) : Prop where
  distinct : (headers.map BlockHeader.hash).Nodup
  acyclic : Acyclic (parentIn headers)
  one_root : ∃! root, root ∈ headers ∧ parentIn headers root = none

/-- The branch from the root to a header that no other one names. -/
structure IsBranch (headers branch : List BlockHeader) : Prop where
  stored : ∀ header ∈ branch, header ∈ headers
  linked : branch.IsChain (fun a b => parentIn headers b = some a)
  root : ∃ root, branch.head? = some root ∧ parentIn headers root = none
  leaf : ∃ tip, branch.getLast? = some tip ∧ ∀ header ∈ headers, parentIn headers header ≠ some tip

structure IsLongestBranch (headers branch : List BlockHeader) : Prop where
  isBranch : IsBranch headers branch
  longest : ∀ other, IsBranch headers other → other ≠ branch → other.length < branch.length

variable {headers branch : List BlockHeader}

/-- A branch is the walk from its tip, turned around. -/
theorem IsBranch.steps_eq (h : IsBranch headers branch) :
    ∃ tip, branch.getLast? = some tip ∧
      steps (parentIn headers) (branch.length + 1) (some tip) = some branch.reverse := by
  obtain ⟨tip, htip, -⟩ := h.leaf
  obtain ⟨root, hroot, hnone⟩ := h.root
  obtain ⟨l, hl⟩ : ∃ l, branch.reverse = tip :: l := by
    cases hrev : branch.reverse with
    | nil =>
      rw [List.reverse_eq_nil_iff.mp hrev] at htip
      cases htip
    | cons x xs =>
      rw [List.getLast?_eq_head?_reverse, hrev] at htip
      obtain rfl := Option.some.inj htip
      exact ⟨xs, rfl⟩
  have hchain : (tip :: l).IsChain (Leads (parentIn headers)) := by
    rw [← hl]
    exact List.isChain_reverse.mpr h.linked
  have hlast : ∀ b, (tip :: l).getLast? = some b → parentIn headers b = none := by
    intro b hb
    rw [← hl, List.getLast?_reverse, hroot] at hb
    rwa [← Option.some.inj hb]
  have hlen : branch.length = l.length + 1 := by
    rw [← List.length_reverse, hl, List.length_cons]
  exact ⟨tip, htip, by rw [hlen, steps_of_isChain hchain hlast, hl]⟩

theorem lookup_insertAll_headers (headers : List BlockHeader) (k : Hash256) :
    ((KeyedSet.empty BlockHeader.hash).insertAll headers).lookup k =
      headers.find? (fun h => h.hash = k) := by
  rw [KeyedSet.lookup_insertAll, KeyedSet.lookup_empty, Option.none_or]

theorem parent_insertAll (headers : List BlockHeader) :
    parent ((KeyedSet.empty _).insertAll headers) = parentIn headers := by
  funext header
  exact lookup_insertAll_headers headers header.mPreviousBlockHash

theorem find_own_hash (h : HeaderTree headers) {header : BlockHeader} (hmem : header ∈ headers) :
    headers.find? (fun x => x.hash = header.hash) = some header := by
  rw [← lookup_insertAll_headers]
  exact (KeyedSet.lookup_insertAll_of_nodup h.distinct).mpr ⟨hmem, rfl⟩

/-! ## The chain that is built -/

/-- From the set of all headers the walk from the last one is built. -/
theorem built_from_last {b : BlockChainImpl} (htree : HeaderTree headers)
    (hset : b.mBlockHeaderSet = (KeyedSet.empty _).insertAll headers) (hscan : b.mScanCount ≠ 0)
    (hcount : headers.length < 2 ^ 32) (hlast : headers.getLast? = some b.mLastBlockHeader) :
    ∃ l blockCount b', steps (parentIn headers) (headers.length + 1) (some b.mLastBlockHeader) =
        some l ∧ b.buildBlockChain = some (blockCount, b') ∧ b'.mBlockChainHeaders = l.reverse := by
  have hmem : b.mLastBlockHeader ∈ headers := List.mem_of_getLast? hlast
  have hparent : ∀ x y, parentIn headers x = some y → y ∈ headers :=
    fun _ _ h => List.mem_of_find?_eq_some h
  obtain ⟨l, hl⟩ := steps_of_acyclic (S := headers) (o := some b.mLastBlockHeader) htree.acyclic
    hparent (fun a ha => Option.some.inj ha ▸ hmem)
  have hfirst : b.mBlockHeaderSet.lookup b.mLastBlockHeader.hash = some b.mLastBlockHeader := by
    rw [hset, lookup_insertAll_headers, find_own_hash htree hmem]
  have hacyclic : Acyclic (parent b.mBlockHeaderSet) := by
    rw [hset, parent_insertAll]
    exact htree.acyclic
  obtain ⟨l', hl'⟩ := steps_of_acyclic (S := b.mBlockHeaderSet.toList)
    (o := b.mBlockHeaderSet.lookup b.mLastBlockHeader.hash) hacyclic (fun _ _ => parent_mem)
    (fun a ha => (KeyedSet.lookup_eq_some.mp ha).1)
  have hsame : l' = l := by
    have hl'' := hl'
    rw [hfirst, hset, parent_insertAll] at hl''
    exact steps_unique hl'' hl
  subst hsame
  obtain ⟨-, -, hbuild⟩ := buildBlockChain_of_steps hscan hl'
  have hlen := steps_lt hl
  refine ⟨l', _, _, hl, hbuild, ?_⟩
  have hn : (UInt32.ofNat l'.length).toNat = l'.length := by
    simp
    omega
  simp only [hn]
  rw [storeHeaders_writes l' _ (by omega) (by simp)]
  simp

/-- What the scan of all files leaves for the build. -/
theorem built_after_scan {H : Hashes} {files : List BlockFile} {s : UInt32 × BlockChainImpl}
    {maxBlocks : UInt32} (h : ScannedTo H files maxBlocks 0 s.2)
    (hmax : recordCount files ≤ maxBlocks.toNat) (htree : HeaderTree (fileHeaders H 0 files))
    {last : BlockHeader} (hlast : (fileHeaders H 0 files).getLast? = some last) :
    ∃ l blockCount b', steps (parentIn (fileHeaders H 0 files))
        ((fileHeaders H 0 files).length + 1) (some last) = some l ∧
      (afterScans H s (recordCount files + 1)).2.buildBlockChain = some (blockCount, b') ∧
      b'.mBlockChainHeaders = l.reverse := by
  have hlt := maxBlocks.toNat_lt
  have hlen := length_fileHeaders H 0 files
  obtain ⟨hset, hscan, hlasts⟩ := scanned_all h (by omega)
  rw [hlen] at hset hscan hlasts
  have hlastb := hlasts last hlast
  have hpos : 0 < (fileHeaders H 0 files).length :=
    List.length_pos_of_mem (List.mem_of_getLast? hlast)
  have hne : (afterScans H s (recordCount files + 1)).2.mScanCount ≠ 0 := by
    rw [hscan]
    intro hzero
    have hnat := congrArg UInt32.toNat hzero
    rw [UInt32.toNat_ofNat_of_lt' (by rw [UInt32.size]; omega)] at hnat
    simp at hnat
    omega
  rw [← hlastb] at hlast ⊢
  exact built_from_last htree hset hne (by omega) hlast

/-- The scan of all records and the build give the longest branch if and only
if the last record of the files is that of its tip. -/
theorem the_longest_branch_is_built_exactly_from_its_tip (H : Hashes) (files : List BlockFile)
    (memory : BlockChainImpl) (maxBlocks lastBlockRead : UInt32)
    (hdisk : ∀ i, memory.disk i = (files[i]?).map BlockFile.bytes)
    (hmax : recordCount files ≤ maxBlocks.toNat) (htree : HeaderTree (fileHeaders H 0 files))
    (branch : List BlockHeader) (hlongest : IsLongestBranch (fileHeaders H 0 files) branch) :
    (∃ blockCount b', (afterScans H (lastBlockRead, BlockChainImpl.new memory maxBlocks)
        (recordCount files + 1)).2.buildBlockChain = some (blockCount, b') ∧
      b'.mBlockChainHeaders = branch) ↔
    (fileHeaders H 0 files).getLast? = branch.getLast? := by
  have hfiles := length_le_recordCount files
  have hlt := maxBlocks.toNat_lt
  obtain ⟨tip, htip, hsteps⟩ := hlongest.isBranch.steps_eq
  have htipmem : tip ∈ fileHeaders H 0 files :=
    hlongest.isBranch.stored tip (List.mem_of_getLast? htip)
  obtain ⟨last, hlast⟩ : ∃ last, (fileHeaders H 0 files).getLast? = some last :=
    ⟨_, List.getLast?_eq_some_getLast (List.ne_nil_of_mem htipmem)⟩
  obtain ⟨l, blockCount, b', hl, hbuild, hheaders⟩ :=
    built_after_scan (s := (lastBlockRead, BlockChainImpl.new memory maxBlocks))
      (scannedTo_new memory hdisk (by omega)) hmax htree hlast
  rw [hlast, htip]
  constructor
  · rintro ⟨blockCount', b'', hbuild', hbranch⟩
    rw [hbuild] at hbuild'
    obtain ⟨-, rfl⟩ := Prod.mk.inj (Option.some.inj hbuild')
    obtain ⟨_, l', _, rfl, _⟩ := steps_some_eq hl
    rw [← hbranch, hheaders, List.getLast?_reverse] at htip
    exact htip
  · intro heq
    obtain rfl := Option.some.inj heq
    refine ⟨blockCount, b', hbuild, ?_⟩
    rw [hheaders, steps_unique hl hsteps, List.reverse_reverse]

/-! ## A stale block that was written last -/

def firstHeader : BlockHeader :=
  { hash := firstHash, mFileIndex := 0, mFileOffset := 8, mBlockLength := 80,
    mPreviousBlockHash := Vector.replicate 32 0 }

def secondHeader : BlockHeader :=
  { hash := secondHash, mFileIndex := 0, mFileOffset := 96, mBlockLength := 80,
    mPreviousBlockHash := firstHash }

def thirdHeader : BlockHeader :=
  { hash := thirdHash, mFileIndex := 0, mFileOffset := 184, mBlockLength := 80,
    mPreviousBlockHash := secondHash }

def staleHeader : BlockHeader :=
  { hash := staleHash, mFileIndex := 0, mFileOffset := 272, mBlockLength := 80,
    mPreviousBlockHash := firstHash }

def sampleHeaders : List BlockHeader := [firstHeader, secondHeader, thirdHeader, staleHeader]

theorem fileHeaders_sample : fileHeaders sampleHashes 0 [sampleFile] = sampleHeaders := by
  decide +kernel

theorem sample_parents : parentIn sampleHeaders firstHeader = none ∧
    parentIn sampleHeaders secondHeader = some firstHeader ∧
    parentIn sampleHeaders thirdHeader = some secondHeader ∧
    parentIn sampleHeaders staleHeader = some firstHeader := by
  decide +kernel

theorem mem_sampleHeaders {header : BlockHeader} (h : header ∈ sampleHeaders) :
    header = firstHeader ∨ header = secondHeader ∨ header = thirdHeader ∨ header = staleHeader := by
  simpa [sampleHeaders] using h

theorem sample_tree : HeaderTree sampleHeaders where
  distinct := by decide +kernel
  acyclic := by
    obtain ⟨h0, h1, h2, h3⟩ := sample_parents
    refine acyclic_of_rank (fun h => h.mFileOffset.toNat)
      (fun _ _ h => List.mem_of_find?_eq_some h) ?_
    intro a b ha hab
    rcases mem_sampleHeaders ha with rfl | rfl | rfl | rfl
    · rw [h0] at hab
      cases hab
    · rw [h1] at hab
      rw [← Option.some.inj hab]
      decide
    · rw [h2] at hab
      rw [← Option.some.inj hab]
      decide
    · rw [h3] at hab
      rw [← Option.some.inj hab]
      decide
  one_root := by
    obtain ⟨h0, h1, h2, h3⟩ := sample_parents
    refine ⟨firstHeader, ⟨by simp [sampleHeaders], h0⟩, ?_⟩
    rintro root ⟨hmem, hroot⟩
    rcases mem_sampleHeaders hmem with rfl | rfl | rfl | rfl
    · rfl
    · rw [h1] at hroot
      cases hroot
    · rw [h2] at hroot
      cases hroot
    · rw [h3] at hroot
      cases hroot

theorem sample_longest :
    IsLongestBranch sampleHeaders [firstHeader, secondHeader, thirdHeader] where
  isBranch := by
    obtain ⟨h0, h1, h2, h3⟩ := sample_parents
    refine ⟨by simp [sampleHeaders], by simp [h1, h2], ⟨firstHeader, rfl, h0⟩, thirdHeader, rfl, ?_⟩
    decide +kernel
  longest := by
    obtain ⟨h0, h1, h2, h3⟩ := sample_parents
    intro other hother hne
    obtain ⟨tip, htip, hsteps⟩ := hother.steps_eq
    have hmem := hother.stored tip (List.mem_of_getLast? htip)
    obtain ⟨tip', htip', hleaf⟩ := hother.leaf
    obtain rfl : tip' = tip := Option.some.inj (htip'.symm.trans htip)
    have hback : ∀ l fuel, steps (parentIn sampleHeaders) fuel (some tip') = some l →
        other = l.reverse := by
      intro l fuel hl
      rw [← steps_unique hsteps hl, List.reverse_reverse]
    rcases mem_sampleHeaders hmem with rfl | rfl | rfl | rfl
    · exact absurd h1 (hleaf secondHeader (by simp [sampleHeaders]))
    · exact absurd h2 (hleaf thirdHeader (by simp [sampleHeaders]))
    · refine absurd (hback [thirdHeader, secondHeader, firstHeader] 4 ?_) hne
      simp [h0, h1, h2]
    · rw [hback [staleHeader, firstHeader] 3 (by simp [h0, h3])]
      decide

theorem the_sample_is_built_exactly_from_its_tip :
    (∃ blockCount b', (afterScans sampleHashes (0, BlockChainImpl.new sampleMemory 4)
        (recordCount [sampleFile] + 1)).2.buildBlockChain = some (blockCount, b') ∧
      b'.mBlockChainHeaders = [firstHeader, secondHeader, thirdHeader]) ↔
    (fileHeaders sampleHashes 0 [sampleFile]).getLast? =
      [firstHeader, secondHeader, thirdHeader].getLast? := by
  have htree := sample_tree
  have hlongest := sample_longest
  rw [← fileHeaders_sample] at htree hlongest
  exact the_longest_branch_is_built_exactly_from_its_tip sampleHashes [sampleFile] sampleMemory 4 0
    (fun _ => rfl) (by decide) htree _ hlongest

/-- With a stale block written last the chain of two blocks that ends with it
is built, and not the longest branch of three. -/
theorem a_stale_block_written_last_takes_the_chain :
    HeaderTree (fileHeaders sampleHashes 0 [sampleFile]) ∧
    IsLongestBranch (fileHeaders sampleHashes 0 [sampleFile])
      [firstHeader, secondHeader, thirdHeader] ∧
    ∃ blockCount b', (afterScans sampleHashes (0, BlockChainImpl.new sampleMemory 4)
        (recordCount [sampleFile] + 1)).2.buildBlockChain = some (blockCount, b') ∧
      b'.mBlockChainHeaders = [firstHeader, staleHeader] := by
  have htree := sample_tree
  have hlongest := sample_longest
  rw [← fileHeaders_sample] at htree hlongest
  refine ⟨htree, hlongest, ?_⟩
  have hlast : (fileHeaders sampleHashes 0 [sampleFile]).getLast? = some staleHeader := by
    rw [fileHeaders_sample]
    rfl
  obtain ⟨l, blockCount, b', hl, hbuild, hheaders⟩ :=
    built_after_scan (s := (0, BlockChainImpl.new sampleMemory 4))
      (scannedTo_new sampleMemory (fun _ => rfl) (by decide)) (by decide) htree hlast
  obtain ⟨h0, -, -, h3⟩ := sample_parents
  have hwalk : steps (parentIn sampleHeaders) 3 (some staleHeader) =
      some [staleHeader, firstHeader] := by simp [h0, h3]
  rw [← fileHeaders_sample] at hwalk
  refine ⟨blockCount, b', hbuild, ?_⟩
  rw [hheaders, steps_unique hl hwalk]
  rfl

end bitcoinstats.block_chain
