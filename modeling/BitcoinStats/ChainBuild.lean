-- The block chain that is built from the scanned headers: the walk from the
-- last header back along the hashes of the previous blocks.
import BitcoinStats.ScanOrder
import BitcoinStats.Library.Walk

open byte_memory keyed_set walk bitcoinstats.bitcoin_address

namespace bitcoinstats.block_chain

/-! ## The two walks -/

abbrev BlockHeaderSet := KeyedSet BlockHeader.hash

/-- `mBlockHeaderSet.find`, for the hash of the previous block. -/
def parent (set : BlockHeaderSet) (header : BlockHeader) : Option BlockHeader :=
  set.lookup header.mPreviousBlockHash

/-- The loop that counts the blocks. -/
def countHeaders (set : BlockHeaderSet) : Nat → Option BlockHeader → UInt32 → Option UInt32
  | 0, _, _ => none
  | _ + 1, none, blockCount => some blockCount
  | fuel + 1, some found, blockCount => countHeaders set fuel (parent set found) (blockCount + 1)

/-- The loop that fills the array, as the list of its writes. -/
def gatherHeaders (set : BlockHeaderSet) :
    Nat → Option BlockHeader → UInt32 → Option (List (UInt32 × BlockHeader))
  | 0, _, _ => none
  | _ + 1, none, _ => some []
  | fuel + 1, some found, index =>
    (gatherHeaders set fuel (parent set found) (index - 1)).map ((index, found) :: ·)

/-- The array after the writes. -/
def storeHeaders (headers : List BlockHeader) (writes : List (UInt32 × BlockHeader)) :
    List BlockHeader := writes.foldl (fun headers w => headers.set w.1.toNat w.2) headers

/-- `buildBlockChain`, and nothing when a walk never ends: a walk that goes
on for more steps than the set has headers has come back to one of them. -/
def BlockChainImpl.buildBlockChain (b : BlockChainImpl) : Option (UInt32 × BlockChainImpl) :=
  if b.mScanCount ≠ 0 then do
    let fuel := b.mBlockHeaderSet.size + 1
    let found := b.mBlockHeaderSet.lookup b.mLastBlockHeader.hash
    let blockCount ← countHeaders b.mBlockHeaderSet fuel found 0
    let writes ← gatherHeaders b.mBlockHeaderSet fuel found (blockCount - 1)
    let headers := storeHeaders (List.replicate blockCount.toNat default) writes
    some (blockCount, { b with
      mBlockChainHeaders := headers
      mBlockCount := blockCount
      mScanCount := 0 })
  else some (0, b)

/-! ## Both walks are the walk of the library -/

variable {set : BlockHeaderSet} {found : Option BlockHeader} {l : List BlockHeader}

theorem countHeaders_eq (set : BlockHeaderSet) (fuel : Nat) (found : Option BlockHeader)
    (blockCount : UInt32) :
    countHeaders set fuel found blockCount =
      (steps (parent set) fuel found).map (fun l => blockCount + UInt32.ofNat l.length) := by
  induction fuel generalizing found blockCount with
  | zero => rfl
  | succ fuel ih =>
    cases found with
    | none => simp [countHeaders]
    | some header =>
      simp only [countHeaders, steps_some, ih, Option.map_map]
      congr 1
      funext l
      simp only [Function.comp_apply, List.length_cons]
      apply UInt32.toNat_inj.mp
      simp
      omega

/-- The writes of the headers, from the index down. -/
def headerWrites : UInt32 → List BlockHeader → List (UInt32 × BlockHeader)
  | _, [] => []
  | index, header :: l => (index, header) :: headerWrites (index - 1) l

theorem gatherHeaders_eq (set : BlockHeaderSet) (fuel : Nat) (found : Option BlockHeader)
    (index : UInt32) :
    gatherHeaders set fuel found index = (steps (parent set) fuel found).map (headerWrites index) := by
  induction fuel generalizing found index with
  | zero => rfl
  | succ fuel ih =>
    cases found with
    | none => rfl
    | some header =>
      simp only [gatherHeaders, steps_some, ih, Option.map_map]
      rfl

theorem index_pred (k : Nat) : UInt32.ofNat (k + 1) - 1 = UInt32.ofNat k := by
  rw [UInt32.ofNat_add]
  simp

/-- Each of the slots is written once, the highest first. -/
theorem headerWrites_slots (l : List BlockHeader) (h : l.length < 2 ^ 32) :
    (headerWrites (UInt32.ofNat l.length - 1) l).map (fun w => w.1.toNat) =
      (List.range l.length).reverse := by
  induction l with
  | nil => rfl
  | cons header l ih =>
    rw [List.length_cons] at h
    rw [List.length_cons, index_pred, headerWrites, List.map_cons, ih (by omega), List.range_succ]
    simp
    omega

/-- The writes leave the headers in the array, in the turned order. -/
theorem storeHeaders_writes (l headers : List BlockHeader) (h : l.length < 2 ^ 32)
    (hroom : l.length ≤ headers.length) :
    storeHeaders headers (headerWrites (UInt32.ofNat l.length - 1) l) =
      l.reverse ++ headers.drop l.length := by
  induction l generalizing headers with
  | nil => simp [storeHeaders, headerWrites]
  | cons header l ih =>
    rw [List.length_cons] at h hroom
    have hindex : (UInt32.ofNat l.length).toNat = l.length := by
      simp
      omega
    have hstep := ih (headers.set l.length header) (by omega) (by simp; omega)
    rw [List.length_cons, index_pred, headerWrites]
    have hfirst : storeHeaders headers ((UInt32.ofNat l.length, header) ::
        headerWrites (UInt32.ofNat l.length - 1) l) =
        storeHeaders (headers.set l.length header) (headerWrites (UInt32.ofNat l.length - 1) l) := by
      simp only [storeHeaders, List.foldl_cons, hindex]
    have hlt : l.length < (headers.set l.length header).length := by
      rw [List.length_set]
      omega
    rw [hfirst, hstep, List.drop_eq_getElem_cons hlt, List.getElem_set_self,
      List.drop_set_of_lt (by omega)]
    simp

theorem parent_mem {header parentHeader : BlockHeader}
    (h : parent set header = some parentHeader) : parentHeader ∈ set.toList :=
  (KeyedSet.lookup_eq_some.mp h).1

/-- `none` is a walk that does not end, whatever the fuel. -/
theorem buildBlockChain_never_ends {b : BlockChainImpl} (h : b.buildBlockChain = none) (fuel : Nat) :
    countHeaders b.mBlockHeaderSet fuel (b.mBlockHeaderSet.lookup b.mLastBlockHeader.hash) 0 = none := by
  have hsteps : steps (parent b.mBlockHeaderSet) (b.mBlockHeaderSet.toList.length + 1)
      (b.mBlockHeaderSet.lookup b.mLastBlockHeader.hash) = none := by
    cases hs : steps (parent b.mBlockHeaderSet) (b.mBlockHeaderSet.toList.length + 1)
      (b.mBlockHeaderSet.lookup b.mLastBlockHeader.hash) with
    | none => rfl
    | some l =>
      have hcount := countHeaders_eq b.mBlockHeaderSet (b.mBlockHeaderSet.size + 1)
        (b.mBlockHeaderSet.lookup b.mLastBlockHeader.hash) 0
      have hgather := fun i => gatherHeaders_eq b.mBlockHeaderSet (b.mBlockHeaderSet.size + 1)
        (b.mBlockHeaderSet.lookup b.mLastBlockHeader.hash) i
      simp only [KeyedSet.size, hs, Option.map_some] at hcount hgather
      unfold BlockChainImpl.buildBlockChain at h
      simp only [KeyedSet.size, hcount, hgather, Option.bind_eq_bind, Option.bind_some] at h
      split at h <;> cases h
  rw [countHeaders_eq, steps_never_ends (fun _ _ => parent_mem)
    (fun _ hfound => (KeyedSet.lookup_eq_some.mp hfound).1) hsteps]
  rfl

/-! ## What is built -/

/-- Once a header was scanned, the set has one with the hash of the last. -/
def LastIsScanned (b : BlockChainImpl) : Prop :=
  b.mScanCount ≠ 0 → ∃ header ∈ b.mBlockHeaderSet, header.hash = b.mLastBlockHeader.hash

/-- The states that the constructor, scans and builds lead to. -/
inductive Reached (H : Hashes) : BlockChainImpl → Prop
  | new (memory : BlockChainImpl) (maxBlocks : UInt32) : Reached H (.new memory maxBlocks)
  | scan {b : BlockChainImpl} (lastBlockRead : UInt32) :
      Reached H b → Reached H (b.scanBlockChain H lastBlockRead).2.2
  | build {b b' : BlockChainImpl} {blockCount : UInt32} :
      Reached H b → b.buildBlockChain = some (blockCount, b') → Reached H b'

/-- Behind `scanBlockChain` too a header was scanned only if the set has it:
the header that is read last is inserted, if its hash is not there. -/
theorem lastIsScanned_scan {H : Hashes} {b : BlockChainImpl} (h : LastIsScanned b)
    (lastBlockRead : UInt32) : LastIsScanned (b.scanBlockChain H lastBlockRead).2.2 := by
  unfold BlockChainImpl.scanBlockChain
  rcases readBlockHeader_cases (H := H) b with ⟨hfalse, fs, i, n, hfiles⟩ | ⟨htrue, header, hread⟩
  · simp only [hfalse, hfiles]
    simpa [LastIsScanned, BlockChainImpl.withFiles] using h
  · have hmem : ∃ x ∈ (b.readBlockHeader H).2.mBlockHeaderSet,
        x.hash = (b.readBlockHeader H).2.mLastBlockHeader.hash := by
      rw [hread.set, hread.last]
      have hfound := KeyedSet.lookup_insert b.mBlockHeaderSet header header.hash
      rw [if_pos rfl] at hfound
      cases hold : b.mBlockHeaderSet.lookup header.hash with
      | none =>
        rw [hold, Option.none_or] at hfound
        exact ⟨header, KeyedSet.lookup_eq_some.mp hfound⟩
      | some other =>
        rw [hold, Option.some_or] at hfound
        exact ⟨other, KeyedSet.lookup_eq_some.mp hfound⟩
    simp only [htrue]
    split
    · exact fun _ => hmem
    · exact fun _ => hmem

theorem Reached.lastIsScanned {H : Hashes} {b : BlockChainImpl} (h : Reached H b) :
    LastIsScanned b := by
  induction h with
  | new memory maxBlocks =>
    obtain ⟨fs, i, n, hopen⟩ := openBlock_frame (memory.initialised maxBlocks)
    intro hscan
    rw [BlockChainImpl.new, hopen] at hscan
    exact absurd rfl hscan
  | scan lastBlockRead _ ih => exact lastIsScanned_scan ih lastBlockRead
  | @build b b' blockCount _ hbuild ih =>
    unfold BlockChainImpl.buildBlockChain at hbuild
    split at hbuild
    · simp only [Option.bind_eq_bind, Option.bind_eq_some_iff] at hbuild
      obtain ⟨_, -, _, -, hb'⟩ := hbuild
      obtain ⟨-, rfl⟩ := Prod.mk.inj (Option.some.inj hb')
      exact fun hscan => absurd rfl hscan
    · obtain ⟨-, rfl⟩ := Prod.mk.inj (Option.some.inj hbuild)
      exact ih

/-- The headers are the chain of the set that ends at the last header. -/
structure BuiltChain (b : BlockChainImpl) (headers : List BlockHeader) : Prop where
  stored : ∀ header ∈ headers, header ∈ b.mBlockHeaderSet
  tip : (headers.getLast?).map BlockHeader.hash = some b.mLastBlockHeader.hash
  linked : ∀ i header next, headers[i]? = some header → headers[i + 1]? = some next →
    next.mPreviousBlockHash = header.hash
  root : ∀ header, headers[0]? = some header →
    ∀ other ∈ b.mBlockHeaderSet, other.hash ≠ header.mPreviousBlockHash
  distinct : (headers.map BlockHeader.hash).Nodup

theorem steps_stored {fuel : Nat} (h : steps (parent set) fuel found = some l)
    (hfound : ∀ header, found = some header → header ∈ set) : ∀ header ∈ l, header ∈ set := by
  induction l generalizing fuel found with
  | nil => simp
  | cons first l ih =>
    cases found with
    | none => cases steps_none_eq h
    | some header =>
      obtain ⟨_, l', _, hl, hl'⟩ := steps_some_eq h
      obtain ⟨rfl, rfl⟩ := List.cons.inj hl
      intro x hx
      rcases List.mem_cons.mp hx with rfl | hx
      · exact hfound _ rfl
      · exact ih hl' (fun _ hparent => parent_mem hparent) x hx

/-- The walk from the last header, turned around. -/
theorem builtChain_of_steps {b : BlockChainImpl} {fuel : Nat} {first : BlockHeader}
    (hfirst : b.mBlockHeaderSet.lookup b.mLastBlockHeader.hash = some first)
    (h : steps (parent b.mBlockHeaderSet) fuel (some first) = some l) : BuiltChain b l.reverse := by
  have hfound := KeyedSet.lookup_eq_some.mp hfirst
  have hmem := steps_stored h (fun header hheader => by
    obtain rfl := Option.some.inj hheader
    exact hfound.1)
  refine ⟨?_, ?_, ?_, ?_, ?_⟩
  · intro header hheader
    exact hmem header (List.mem_reverse.mp hheader)
  · obtain ⟨_, l', _, rfl, _⟩ := steps_some_eq h
    simp [hfound.2]
  · intro i header next hi hnext
    have hchain : l.reverse.IsChain (fun a c => Leads (parent b.mBlockHeaderSet) c a) :=
      List.isChain_reverse.mpr (steps_leads h)
    obtain ⟨hlt, rfl⟩ := List.getElem?_eq_some_iff.mp hi
    obtain ⟨hlt', rfl⟩ := List.getElem?_eq_some_iff.mp hnext
    have hparent := List.isChain_iff_getElem.mp hchain i hlt'
    exact (KeyedSet.lookup_eq_some.mp hparent).2.symm
  · intro header hheader other hother hhash
    obtain ⟨l', hl'⟩ : ∃ l', l = l' ++ [header] := by
      cases hrev : l.reverse with
      | nil => simp [hrev] at hheader
      | cons x xs =>
        rw [hrev] at hheader
        obtain rfl : x = header := by simpa using hheader
        exact ⟨xs.reverse, by simpa using congrArg List.reverse hrev⟩
    rw [hl'] at h
    have hnone : b.mBlockHeaderSet.lookup header.mPreviousBlockHash = none := steps_last h
    exact KeyedSet.lookup_eq_none.mp hnone other hother hhash
  · rw [List.map_reverse, List.nodup_reverse]
    exact (steps_nodup h).map_on
      (fun x hx y hy hxy => KeyedSet.eq_of_key_eq (hmem x hx) (hmem y hy) hxy)

/-- The number of headers on the way from the last header to a header without
a stored parent. -/
def ChainLength (b : BlockChainImpl) (n : Nat) : Prop :=
  ∃ fuel l, steps (parent b.mBlockHeaderSet) fuel
    (b.mBlockHeaderSet.lookup b.mLastBlockHeader.hash) = some l ∧ l.length = n

/-- What `buildBlockChain` computes from a walk of any length: the count is
kept in 32 bits. -/
theorem buildBlockChain_of_steps {b : BlockChainImpl} (hscan : b.mScanCount ≠ 0)
    (h : steps (parent b.mBlockHeaderSet) (b.mBlockHeaderSet.size + 1)
      (b.mBlockHeaderSet.lookup b.mLastBlockHeader.hash) = some l) :
    countHeaders b.mBlockHeaderSet (b.mBlockHeaderSet.size + 1)
        (b.mBlockHeaderSet.lookup b.mLastBlockHeader.hash) 0 = some (UInt32.ofNat l.length) ∧
    gatherHeaders b.mBlockHeaderSet (b.mBlockHeaderSet.size + 1)
        (b.mBlockHeaderSet.lookup b.mLastBlockHeader.hash) (UInt32.ofNat l.length - 1) =
      some (headerWrites (UInt32.ofNat l.length - 1) l) ∧
    b.buildBlockChain = some (UInt32.ofNat l.length, { b with
      mBlockChainHeaders := storeHeaders
        (List.replicate (UInt32.ofNat l.length).toNat default)
        (headerWrites (UInt32.ofNat l.length - 1) l)
      mBlockCount := UInt32.ofNat l.length
      mScanCount := 0 }) := by
  have hcount := countHeaders_eq b.mBlockHeaderSet (b.mBlockHeaderSet.size + 1)
    (b.mBlockHeaderSet.lookup b.mLastBlockHeader.hash) 0
  have hgather := gatherHeaders_eq b.mBlockHeaderSet (b.mBlockHeaderSet.size + 1)
    (b.mBlockHeaderSet.lookup b.mLastBlockHeader.hash) (UInt32.ofNat l.length - 1)
  rw [h, Option.map_some, UInt32.zero_add] at hcount
  rw [h, Option.map_some] at hgather
  refine ⟨hcount, hgather, ?_⟩
  unfold BlockChainImpl.buildBlockChain
  rw [if_pos hscan]
  simp only [Option.bind_eq_bind, hcount, Option.bind_some, hgather]

/-- A walk that 32 bits can count fills the array with its chain. -/
theorem builtChain_of_walk {b : BlockChainImpl} {first : BlockHeader} (hscan : b.mScanCount ≠ 0)
    (hfirst : b.mBlockHeaderSet.lookup b.mLastBlockHeader.hash = some first)
    (h : steps (parent b.mBlockHeaderSet) (b.mBlockHeaderSet.size + 1) (some first) = some l)
    (hlt : l.length < 2 ^ 32) :
    ∃ b', b.buildBlockChain = some (UInt32.ofNat l.length, b') ∧
      b'.mBlockCount = UInt32.ofNat l.length ∧ 0 < l.length ∧
      b'.mBlockChainHeaders.length = l.length ∧ BuiltChain b b'.mBlockChainHeaders := by
  obtain ⟨-, -, hbuild⟩ := buildBlockChain_of_steps hscan (hfirst ▸ h)
  have hpos : 0 < l.length := by
    obtain ⟨_, l', _, rfl, _⟩ := steps_some_eq h
    simp
  have hstore : storeHeaders (List.replicate l.length default)
      (headerWrites (UInt32.ofNat l.length - 1) l) = l.reverse := by
    rw [storeHeaders_writes l _ hlt (by simp)]
    simp
  rw [UInt32.toNat_ofNat_of_lt' hlt, hstore] at hbuild
  exact ⟨_, hbuild, rfl, hpos, List.length_reverse, builtChain_of_steps hfirst h⟩

/-- What a build that comes back has built. -/
theorem buildBlockChain_some {b b' : BlockChainImpl} {blockCount : UInt32}
    (hscan : b.mScanCount ≠ 0) (hlast : LastIsScanned b)
    (hlength : ∀ n, ChainLength b n → n < 2 ^ 32)
    (h : b.buildBlockChain = some (blockCount, b')) :
    b'.mBlockCount = blockCount ∧ 0 < blockCount.toNat ∧
      b'.mBlockChainHeaders.length = blockCount.toNat ∧ BuiltChain b b'.mBlockChainHeaders := by
  obtain ⟨first, hmem, hhash⟩ := hlast hscan
  have hfirst : b.mBlockHeaderSet.lookup b.mLastBlockHeader.hash = some first :=
    KeyedSet.lookup_eq_some.mpr ⟨hmem, hhash⟩
  cases hs : steps (parent b.mBlockHeaderSet) (b.mBlockHeaderSet.size + 1)
    (b.mBlockHeaderSet.lookup b.mLastBlockHeader.hash) with
  | none =>
    have hcount := countHeaders_eq b.mBlockHeaderSet (b.mBlockHeaderSet.size + 1)
      (b.mBlockHeaderSet.lookup b.mLastBlockHeader.hash) 0
    rw [hs, Option.map_none] at hcount
    unfold BlockChainImpl.buildBlockChain at h
    rw [if_pos hscan] at h
    simp only [Option.bind_eq_bind, hcount, Option.bind_none] at h
    cases h
  | some l =>
    have hlt := hlength l.length ⟨_, l, hs, rfl⟩
    obtain ⟨built, hbuild, hcount, hpos, hheaders, hchain⟩ :=
      builtChain_of_walk hscan hfirst (hfirst ▸ hs) hlt
    rw [h] at hbuild
    obtain ⟨rfl, rfl⟩ := Prod.mk.inj (Option.some.inj hbuild)
    rw [UInt32.toNat_ofNat_of_lt' hlt]
    exact ⟨hcount, hpos, hheaders, hchain⟩

/-! ## Headers in a row -/

/-- The number `n` as a hash. -/
def hashOf (n : Nat) : Hash256 := ⟨(leBytes 32 n).toArray, by simp⟩

theorem hashOf_inj {m n : Nat} (hm : m < 256 ^ 32) (hn : n < 256 ^ 32) (h : hashOf m = hashOf n) :
    m = n := by
  have hlist : leBytes 32 m = leBytes 32 n := by simpa [hashOf] using h
  rw [← leVal_leBytes_of_lt hm, ← leVal_leBytes_of_lt hn, hlist]

def linkedHeader (i : Nat) : BlockHeader :=
  { hash := hashOf (i + 1), mFileIndex := 0, mFileOffset := 0, mBlockLength := 80,
    mPreviousBlockHash := hashOf i }

theorem linkedHeader_nodup {n : Nat} (hn : n < 256 ^ 32) :
    (((List.range n).map linkedHeader).map BlockHeader.hash).Nodup := by
  rw [List.map_map]
  refine List.nodup_range.map_on ?_
  intro i hi j hj h
  have hi' := List.mem_range.mp hi
  have hj' := List.mem_range.mp hj
  have hinj := hashOf_inj (by omega) (by omega) h
  omega

/-- `n` headers, each linked to the one before it, and the scan that ends with them. -/
def linkedHeaders (n : Nat) (hn : n < 256 ^ 32) : BlockChainImpl :=
  { (default : BlockChainImpl) with
    mBlockHeaderSet := ⟨(List.range n).map linkedHeader, linkedHeader_nodup hn⟩
    mLastBlockHeader := linkedHeader (n - 1)
    mScanCount := 1 }

theorem mem_linkedHeaders {n : Nat} {hn : n < 256 ^ 32} {header : BlockHeader} :
    header ∈ (linkedHeaders n hn).mBlockHeaderSet ↔ ∃ i < n, linkedHeader i = header := by
  rw [linkedHeaders, KeyedSet.mem_def]
  simp

theorem parent_linkedHeader {n : Nat} {hn : n < 256 ^ 32} {i : Nat} (hi : i < n) :
    parent (linkedHeaders n hn).mBlockHeaderSet (linkedHeader i) =
      if i = 0 then none else some (linkedHeader (i - 1)) := by
  by_cases h0 : i = 0
  · rw [if_pos h0, parent, KeyedSet.lookup_eq_none]
    intro header hheader hhash
    obtain ⟨j, hj, rfl⟩ := mem_linkedHeaders.mp hheader
    have hinj := hashOf_inj (by omega) (by omega) hhash
    omega
  · rw [if_neg h0, parent, KeyedSet.lookup_eq_some]
    refine ⟨mem_linkedHeaders.mpr ⟨i - 1, by omega, rfl⟩, ?_⟩
    simp only [linkedHeader]
    congr 1
    omega

theorem steps_linkedHeaders {n : Nat} (hn : n < 256 ^ 32) (i : Nat) (hi : i < n) :
    steps (parent (linkedHeaders n hn).mBlockHeaderSet) (i + 2) (some (linkedHeader i)) =
      some ((List.range (i + 1)).map linkedHeader).reverse := by
  induction i with
  | zero => rw [steps_some, parent_linkedHeader hi, if_pos rfl]; rfl
  | succ i ih =>
    rw [steps_some, parent_linkedHeader hi, if_neg (by omega), Nat.add_sub_cancel, ih (by omega),
      List.range_succ (n := i + 1)]
    simp

theorem acyclic_linkedHeaders (n : Nat) (hn : n < 256 ^ 32) :
    Acyclic (parent (linkedHeaders n hn).mBlockHeaderSet) := by
  refine acyclic_of_rank (fun header => leVal header.hash.toList) (fun _ _ => parent_mem) ?_
  intro header parentHeader hmem hparent
  obtain ⟨i, hi, rfl⟩ := mem_linkedHeaders.mp hmem
  rw [parent_linkedHeader hi] at hparent
  split at hparent
  · cases hparent
  · obtain rfl := Option.some.inj hparent
    simp only [linkedHeader, hashOf, Vector.toList_mk]
    rw [leVal_leBytes_of_lt (by omega), leVal_leBytes_of_lt (by omega)]
    omega

/-- The walk over all of them. -/
theorem linkedHeaders_steps {n : Nat} (hn : n < 256 ^ 32) (hpos : 0 < n) :
    steps (parent (linkedHeaders n hn).mBlockHeaderSet)
      ((linkedHeaders n hn).mBlockHeaderSet.size + 1)
      ((linkedHeaders n hn).mBlockHeaderSet.lookup (linkedHeaders n hn).mLastBlockHeader.hash) =
      some ((List.range n).map linkedHeader).reverse := by
  have hlast : (linkedHeaders n hn).mBlockHeaderSet.lookup
      (linkedHeaders n hn).mLastBlockHeader.hash = some (linkedHeader (n - 1)) :=
    KeyedSet.lookup_eq_some.mpr ⟨mem_linkedHeaders.mpr ⟨n - 1, by omega, rfl⟩, rfl⟩
  have hsize : (linkedHeaders n hn).mBlockHeaderSet.size = n := by
    simp [linkedHeaders, KeyedSet.size]
  have hsteps := steps_linkedHeaders hn (n - 1) (by omega)
  rw [show n - 1 + 2 = n + 1 by omega, Nat.sub_add_cancel hpos] at hsteps
  rw [hlast, hsize, hsteps]

/-- Three headers in a row. -/
def threeHeaders : BlockChainImpl := linkedHeaders 3 (by norm_num)

/-! ## The built chain -/

/-- Without a cycle the chain is built, for a chain that 32 bits can count:
both loops take as many steps as the chain has headers, and each slot of the
array is written once. -/
theorem the_chain_of_the_last_header_is_built (b : BlockChainImpl) (hscan : b.mScanCount ≠ 0)
    (hlast : LastIsScanned b) (hacyclic : Acyclic (parent b.mBlockHeaderSet))
    (hlength : ∀ n, ChainLength b n → n < 2 ^ 32) :
    ∃ blockCount writes b',
      countHeaders b.mBlockHeaderSet (b.mBlockHeaderSet.size + 1)
        (b.mBlockHeaderSet.lookup b.mLastBlockHeader.hash) 0 = some blockCount ∧
      gatherHeaders b.mBlockHeaderSet (b.mBlockHeaderSet.size + 1)
        (b.mBlockHeaderSet.lookup b.mLastBlockHeader.hash) (blockCount - 1) = some writes ∧
      writes.length = blockCount.toNat ∧
      (writes.map (fun w => w.1.toNat)).Perm (List.range blockCount.toNat) ∧
      b.buildBlockChain = some (blockCount, b') ∧ b'.mBlockCount = blockCount ∧
      0 < blockCount.toNat ∧ b'.mBlockChainHeaders.length = blockCount.toNat ∧
      BuiltChain b b'.mBlockChainHeaders := by
  obtain ⟨first, hmem, hhash⟩ := hlast hscan
  have hfirst : b.mBlockHeaderSet.lookup b.mLastBlockHeader.hash = some first :=
    KeyedSet.lookup_eq_some.mpr ⟨hmem, hhash⟩
  obtain ⟨l, hl⟩ := steps_of_acyclic (S := b.mBlockHeaderSet.toList) (o := some first) hacyclic
    (fun _ _ => parent_mem) (fun a ha => Option.some.inj ha ▸ hmem)
  have hlt := hlength l.length ⟨_, l, hfirst ▸ hl, rfl⟩
  have hn : (UInt32.ofNat l.length).toNat = l.length := UInt32.toNat_ofNat_of_lt' hlt
  obtain ⟨hcount, hgather, -⟩ := buildBlockChain_of_steps hscan (hfirst ▸ hl)
  obtain ⟨b', hbuild, hblocks, hpos, hheaders, hchain⟩ := builtChain_of_walk hscan hfirst hl hlt
  have hslots := headerWrites_slots l hlt
  have hwrites : (headerWrites (UInt32.ofNat l.length - 1) l).length = l.length := by
    have hlen := congrArg List.length hslots
    simpa using hlen
  refine ⟨_, _, b', hcount, hgather, by rw [hwrites, hn], ?_, hbuild, hblocks, by omega,
    by rw [hheaders, hn], hchain⟩
  rw [hslots, hn]
  exact List.reverse_perm _

theorem three_linked_headers_are_built :
    ∃ blockCount writes b',
      countHeaders threeHeaders.mBlockHeaderSet (threeHeaders.mBlockHeaderSet.size + 1)
        (threeHeaders.mBlockHeaderSet.lookup threeHeaders.mLastBlockHeader.hash) 0 =
        some blockCount ∧
      gatherHeaders threeHeaders.mBlockHeaderSet (threeHeaders.mBlockHeaderSet.size + 1)
        (threeHeaders.mBlockHeaderSet.lookup threeHeaders.mLastBlockHeader.hash) (blockCount - 1) =
        some writes ∧
      writes.length = blockCount.toNat ∧
      (writes.map (fun w => w.1.toNat)).Perm (List.range blockCount.toNat) ∧
      threeHeaders.buildBlockChain = some (blockCount, b') ∧ b'.mBlockCount = blockCount ∧
      0 < blockCount.toNat ∧ b'.mBlockChainHeaders.length = blockCount.toNat ∧
      BuiltChain threeHeaders b'.mBlockChainHeaders := by
  refine the_chain_of_the_last_header_is_built threeHeaders (by simp [threeHeaders, linkedHeaders])
    (fun _ => ⟨linkedHeader 2, mem_linkedHeaders.mpr ⟨2, by omega, rfl⟩, rfl⟩)
    (acyclic_linkedHeaders 3 _) ?_
  rintro n ⟨fuel, l, hl, rfl⟩
  rw [steps_unique hl (linkedHeaders_steps _ (by omega))]
  simp

/-- A chain of 2 ^ 32 headers is counted as none at all: the array has no slot,
and the first write goes to the index 2 ^ 32 - 1. -/
theorem a_chain_of_4294967296_headers_is_not_stored :
    ∃ b : BlockChainImpl, b.mScanCount ≠ 0 ∧ LastIsScanned b ∧ Acyclic (parent b.mBlockHeaderSet) ∧
      ∃ writes b', countHeaders b.mBlockHeaderSet (b.mBlockHeaderSet.size + 1)
          (b.mBlockHeaderSet.lookup b.mLastBlockHeader.hash) 0 = some 0 ∧
        gatherHeaders b.mBlockHeaderSet (b.mBlockHeaderSet.size + 1)
          (b.mBlockHeaderSet.lookup b.mLastBlockHeader.hash) (0 - 1) = some writes ∧
        (0xFFFFFFFF, b.mLastBlockHeader) ∈ writes ∧ b.buildBlockChain = some (0, b') ∧
        b'.mBlockChainHeaders = [] := by
  obtain ⟨n, hn⟩ : ∃ n, n = 2 ^ 32 := ⟨_, rfl⟩
  have hfit : n < 256 ^ 32 := by rw [hn]; norm_num
  have hpos : 0 < n := by omega
  have hsteps := linkedHeaders_steps hfit hpos
  have hscan : (linkedHeaders n hfit).mScanCount ≠ 0 := by simp [linkedHeaders]
  obtain ⟨hcount, hgather, hbuild⟩ := buildBlockChain_of_steps hscan hsteps
  have hzero : UInt32.ofNat ((List.range n).map linkedHeader).reverse.length = 0 := by
    rw [List.length_reverse, List.length_map, List.length_range, hn]
    decide
  rw [hzero] at hcount hgather hbuild
  refine ⟨linkedHeaders n hfit, hscan, ?_, acyclic_linkedHeaders n hfit, _, _, hcount, hgather, ?_,
    hbuild, ?_⟩
  · intro _
    exact ⟨_, mem_linkedHeaders.mpr ⟨n - 1, by omega, rfl⟩, rfl⟩
  · obtain ⟨rest, hrest⟩ : ∃ rest, ((List.range n).map linkedHeader).reverse =
        linkedHeader (n - 1) :: rest := by
      rw [← Nat.sub_add_cancel hpos, List.range_succ]
      simp
    rw [hrest]
    exact List.mem_cons_self
  · apply List.eq_nil_of_length_eq_zero
    have hlen : ∀ (writes : List (UInt32 × BlockHeader)) (headers : List BlockHeader),
        (storeHeaders headers writes).length = headers.length := by
      intro writes
      induction writes with
      | nil => exact fun _ => rfl
      | cons w writes ih =>
        intro headers
        exact (ih _).trans List.length_set
    exact (hlen _ _).trans (by simp)

end bitcoinstats.block_chain
