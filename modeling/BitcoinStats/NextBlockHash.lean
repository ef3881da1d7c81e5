-- The hash that `nextBlockHash` of a block points to once the block is read:
-- the calls of `readBlock` after which it is the hash of the following block.
import BitcoinStats.ReadBlockSteps

open byte_memory keyed_set walk exec runs bitcoinstats.bitcoin_address

namespace bitcoinstats.block_chain

/-! ## The claim about one call -/

/-- The headers that a call of `readBlock` takes the address of. -/
def headersAccessed (mBlockCount blockIndex : UInt32) : List Nat :=
  if mBlockCount ≤ blockIndex then []
  else blockIndex.toNat :: (nextNext mBlockCount blockIndex none).toList

/-- The bytes behind `nextBlockHash` of the block that was read last. -/
def BlockChainImpl.nextBlockHash (b : BlockChainImpl) : Option Hash256 :=
  b.mSingleReadBlock.nextBlockHash.map
    (fun k => (b.mBlockChainHeaders.getD k default).mPreviousBlockHash)

/-- The hash of the block behind a block of the chain. -/
def BlockChainImpl.followingHash (b : BlockChainImpl) (blockIndex : UInt32) : Option Hash256 :=
  b.mBlockChainHeaders[blockIndex.toNat + 1]?.map BlockHeader.hash

def ReadsBlock (blockCount : UInt32) (call : Call) : Prop :=
  ∃ blockIndex returned, call = .readBlock blockIndex returned ∧ blockIndex < blockCount

variable (H : Hashes)

/-- The call that comes after the calls `before` stays inside of the array of
headers, and if it gives a block, then with the hash of the following one. -/
def NextIsRight (b : BlockChainImpl) (before : List Call) (blockIndex : UInt32) (returned : Bool) :
    Prop :=
  (∀ k ∈ headersAccessed b.mBlockCount blockIndex, k < b.mBlockCount.toNat) ∧
  (returned = true → ∀ b', Run (Step H) b (before ++ [.readBlock blockIndex returned]) b' →
    b'.nextBlockHash = b.followingHash blockIndex)

/-- No call before was one that sets `nextBlockHash`. -/
def NeverSet (blockCount : UInt32) (before : List Call) : Prop :=
  ∀ blockIndex returned, Call.readBlock blockIndex returned ∈ before →
    blockCount.toNat ≤ blockIndex.toNat + 2

/-- There is more than one block, and a block that is given is neither the one
before the last, nor the last one behind a block that set `nextBlockHash`. -/
def NextIsSet (blockCount : UInt32) (before : List Call) (blockIndex : UInt32) (returned : Bool) :
    Prop :=
  blockCount ≠ 1 ∧
  (returned = true → blockIndex.toNat + 2 < blockCount.toNat ∨
    blockIndex.toNat + 1 = blockCount.toNat ∧ NeverSet blockCount before)

/-! ## The pointer -/

theorem nextNext_eq {blockCount : UInt32} (h : 2 ≤ blockCount.toNat) (blockIndex : UInt32)
    (p : Option Nat) : nextNext blockCount blockIndex p =
      if blockIndex.toNat + 2 < blockCount.toNat then some (blockIndex.toNat + 2) else p := by
  have hcount := blockCount.toNat_lt
  have hsub : (blockCount - 2).toNat = blockCount.toNat - 2 := UInt32.toNat_sub_of_le _ _ h
  unfold nextNext
  by_cases hlt : blockIndex.toNat + 2 < blockCount.toNat
  · have hadd : (blockIndex + 2).toNat = blockIndex.toNat + 2 := by
      have htwo : (2 : UInt32).toNat = 2 := rfl
      rw [UInt32.toNat_add, htwo]
      exact Nat.mod_eq_of_lt (by omega)
    rw [if_pos hlt, if_pos (UInt32.lt_iff_toNat_lt.mpr (by omega)), hadd]
  · rw [if_neg hlt, if_neg (fun hlt' => hlt (by have := UInt32.lt_iff_toNat_lt.mp hlt'; omega))]

theorem nextBlockHash_invariant (p : Option Nat) :
    InvariantOfParser H (fun s => s.block.nextBlockHash = p) where
  advance _ _ h := h
  addReward _ _ h := h
  storeInput _ _ _ h := h
  storeOutput _ _ _ h := h
  setVersion _ _ _ h := h
  setInputs _ _ _ h := h
  setOutputs _ _ _ h := h
  finishTransaction _ _ _ _ _ h := h
  setHeader _ _ _ _ _ _ _ _ h := h

/-- The pointer behind a call: the parser does not touch it. -/
theorem readBlock_nextBlockHash {b b' : BlockChainImpl} {blockIndex : UInt32} {returned : Bool}
    (hrange : blockIndex < b.mBlockCount) (h : b.readBlock H blockIndex = .ok (returned, b')) :
    b'.mSingleReadBlock.nextBlockHash =
      nextNext b.mBlockCount blockIndex b.mSingleReadBlock.nextBlockHash := by
  rcases readBlock_cases H h with ⟨hle, -, -⟩ | ⟨-, s, hparsed, rfl⟩ | ⟨-, s, b2, hparsed, hindexed, rfl⟩
  · exact absurd hrange (UInt32.not_lt.mpr hle)
  · exact hparsed.invariant H (nextBlockHash_invariant H _) rfl
  · obtain ⟨total, inputs, outputs, set, rfl⟩ := hindexed.frame
    exact hparsed.invariant H (nextBlockHash_invariant H _) rfl

/-- The state behind calls of `readBlock` on a chain of at least two blocks. -/
structure PointerBehind (b : BlockChainImpl) (before : List Call) (b' : BlockChainImpl) : Prop where
  headers : b'.mBlockChainHeaders = b.mBlockChainHeaders
  count : b'.mBlockCount = b.mBlockCount
  unset : b'.mSingleReadBlock.nextBlockHash = none ↔ NeverSet b.mBlockCount before
  ahead : ∀ k, b'.mSingleReadBlock.nextBlockHash = some k → 2 ≤ k ∧ k < b.mBlockCount.toNat

theorem neverSet_concat {blockCount blockIndex : UInt32} {before : List Call} {returned : Bool} :
    NeverSet blockCount (before ++ [.readBlock blockIndex returned]) ↔
      NeverSet blockCount before ∧ blockCount.toNat ≤ blockIndex.toNat + 2 := by
  constructor
  · intro h
    exact ⟨fun i r hmem => h i r (List.mem_append_left _ hmem), h blockIndex returned (by simp)⟩
  · rintro ⟨hbefore, hlast⟩ i r hmem
    rcases List.mem_append.mp hmem with hmem | hmem
    · exact hbefore i r hmem
    · obtain ⟨rfl, -⟩ := Call.readBlock.inj (List.mem_singleton.mp hmem)
      exact hlast

variable {H}

theorem PointerBehind.readBlock {b b' b'' : BlockChainImpl} {before : List Call}
    {blockIndex : UInt32} {returned : Bool} (hcount : 2 ≤ b.mBlockCount.toNat)
    (h : PointerBehind b before b') (hrange : blockIndex < b.mBlockCount)
    (hread : b'.readBlock H blockIndex = .ok (returned, b'')) :
    PointerBehind b (before ++ [.readBlock blockIndex returned]) b'' := by
  have hframe := readBlock_frame H hread
  have hpointer := readBlock_nextBlockHash H (h.count.symm ▸ hrange) hread
  rw [h.count, nextNext_eq hcount] at hpointer
  refine ⟨hframe.headers.trans h.headers, hframe.count.trans h.count, ?_, ?_⟩
  · rw [hpointer, neverSet_concat]
    by_cases hlt : blockIndex.toNat + 2 < b.mBlockCount.toNat
    · simp [hlt]
    · rw [if_neg hlt, h.unset]
      exact ⟨fun hnever => ⟨hnever, by omega⟩, fun hnever => hnever.1⟩
  · intro k hk
    rw [hpointer] at hk
    by_cases hlt : blockIndex.toNat + 2 < b.mBlockCount.toNat
    · rw [if_pos hlt] at hk
      obtain rfl := Option.some.inj hk
      omega
    · rw [if_neg hlt] at hk
      exact h.ahead k hk

theorem pointerBehind_of_run {b b' : BlockChainImpl} {calls : List Call}
    (hcount : 2 ≤ b.mBlockCount.toNat) (hnone : b.mSingleReadBlock.nextBlockHash = none)
    (hrun : Run (Step H) b calls b') (hreads : ∀ call ∈ calls, ReadsBlock b.mBlockCount call) :
    PointerBehind b calls b' := by
  induction hrun with
  | nil =>
    exact ⟨rfl, rfl, by simp [hnone, NeverSet], fun k hk => by simp [hnone] at hk⟩
  | snoc _ last ih =>
    have hbefore := ih (fun call hmem => hreads call (List.mem_append_left _ hmem))
    obtain ⟨blockIndex, returned, rfl, hrange⟩ := hreads _ List.mem_concat_self
    cases last with
    | readBlock h => exact hbefore.readBlock hcount hrange h

/-! ## The hash -/

/-- A header two places ahead names the block between, which has a hash of its own. -/
theorem previous_hash_eq {b b' : BlockChainImpl} {n k i : Nat}
    (hchain : BuiltChain b b'.mBlockChainHeaders) (hn : b'.mBlockChainHeaders.length = n)
    (hk : 2 ≤ k ∧ k < n) (hi : i + 1 < n) :
    some (b'.mBlockChainHeaders.getD k default).mPreviousBlockHash =
        b'.mBlockChainHeaders[i + 1]?.map BlockHeader.hash ↔ k = i + 2 := by
  obtain ⟨j, rfl⟩ : ∃ j, k = j + 2 := ⟨k - 2, by omega⟩
  have hj : j + 1 < b'.mBlockChainHeaders.length := by omega
  have hj' : j + 2 < b'.mBlockChainHeaders.length := by omega
  have hi' : i + 1 < b'.mBlockChainHeaders.length := by omega
  have hlink := hchain.linked (j + 1) _ _ (List.getElem?_eq_getElem hj)
    (List.getElem?_eq_getElem hj')
  have hget : b'.mBlockChainHeaders.getD (j + 2) default = b'.mBlockChainHeaders[j + 2] := by
    rw [List.getD_eq_getElem?_getD, List.getElem?_eq_getElem hj', Option.getD_some]
  rw [hget, hlink, List.getElem?_eq_getElem hi', Option.map_some, Option.some.injEq]
  constructor
  · intro heq
    have hmap : j + 1 < (b'.mBlockChainHeaders.map BlockHeader.hash).length := by simpa using hj
    have hmap' : i + 1 < (b'.mBlockChainHeaders.map BlockHeader.hash).length := by simpa using hi'
    have hhashes : (b'.mBlockChainHeaders.map BlockHeader.hash)[j + 1] =
        (b'.mBlockChainHeaders.map BlockHeader.hash)[i + 1] := by
      rw [List.getElem_map, List.getElem_map, heq]
    have hinj := hchain.distinct.getElem_inj_iff.mp hhashes
    omega
  · intro heq
    obtain rfl : j = i := by omega
    rfl

theorem PointerBehind.hash_eq_iff {b b0 b' b'' : BlockChainImpl} {before : List Call}
    {blockIndex : UInt32} {returned : Bool} (hcount : 2 ≤ b.mBlockCount.toNat)
    (hchain : BuiltChain b0 b.mBlockChainHeaders)
    (hlength : b.mBlockChainHeaders.length = b.mBlockCount.toNat)
    (h : PointerBehind b before b') (hrange : blockIndex < b.mBlockCount)
    (hread : b'.readBlock H blockIndex = .ok (returned, b'')) :
    b''.nextBlockHash = b.followingHash blockIndex ↔
      blockIndex.toNat + 2 < b.mBlockCount.toNat ∨
        blockIndex.toNat + 1 = b.mBlockCount.toNat ∧ NeverSet b.mBlockCount before := by
  have hlt := UInt32.lt_iff_toNat_lt.mp hrange
  have hheaders := (readBlock_frame H hread).headers.trans h.headers
  have hpointer := readBlock_nextBlockHash H (h.count.symm ▸ hrange) hread
  rw [h.count, nextNext_eq hcount] at hpointer
  unfold BlockChainImpl.nextBlockHash BlockChainImpl.followingHash
  rw [hpointer, hheaders]
  by_cases hahead : blockIndex.toNat + 2 < b.mBlockCount.toNat
  · rw [if_pos hahead, Option.map_some,
      previous_hash_eq hchain hlength ⟨by omega, hahead⟩ (by omega)]
    exact ⟨fun _ => Or.inl hahead, fun _ => rfl⟩
  · rw [if_neg hahead]
    by_cases hlast : blockIndex.toNat + 1 = b.mBlockCount.toNat
    · have hnone : b.mBlockChainHeaders[blockIndex.toNat + 1]? = none :=
        List.getElem?_eq_none (by omega)
      rw [hnone, Option.map_none, Option.map_eq_none_iff, h.unset]
      exact ⟨fun hnever => Or.inr ⟨hlast, hnever⟩, fun hor => (hor.resolve_left hahead).2⟩
    · -- the block before the last: the pointer leads to a header before the next one
      refine iff_of_false ?_ (fun hor => hor.elim hahead (fun hand => hlast hand.1))
      intro heq
      cases hp : b'.mSingleReadBlock.nextBlockHash with
      | none =>
        rw [hp, Option.map_none, List.getElem?_eq_getElem (by omega)] at heq
        cases heq
      | some k =>
        have hk := h.ahead k hp
        rw [hp, Option.map_some, previous_hash_eq hchain hlength hk (by omega)] at heq
        omega

/-! ## The calls of a run -/

theorem headersAccessed_one {blockIndex : UInt32} (h : blockIndex < 1) :
    2 ∈ headersAccessed 1 blockIndex := by
  obtain rfl : blockIndex = 0 := by
    apply UInt32.toNat_inj.mp
    have hlt := UInt32.lt_iff_toNat_lt.mp h
    have hone : (1 : UInt32).toNat = 1 := rfl
    have hzero : (0 : UInt32).toNat = 0 := rfl
    omega
  decide

theorem headersAccessed_lt {blockCount blockIndex : UInt32} (hcount : 2 ≤ blockCount.toNat) :
    ∀ k ∈ headersAccessed blockCount blockIndex, k < blockCount.toNat := by
  intro k hk
  unfold headersAccessed at hk
  split at hk
  · cases hk
  · rename_i hrange
    have hlt := UInt32.lt_iff_toNat_lt.mp (UInt32.not_le.mp hrange)
    rw [nextNext_eq hcount] at hk
    rcases List.mem_cons.mp hk with rfl | hk
    · exact hlt
    · by_cases hahead : blockIndex.toNat + 2 < blockCount.toNat
      · rw [if_pos hahead] at hk
        obtain rfl : k = blockIndex.toNat + 2 := by simpa using hk
        exact hahead
      · rw [if_neg hahead] at hk
        cases hk

/-- The call behind a run is right just as the pointer leads two headers ahead
of it, or nowhere for the last block. -/
theorem nextIsRight_iff {b b0 b' : BlockChainImpl} {before : List Call} {blockIndex : UInt32}
    {returned : Bool} (hchain : BuiltChain b0 b.mBlockChainHeaders)
    (hlength : b.mBlockChainHeaders.length = b.mBlockCount.toNat)
    (hnone : b.mSingleReadBlock.nextBlockHash = none)
    (hrun : Run (Step H) b (before ++ [.readBlock blockIndex returned]) b')
    (hreads : ∀ call ∈ before ++ [.readBlock blockIndex returned], ReadsBlock b.mBlockCount call) :
    NextIsRight H b before blockIndex returned ↔
      NextIsSet b.mBlockCount before blockIndex returned := by
  obtain ⟨_, _, hcall, hrange⟩ := hreads _ List.mem_concat_self
  obtain ⟨rfl, -⟩ := Call.readBlock.inj hcall
  have hbefore : ∀ call ∈ before, ReadsBlock b.mBlockCount call :=
    fun call hmem => hreads call (List.mem_append_left _ hmem)
  by_cases hone : b.mBlockCount = 1
  · refine iff_of_false ?_ (fun hset => hset.1 hone)
    rintro ⟨haccess, -⟩
    rw [hone] at haccess hrange
    exact absurd (haccess 2 (headersAccessed_one hrange)) (by decide)
  · have hcount : 2 ≤ b.mBlockCount.toNat := by
      have hlt := UInt32.lt_iff_toNat_lt.mp hrange
      have hne : b.mBlockCount.toNat ≠ 1 := fun heq => hone (UInt32.toNat_inj.mp heq)
      omega
    have hiff : ∀ s, Run (Step H) b (before ++ [.readBlock blockIndex returned]) s →
        (s.nextBlockHash = b.followingHash blockIndex ↔
          blockIndex.toNat + 2 < b.mBlockCount.toNat ∨
            blockIndex.toNat + 1 = b.mBlockCount.toNat ∧ NeverSet b.mBlockCount before) := by
      intro s hs
      obtain ⟨t, ht, hlast⟩ := hs.of_concat
      cases hlast with
      | readBlock hread =>
        exact (pointerBehind_of_run hcount hnone ht hbefore).hash_eq_iff hcount hchain hlength
          hrange hread
    constructor
    · rintro ⟨-, hright⟩
      exact ⟨hone, fun hret => (hiff b' hrun).mp (hright hret b' hrun)⟩
    · rintro ⟨-, hset⟩
      exact ⟨headersAccessed_lt hcount, fun hret s hs => (hiff s hs).mpr (hset hret)⟩

/-- On a built chain every call of `readBlock` in a run is right exactly when
each meets the condition. -/
theorem the_next_block_hash_is_right_exactly_where_it_is_set (H : Hashes)
    (b0 b b' : BlockChainImpl) (blockCount : UInt32) (calls : List Call) (hreached : Reached H b0)
    (hscan : b0.mScanCount ≠ 0) (hlength : ∀ n, ChainLength b0 n → n < 2 ^ 32)
    (hbuild : b0.buildBlockChain = some (blockCount, b)) (hrun : Run (Step H) b calls b')
    (hreads : ∀ call ∈ calls, ReadsBlock blockCount call) :
    (∀ before blockIndex returned after,
      calls = before ++ .readBlock blockIndex returned :: after →
        NextIsRight H b before blockIndex returned) ↔
    (∀ before blockIndex returned after,
      calls = before ++ .readBlock blockIndex returned :: after →
        NextIsSet blockCount before blockIndex returned) := by
  obtain ⟨hcount, -, hheaders, hchain⟩ :=
    buildBlockChain_some hscan hreached.lastIsScanned hlength hbuild
  have hunread := (hreached.build hbuild).unread
  subst hcount
  have hone : ∀ before blockIndex returned after,
      calls = before ++ .readBlock blockIndex returned :: after →
        (NextIsRight H b before blockIndex returned ↔
          NextIsSet b.mBlockCount before blockIndex returned) := by
    rintro before blockIndex returned after rfl
    have hsplit : before ++ Call.readBlock blockIndex returned :: after =
        (before ++ [Call.readBlock blockIndex returned]) ++ after := by simp
    rw [hsplit] at hrun hreads
    obtain ⟨s, hs, -⟩ := hrun.of_append
    exact nextIsRight_iff hchain hheaders hunread.nextBlockHash hs
      (fun call hmem => hreads call (List.mem_append_left _ hmem))
  constructor
  · intro hright before blockIndex returned after heq
    exact (hone before blockIndex returned after heq).mp (hright before blockIndex returned after heq)
  · intro hset before blockIndex returned after heq
    exact (hone before blockIndex returned after heq).mpr (hset before blockIndex returned after heq)

/-! ## A chain of one block -/

/-- A header of zeros, and no transaction. -/
def emptyBlockScanned : BlockChainImpl := oneBlockScanned zeroHeaderHashes (List.replicate 81 0)

theorem emptyBlock_read : (emptyBlockScanned.buildAndRead zeroHeaderHashes 0).map (fun r =>
      (r.blockCount, r.returned, r.read.mSingleReadBlock.nextBlockHash)) = some (1, true, some 2) := by
  decide +kernel

theorem emptyBlock_built : ∃ b b', emptyBlockScanned.buildBlockChain = some (1, b) ∧
    b.readBlock zeroHeaderHashes 0 = .ok (true, b') ∧
    b'.mSingleReadBlock.nextBlockHash = some 2 := by
  obtain ⟨r, hr, hvalues⟩ := Option.map_eq_some_iff.mp emptyBlock_read
  obtain ⟨hbuild, hread⟩ := buildAndRead_eq zeroHeaderHashes hr
  obtain ⟨hcount, hrest⟩ := Prod.mk.inj hvalues
  obtain ⟨hreturned, hpointer⟩ := Prod.mk.inj hrest
  rw [hcount] at hbuild
  rw [hreturned] at hread
  exact ⟨_, _, hbuild, hread, hpointer⟩

theorem emptyBlock_chainLength {n : Nat} (h : ChainLength emptyBlockScanned n) : n = 1 := by
  obtain ⟨fuel, l, hl, rfl⟩ := h
  have hone : (steps (parent emptyBlockScanned.mBlockHeaderSet) 2
      (emptyBlockScanned.mBlockHeaderSet.lookup emptyBlockScanned.mLastBlockHeader.hash)).map
        List.length = some 1 := by decide +kernel
  obtain ⟨l', hl', hlength⟩ := Option.map_eq_some_iff.mp hone
  rw [steps_unique hl hl', hlength]

theorem the_only_block_is_read_exactly_where_next_is_set : ∃ b,
    (∀ before blockIndex returned after,
      [Call.readBlock 0 true] = before ++ .readBlock blockIndex returned :: after →
        NextIsRight zeroHeaderHashes b before blockIndex returned) ↔
    (∀ before blockIndex returned after,
      [Call.readBlock 0 true] = before ++ .readBlock blockIndex returned :: after →
        NextIsSet 1 before blockIndex returned) := by
  obtain ⟨b, b', hbuild, hread, -⟩ := emptyBlock_built
  refine ⟨b, the_next_block_hash_is_right_exactly_where_it_is_set zeroHeaderHashes emptyBlockScanned
    b b' 1 [.readBlock 0 true] (oneBlockScanned_reached _ _) (by decide +kernel) ?_ hbuild
    (Run.nil.snoc (.readBlock hread)) ?_⟩
  · intro n hn
    rw [emptyBlock_chainLength hn]
    norm_num
  · intro call hcall
    exact ⟨0, true, List.mem_singleton.mp hcall, by decide⟩

/-- The one block of a chain has a `nextBlockHash` that leads two headers
behind the end of the array. -/
theorem the_only_block_has_a_next_block : ∃ b b', Reached zeroHeaderHashes emptyBlockScanned ∧
    emptyBlockScanned.mScanCount ≠ 0 ∧ (∀ n, ChainLength emptyBlockScanned n → n = 1) ∧
    emptyBlockScanned.buildBlockChain = some (1, b) ∧
    b.readBlock zeroHeaderHashes 0 = .ok (true, b') ∧ b'.nextBlockHash ≠ none ∧
    2 ∈ headersAccessed b.mBlockCount 0 := by
  obtain ⟨b, b', hbuild, hread, hpointer⟩ := emptyBlock_built
  have hcount : b.mBlockCount = 1 := by
    obtain ⟨hcount, -⟩ := buildBlockChain_some (b := emptyBlockScanned) (by decide +kernel)
      (oneBlockScanned_reached _ _).lastIsScanned
      (fun n hn => by rw [emptyBlock_chainLength hn]; norm_num) hbuild
    exact hcount
  refine ⟨b, b', oneBlockScanned_reached _ _, by decide +kernel,
    fun n hn => emptyBlock_chainLength hn, hbuild, hread, ?_, ?_⟩
  · unfold BlockChainImpl.nextBlockHash
    rw [hpointer]
    exact Option.some_ne_none _
  · rw [hcount]
    decide

end bitcoinstats.block_chain
