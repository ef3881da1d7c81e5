-- The loop over the records of `blocks.cpp`: what the table and the counters
-- hold behind any records, in any order, and the loop over the heights.
import BitcoinStats.Blocks

open byte_memory keyed_set calendar decimal_text bitcoinstats.block_chain bitcoinstats.block_index
  bitcoinstats.key_value_database

namespace bitcoinstats.blocks

/-! ## The records of the database -/

section Database

variable {db : LevelDB} {entries : List Entry} {ahead : db.Iterator → List Entry}

/-- What `next` gives from call to call, up to the call that returns false. -/
def nextRecords : Nat → KeyValueDatabaseImpl db → Option (List Entry)
  | 0, _ => none
  | fuel + 1, this =>
    let r := this.next [] []
    if r.ret then (nextRecords fuel r.this).map ((r.key, r.value) :: ·) else some []

theorem nextRecords_eq (h : WalksMap db entries ahead) {this : KeyValueDatabaseImpl db}
    {left : List Entry} {fuel : Nat} (hnozero : 0 ∉ this.mPrefix) (hgives : Gives ahead this left)
    (hfuel : left.length < fuel) : nextRecords fuel this = some left := by
  induction fuel generalizing this left with
  | zero => omega
  | succ fuel ih =>
    obtain ⟨hret, hgives', hsame⟩ := next_gives h hnozero hgives [] []
    unfold nextRecords
    cases left with
    | nil =>
      have hfalse : ¬ (this.next [] []).ret = true := by
        intro htrue
        rw [if_pos htrue] at hret
        cases hret
      simp only [if_neg hfalse]
    | cons e left =>
      have htrue : (this.next [] []).ret = true := by
        by_contra hfalse
        rw [if_neg hfalse] at hret
        cases hret
      rw [if_pos htrue] at hret
      rw [List.length_cons] at hfuel
      simp only [if_pos htrue]
      rw [ih (hsame.symm ▸ hnozero) hgives' (by simpa using hfuel), Option.map_some, List.tail_cons,
        Option.some.inj hret]

/-- The loop of the constructor reads the entries whose keys start with "b". -/
theorem records_of_b (h : WalksMap db entries ahead) :
    nextRecords (entries.length + 1) ((KeyValueDatabaseImpl.new db).begin (some [98])).2 =
      some (matching entries [98]) := by
  obtain ⟨hgives, hnozero⟩ := begin_gives h (KeyValueDatabaseImpl.new db) (some [98])
  have hzero : 0 ∉ ((KeyValueDatabaseImpl.new db).begin (some [98])).2.mPrefix := by
    rw [hnozero]
    decide
  have hlength : (matching entries [98]).length ≤ entries.length := List.length_filter_le _ _
  exact nextRecords_eq h hzero hgives (by simpa using Nat.lt_succ_of_le hlength)

end Database

/-! ## The table -/

/-- The block that a record of the database holds. -/
def decodeRecord (record : Entry) : Option CBlockIndex :=
  (readRecord (record.1 ++ [0]) (record.2 ++ [0]) record.2.length).map ReadRecord.cb

/-- The loop over records that can all be read. -/
theorem scan_eq {records : List Entry} {cbs : List CBlockIndex} (s : RecordScan)
    (h : records.map decodeRecord = cbs.map some) :
    s.scan records = some (cbs.foldl RecordScan.addRecord s) := by
  induction records generalizing s cbs with
  | nil =>
    cases cbs with
    | nil => rfl
    | cons cb cbs => cases h
  | cons record records ih =>
    cases cbs with
    | nil => cases h
    | cons cb cbs =>
      rw [List.map_cons, List.map_cons] at h
      obtain ⟨hrecord, hrest⟩ := List.cons.inj h
      obtain ⟨r, hr, rfl⟩ := Option.map_eq_some_iff.mp hrecord
      unfold RecordScan.scan RecordScan.step
      simp only [hr, Option.bind_eq_bind, Option.bind_some]
      exact ih _ hrest

/-- The loop gets through no other records. -/
theorem scan_some {records : List Entry} {s s' : RecordScan} (h : s.scan records = some s') :
    ∃ cbs : List CBlockIndex, records.map decodeRecord = cbs.map some := by
  induction records generalizing s with
  | nil => exact ⟨[], rfl⟩
  | cons record records ih =>
    unfold RecordScan.scan RecordScan.step at h
    simp only [Option.bind_eq_bind, Option.bind_eq_some_iff] at h
    obtain ⟨s1, ⟨r, hr, -⟩, hrest⟩ := h
    obtain ⟨cbs, hcbs⟩ := ih hrest
    refine ⟨r.cb :: cbs, ?_⟩
    rw [List.map_cons, List.map_cons, hcbs, decodeRecord, hr]
    rfl

/-- The lowest height is not above the highest, so that no height is left out
by the `else`. -/
theorem updateRange_eq (s : RecordScan) (h : UInt32)
    (hrange : s.firstBlock = false → s.blockLow ≤ s.blockHigh) :
    s.updateRange h = { s with
      firstBlock := false
      blockLow := if s.firstBlock ∨ h < s.blockLow then h else s.blockLow
      blockHigh := if s.firstBlock ∨ s.blockHigh < h then h else s.blockHigh } := by
  obtain ⟨mBlocks, mBlockHeight, blockCount, low, high, firstBlock, assertReached⟩ := s
  unfold RecordScan.updateRange
  cases firstBlock with
  | true => simp
  | false =>
    have hle : low ≤ high := hrange rfl
    by_cases hlow : h < low
    · have hnot : ¬ high < h :=
        UInt32.not_lt.mpr (UInt32.le_of_lt (UInt32.lt_of_lt_of_le hlow hle))
      simp [hlow, hnot]
    · by_cases hhigh : high < h
      · simp [hlow, hhigh]
      · simp [hlow, hhigh]

/-- What the loop holds behind the records of the blocks. -/
structure Scanned (cbs : List CBlockIndex) (s : RecordScan) : Prop where
  mBlocks : s.mBlocks = (KeyedSet.empty _).insertAll cbs
  assertReached : s.assertReached = true ↔ ¬ (cbs.map blockHeight).Nodup
  firstBlock : s.firstBlock = true ↔ cbs = []
  le_top : ∀ cb ∈ cbs, blockHeight cb ≤ s.mBlockHeight
  top : cbs ≠ [] → ∃ cb ∈ cbs, blockHeight cb = s.mBlockHeight
  low_le : ∀ cb ∈ cbs, s.blockLow ≤ blockHeight cb
  low : cbs ≠ [] → ∃ cb ∈ cbs, blockHeight cb = s.blockLow
  high : s.blockHigh = s.mBlockHeight
  empty : cbs = [] → s.mBlockHeight = 0 ∧ s.blockLow = 0

theorem scanned_new : Scanned [] .new where
  mBlocks := rfl
  assertReached := by simp [RecordScan.new]
  firstBlock := by simp [RecordScan.new]
  le_top := by simp
  top h := absurd rfl h
  low_le := by simp
  low h := absurd rfl h
  high := rfl
  empty _ := ⟨rfl, rfl⟩

theorem mem_heights_iff {cbs : List CBlockIndex} {cb : CBlockIndex} :
    blockHeight cb ∈ cbs.map blockHeight ↔
      ((KeyedSet.empty blockHeight).insertAll cbs).lookup (blockHeight cb) ≠ none := by
  rw [KeyedSet.lookup_insertAll, KeyedSet.lookup_empty, Option.none_or, ne_eq, List.find?_eq_none]
  simp

/-- A height that the table has: only the assertion is noted. -/
theorem Scanned.addPresent {cbs : List CBlockIndex} {s : RecordScan} (h : Scanned cbs s)
    {cb : CBlockIndex} (hmem : blockHeight cb ∈ cbs.map blockHeight) :
    Scanned (cbs ++ [cb]) (s.addRecord cb) := by
  obtain ⟨found, hfound⟩ : ∃ found, s.mBlocks.lookup (blockHeight cb) = some found := by
    rw [h.mBlocks]
    exact Option.ne_none_iff_exists'.mp (mem_heights_iff.mp hmem)
  have hstep : s.addRecord cb =
      { s with assertReached := true, blockCount := s.blockCount + 1 } := by
    unfold RecordScan.addRecord
    rw [hfound]
  obtain ⟨other, hother, hheight⟩ := List.mem_map.mp hmem
  have hne : cbs ≠ [] := List.ne_nil_of_mem hother
  rw [hstep]
  refine ⟨?_, ?_, ?_, ?_, ?_, ?_, ?_, h.high, by simp⟩
  · rw [KeyedSet.insertAll_append, ← h.mBlocks]
    simp only [KeyedSet.insertAll, List.foldl_cons, List.foldl_nil, KeyedSet.insert]
    have hin : blockHeight cb ∈ s.mBlocks.toList.map blockHeight := by
      obtain ⟨hfmem, hkey⟩ := KeyedSet.lookup_eq_some.mp hfound
      exact List.mem_map.mpr ⟨found, hfmem, hkey⟩
    rw [dif_pos hin]
  · simp only [List.map_append, List.map_cons, List.map_nil, true_iff]
    intro hnodup
    exact (List.nodup_append.mp hnodup).2.2 _ hmem _ (List.mem_singleton_self _) rfl
  · have hfirst : ¬ s.firstBlock = true := fun hfirst => hne (h.firstBlock.mp hfirst)
    simp [hfirst]
  · intro x hx
    rcases List.mem_append.mp hx with hx | hx
    · exact h.le_top x hx
    · rw [List.mem_singleton.mp hx, ← hheight]
      exact h.le_top other hother
  · intro _
    obtain ⟨x, hx, htop⟩ := h.top hne
    exact ⟨x, List.mem_append_left _ hx, htop⟩
  · intro x hx
    rcases List.mem_append.mp hx with hx | hx
    · exact h.low_le x hx
    · rw [List.mem_singleton.mp hx, ← hheight]
      exact h.low_le other hother
  · intro _
    obtain ⟨x, hx, hlow⟩ := h.low hne
    exact ⟨x, List.mem_append_left _ hx, hlow⟩

/-- The greatest value of a list with one more element. -/
theorem greatest_snoc {α : Type} {f : α → UInt32} {xs : List α} {m m' : UInt32} (a : α)
    (hle : ∀ x ∈ xs, f x ≤ m) (hmem : xs ≠ [] → ∃ x ∈ xs, f x = m) (hempty : xs = [] → m = 0)
    (hm' : m' = if m < f a then f a else m) :
    (∀ x ∈ xs ++ [a], f x ≤ m') ∧ ∃ x ∈ xs ++ [a], f x = m' := by
  have hlast : a ∈ xs ++ [a] := List.mem_append_right _ (List.mem_singleton_self _)
  by_cases hlt : m < f a
  · rw [if_pos hlt] at hm'
    refine ⟨?_, a, hlast, hm'.symm⟩
    intro x hx
    rw [hm']
    rcases List.mem_append.mp hx with hx | hx
    · exact UInt32.le_trans (hle x hx) (UInt32.le_of_lt hlt)
    · rw [List.mem_singleton.mp hx]
      exact UInt32.le_refl _
  · rw [if_neg hlt] at hm'
    rw [hm']
    constructor
    · intro x hx
      rcases List.mem_append.mp hx with hx | hx
      · exact hle x hx
      · rw [List.mem_singleton.mp hx]
        exact UInt32.not_lt.mp hlt
    · by_cases hne : xs = []
      · refine ⟨a, hlast, UInt32.le_antisymm (UInt32.not_lt.mp hlt) ?_⟩
        rw [hempty hne]
        exact UInt32.zero_le
      · obtain ⟨x, hx, hxm⟩ := hmem hne
        exact ⟨x, List.mem_append_left _ hx, hxm⟩

/-- The least value of a list with one more element, which may be the first. -/
theorem least_snoc {α : Type} {f : α → UInt32} {xs : List α} {m m' : UInt32} {first : Bool} (a : α)
    (hle : ∀ x ∈ xs, m ≤ f x) (hmem : xs ≠ [] → ∃ x ∈ xs, f x = m) (hfirst : first = true ↔ xs = [])
    (hm' : m' = if first ∨ f a < m then f a else m) :
    (∀ x ∈ xs ++ [a], m' ≤ f x) ∧ ∃ x ∈ xs ++ [a], f x = m' := by
  by_cases hor : first = true ∨ f a < m
  · rw [if_pos hor] at hm'
    refine ⟨?_, a, List.mem_append_right _ (List.mem_singleton_self _), hm'.symm⟩
    intro x hx
    rw [hm']
    rcases List.mem_append.mp hx with hx | hx
    · have hlt := hor.resolve_left (fun h => List.ne_nil_of_mem hx (hfirst.mp h))
      exact UInt32.le_trans (UInt32.le_of_lt hlt) (hle x hx)
    · rw [List.mem_singleton.mp hx]
      exact UInt32.le_refl _
  · rw [if_neg hor] at hm'
    rw [hm']
    constructor
    · intro x hx
      rcases List.mem_append.mp hx with hx | hx
      · exact hle x hx
      · rw [List.mem_singleton.mp hx]
        exact UInt32.not_lt.mp (fun hlt => hor (Or.inr hlt))
    · obtain ⟨x, hx, hxm⟩ := hmem (fun hnil => hor (Or.inl (hfirst.mpr hnil)))
      exact ⟨x, List.mem_append_left _ hx, hxm⟩

theorem Scanned.range {cbs : List CBlockIndex} {s : RecordScan} (h : Scanned cbs s)
    (hfirst : s.firstBlock = false) : s.blockLow ≤ s.blockHigh := by
  have hne : cbs ≠ [] := fun hnil => by simp [h.firstBlock.mpr hnil] at hfirst
  obtain ⟨x, hx, htop⟩ := h.top hne
  rw [h.high, ← htop]
  exact h.low_le x hx

/-- The highest height of the range is the height of the chain, the first one too. -/
theorem Scanned.high_eq {cbs : List CBlockIndex} {s : RecordScan} (h : Scanned cbs s)
    (height : UInt32) :
    (if s.firstBlock ∨ s.blockHigh < height then height else s.blockHigh) =
      if s.mBlockHeight < height then height else s.mBlockHeight := by
  rw [h.high]
  by_cases hfirst : s.firstBlock = true
  · obtain ⟨hzero, -⟩ := h.empty (h.firstBlock.mp hfirst)
    rw [if_pos (Or.inl hfirst), hzero]
    split
    · rfl
    · rename_i hle
      exact UInt32.le_antisymm (UInt32.not_lt.mp hle) (UInt32.zero_le)
  · simp [hfirst]

theorem Scanned.storeRecord_eq {cbs : List CBlockIndex} {s : RecordScan} (h : Scanned cbs s)
    (cb : CBlockIndex) {top low : UInt32}
    (htop : top = if s.mBlockHeight < blockHeight cb then blockHeight cb else s.mBlockHeight)
    (hlow : low =
      if s.firstBlock ∨ blockHeight cb < s.blockLow then blockHeight cb else s.blockLow) :
    s.storeRecord cb =
      { s with
        mBlocks := s.mBlocks.insert cb, mBlockHeight := top, firstBlock := false, blockLow := low
        blockHigh := top } := by
  have hstore := updateRange_eq { s with
    mBlocks := s.mBlocks.insert cb
    mBlockHeight := if s.mBlockHeight < blockHeight cb then blockHeight cb else s.mBlockHeight }
    (blockHeight cb) h.range
  simp only [h.high_eq] at hstore
  rw [htop, hlow]
  exact hstore

/-- A height that is new: it is stored, and the range grows with it. -/
theorem Scanned.addNew {cbs : List CBlockIndex} {s : RecordScan} (h : Scanned cbs s)
    {cb : CBlockIndex} (hnew : blockHeight cb ∉ cbs.map blockHeight) :
    Scanned (cbs ++ [cb]) (s.addRecord cb) := by
  have hnone : s.mBlocks.lookup (blockHeight cb) = none := by
    rw [h.mBlocks]
    exact not_not.mp (fun hsome => hnew (mem_heights_iff.mpr hsome))
  obtain ⟨top, htop⟩ : ∃ top, top =
    if s.mBlockHeight < blockHeight cb then blockHeight cb else s.mBlockHeight := ⟨_, rfl⟩
  obtain ⟨low, hlow⟩ : ∃ low, low =
    if s.firstBlock ∨ blockHeight cb < s.blockLow then blockHeight cb else s.blockLow := ⟨_, rfl⟩
  obtain ⟨hletop, hmemtop⟩ := greatest_snoc cb h.le_top h.top (fun hnil => (h.empty hnil).1) htop
  obtain ⟨hlowle, hmemlow⟩ := least_snoc cb h.low_le h.low h.firstBlock hlow
  have hstep : s.addRecord cb =
      { s with
        mBlocks := s.mBlocks.insert cb, mBlockHeight := top, firstBlock := false, blockLow := low
        blockHigh := top, blockCount := s.blockCount + 1 } := by
    unfold RecordScan.addRecord
    rw [hnone]
    simp only [h.storeRecord_eq cb htop hlow]
  rw [hstep]
  refine ⟨?_, ?_, by simp, hletop, fun _ => hmemtop, hlowle, fun _ => hmemlow, rfl, by simp⟩
  · rw [KeyedSet.insertAll_append, ← h.mBlocks]
    rfl
  · simp only [List.map_append, List.map_cons, List.map_nil]
    rw [h.assertReached, List.nodup_append, not_iff_not]
    refine ⟨fun hnodup => ⟨hnodup, List.nodup_singleton _, ?_⟩, fun hand => hand.1⟩
    rintro k hk k' hk' rfl
    exact hnew (List.mem_singleton.mp hk' ▸ hk)

theorem scanned_foldl (cbs : List CBlockIndex) :
    Scanned cbs (cbs.foldl RecordScan.addRecord .new) := by
  induction cbs using List.reverseRecOn with
  | nil => exact scanned_new
  | append_singleton cbs cb ih =>
    rw [List.foldl_append]
    by_cases hmem : blockHeight cb ∈ cbs.map blockHeight
    · exact ih.addPresent hmem
    · exact ih.addNew hmem

/-! ## The loop over the heights -/

/-- The heights from `i` up to `blockHigh`. -/
def heightsFrom (i blockHigh : UInt32) : List UInt32 :=
  (List.range' i.toNat (blockHigh.toNat + 1 - i.toNat)).map UInt32.ofNat

/-- Below the last height of 32 bits the counter does not turn over. -/
theorem succ_toNat {i blockHigh : UInt32} (h : i ≤ blockHigh) (hhigh : blockHigh ≠ 0xFFFFFFFF) :
    (i + 1).toNat = i.toNat + 1 := by
  have hle := UInt32.le_iff_toNat_le.mp h
  have hlt := blockHigh.toNat_lt
  have hmax : (0xFFFFFFFF : UInt32).toNat = 2 ^ 32 - 1 := rfl
  have hne : blockHigh.toNat ≠ (0xFFFFFFFF : UInt32).toNat := fun heq => hhigh (UInt32.toNat_inj.mp heq)
  have hone : (1 : UInt32).toNat = 1 := rfl
  rw [UInt32.toNat_add, hone]
  exact Nat.mod_eq_of_lt (by omega)

theorem heightsFrom_cons {i blockHigh : UInt32} (h : i ≤ blockHigh) (hhigh : blockHigh ≠ 0xFFFFFFFF) :
    heightsFrom i blockHigh = i :: heightsFrom (i + 1) blockHigh := by
  have hle := UInt32.le_iff_toNat_le.mp h
  have hcount : blockHigh.toNat + 1 - i.toNat = (blockHigh.toNat - i.toNat) + 1 := by omega
  unfold heightsFrom
  rw [hcount, List.range'_succ, List.map_cons, UInt32.ofNat_toNat, succ_toNat h hhigh]
  congr 3
  omega

theorem heightsFrom_nil {i blockHigh : UInt32} (h : blockHigh < i) : heightsFrom i blockHigh = [] := by
  have hlt := UInt32.lt_iff_toNat_lt.mp h
  unfold heightsFrom
  rw [Nat.sub_eq_zero_of_le (by omega)]
  rfl

theorem mem_heightsFrom {i blockHigh h : UInt32} :
    h ∈ heightsFrom i blockHigh ↔ i ≤ h ∧ h ≤ blockHigh := by
  unfold heightsFrom
  simp only [List.mem_map, List.mem_range'_1, UInt32.le_iff_toNat_le]
  constructor
  · rintro ⟨n, hn, rfl⟩
    have hlt := blockHigh.toNat_lt
    have hsize : n < UInt32.size := lt_of_lt_of_le (by omega : n < 2 ^ 32) le_rfl
    rw [UInt32.toNat_ofNat_of_lt' hsize]
    omega
  · rintro ⟨hle, hle'⟩
    exact ⟨h.toNat, by omega, UInt32.ofNat_toNat⟩

/-- The heights are taken in turn, each once. -/
theorem addHeights_eq (mBlocks : BlockIndexMap) {blockHigh : UInt32} (hhigh : blockHigh ≠ 0xFFFFFFFF)
    (fuel : Nat) (i : UInt32) (mDays : BlockDayMap) (hfuel : blockHigh.toNat + 2 ≤ fuel + i.toNat)
    (hpos : 0 < fuel) :
    addHeights mBlocks blockHigh fuel i mDays =
      some ((heightsFrom i blockHigh).foldl (addHeight mBlocks) mDays) := by
  induction fuel generalizing i mDays with
  | zero => omega
  | succ fuel ih =>
    unfold addHeights
    by_cases hle : i ≤ blockHigh
    · have hnat := UInt32.le_iff_toNat_le.mp hle
      have hnext := succ_toNat hle hhigh
      rw [if_pos hle, heightsFrom_cons hle hhigh, List.foldl_cons]
      exact ih _ _ (by omega) (by omega)
    · rw [if_neg hle, heightsFrom_nil (UInt32.not_le.mp hle)]
      rfl

/-- With the last height of 32 bits the loop never ends. -/
theorem addHeights_never_ends (mBlocks : BlockIndexMap) (fuel : Nat) (i : UInt32) (mDays : BlockDayMap) :
    addHeights mBlocks 0xFFFFFFFF fuel i mDays = none := by
  induction fuel generalizing i mDays with
  | zero => rfl
  | succ fuel ih =>
    have hle : i ≤ 0xFFFFFFFF := by
      rw [UInt32.le_iff_toNat_le]
      have := i.toNat_lt
      have hmax : (0xFFFFFFFF : UInt32).toNat = 2 ^ 32 - 1 := rfl
      omega
    unfold addHeights
    rw [if_pos hle]
    exact ih _ _

/-! ## The constructor -/

/-- Numbering the days leaves the tables and the counters as they are. -/
theorem numberDays_frame (days : List (List UInt8)) (b : BlocksImpl) :
    (days.foldl BlocksImpl.numberDay b).mBlockHeight = b.mBlockHeight ∧
      (days.foldl BlocksImpl.numberDay b).mBlocks = b.mBlocks := by
  induction days generalizing b with
  | nil => exact ⟨rfl, rfl⟩
  | cons day days ih => exact ih (b.numberDay day)

/-- The days before they are numbered. -/
def RecordScan.days (s : RecordScan) : BlockDayMap :=
  (heightsFrom s.blockLow s.blockHigh).foldl (addHeight s.mBlocks) ∅

/-- The class with its days, not numbered yet. -/
def RecordScan.collected (s : RecordScan) : BlocksImpl :=
  { mDayCount := 0, mBlockHeight := s.mBlockHeight, mBlocks := s.mBlocks, mDays := s.days,
    mDayIndex := ∅ }

theorem finish_eq (s : RecordScan) : s.finish =
    if s.blockHigh = 0xFFFFFFFF then none
    else some (s.days.keys.foldl BlocksImpl.numberDay s.collected) := by
  unfold RecordScan.finish
  by_cases hhigh : s.blockHigh = 0xFFFFFFFF
  · simp only [hhigh, addHeights_never_ends]
    rfl
  · rw [if_neg hhigh]
    simp only
    rw [addHeights_eq s.mBlocks hhigh _ _ _ (by omega) (by omega)]
    rfl

/-- The constructor on records that can be read comes back, but for the height
that its loop does not get past. -/
theorem new_eq {records : List Entry} {cbs : List CBlockIndex}
    (h : records.map decodeRecord = cbs.map some) :
    ∃ s, Scanned cbs s ∧ BlocksImpl.new records =
      if s.blockHigh = 0xFFFFFFFF then none
      else some (s.days.keys.foldl BlocksImpl.numberDay s.collected, s.assertReached) := by
  refine ⟨_, scanned_foldl cbs, ?_⟩
  unfold BlocksImpl.new
  rw [scan_eq _ h]
  simp only [Option.bind_eq_bind, Option.bind_some, finish_eq]
  split <;> rfl

/-- Whenever the constructor comes back, it does so behind such a scan. -/
theorem new_some {records : List Entry} {b : BlocksImpl} {assertReached : Bool}
    (h : BlocksImpl.new records = some (b, assertReached)) :
    ∃ cbs s, Scanned cbs s ∧ s.blockHigh ≠ 0xFFFFFFFF ∧
      b = s.days.keys.foldl BlocksImpl.numberDay s.collected := by
  obtain ⟨s', hscan⟩ : ∃ s', RecordScan.new.scan records = some s' := by
    unfold BlocksImpl.new at h
    obtain ⟨s', hscan, -⟩ := Option.bind_eq_some_iff.mp h
    exact ⟨s', hscan⟩
  obtain ⟨cbs, hcbs⟩ := scan_some hscan
  obtain ⟨s, hscanned, hnew⟩ := new_eq hcbs
  rw [hnew] at h
  split at h
  · cases h
  · rename_i hhigh
    exact ⟨cbs, s, hscanned, hhigh, (Prod.mk.inj (Option.some.inj h)).1.symm⟩

/-! ## The blocks by their height -/

/-- The blocks of the table, the lowest first. -/
def RecordScan.byHeight (s : RecordScan) : List CBlockIndex :=
  (heightsFrom s.blockLow s.blockHigh).filterMap s.mBlocks.lookup

theorem days_eq (s : RecordScan) : s.days = s.byHeight.foldl addToDay ∅ := by
  unfold RecordScan.days RecordScan.byHeight
  generalize (∅ : BlockDayMap) = mDays
  induction heightsFrom s.blockLow s.blockHigh generalizing mDays with
  | nil => rfl
  | cons i heights ih =>
    rw [List.foldl_cons, ih, addHeight, List.filterMap_cons]
    cases s.mBlocks.lookup i with
    | none => rfl
    | some cb => rfl

theorem pairwise_heightsFrom (i blockHigh : UInt32) : (heightsFrom i blockHigh).Pairwise (· < ·) := by
  unfold heightsFrom
  rw [List.pairwise_map]
  refine List.Pairwise.imp_of_mem ?_ List.pairwise_lt_range'
  intro m n hm hn hlt
  have hbound := blockHigh.toNat_lt
  have hm' := List.mem_range'_1.mp hm
  have hn' := List.mem_range'_1.mp hn
  have hsize : UInt32.size = 2 ^ 32 := rfl
  rw [UInt32.lt_iff_toNat_lt, UInt32.toNat_ofNat_of_lt' (by omega),
    UInt32.toNat_ofNat_of_lt' (by omega)]
  exact hlt

/-- The blocks come in the order of their heights. -/
theorem pairwise_byHeight (s : RecordScan) :
    s.byHeight.Pairwise (fun cb other => blockHeight cb < blockHeight other) := by
  unfold RecordScan.byHeight
  rw [List.pairwise_filterMap]
  refine (pairwise_heightsFrom s.blockLow s.blockHigh).imp ?_
  intro h h' hlt cb hcb other hother
  rw [(KeyedSet.lookup_eq_some.mp hcb).2, (KeyedSet.lookup_eq_some.mp hother).2]
  exact hlt

/-- There are fewer blocks than heights below the last one. -/
theorem byHeight_length {s : RecordScan} (hhigh : s.blockHigh ≠ 0xFFFFFFFF) :
    s.byHeight.length < 2 ^ 32 := by
  have hle : s.byHeight.length ≤ (heightsFrom s.blockLow s.blockHigh).length :=
    List.length_filterMap_le _ _
  have hlength : (heightsFrom s.blockLow s.blockHigh).length =
      s.blockHigh.toNat + 1 - s.blockLow.toNat := by
    unfold heightsFrom
    rw [List.length_map, List.length_range']
  have hne : s.blockHigh.toNat ≠ (0xFFFFFFFF : UInt32).toNat :=
    fun heq => hhigh (UInt32.toNat_inj.mp heq)
  have hmax : (0xFFFFFFFF : UInt32).toNat = 2 ^ 32 - 1 := rfl
  have hlt := s.blockHigh.toNat_lt
  omega

section Distinct

variable {cbs : List CBlockIndex} {s : RecordScan} (h : Scanned cbs s)
  (hdistinct : (cbs.map blockHeight).Nodup)
include h hdistinct

/-- With distinct heights the table has each block. -/
theorem Scanned.lookup_iff {height : UInt32} {cb : CBlockIndex} :
    s.mBlocks.lookup height = some cb ↔ cb ∈ cbs ∧ blockHeight cb = height := by
  rw [h.mBlocks]
  exact KeyedSet.lookup_insertAll_of_nodup hdistinct

theorem Scanned.byHeight_perm : s.byHeight.Perm cbs := by
  have hnodup : s.byHeight.Nodup := by
    refine (pairwise_byHeight s).imp ?_
    rintro cb _ hlt rfl
    exact UInt32.lt_irrefl _ hlt
  refine (List.perm_ext_iff_of_nodup hnodup (List.Nodup.of_map _ hdistinct)).mpr ?_
  intro cb
  unfold RecordScan.byHeight
  rw [List.mem_filterMap]
  constructor
  · rintro ⟨height, -, hlookup⟩
    exact ((h.lookup_iff hdistinct).mp hlookup).1
  · intro hcb
    refine ⟨blockHeight cb, ?_, (h.lookup_iff hdistinct).mpr ⟨hcb, rfl⟩⟩
    rw [mem_heightsFrom, h.high]
    exact ⟨h.low_le cb hcb, h.le_top cb hcb⟩

end Distinct

end bitcoinstats.blocks
