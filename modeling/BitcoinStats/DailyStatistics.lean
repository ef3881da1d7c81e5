-- The statistics of the days: each block of the table counts once, for the day
-- of its time stamp, whatever the order of the records and of the time stamps.
import BitcoinStats.RecordScan

open byte_memory keyed_set calendar decimal_text bitcoinstats.block_chain bitcoinstats.block_index
  bitcoinstats.key_value_database

namespace bitcoinstats.blocks

/-! ## The text of a date -/

/-- What is in front of the first dash, and what is behind it. -/
theorem append_dash_inj {s s' t t' : List UInt8} (hs : 45 ∉ s) (hs' : 45 ∉ s')
    (h : s ++ 45 :: t = s' ++ 45 :: t') : s = s' ∧ t = t' := by
  have hfront : ∀ {u v : List UInt8}, 45 ∉ u → (u ++ 45 :: v).takeWhile (· ≠ 45) = u ∧
      (u ++ 45 :: v).dropWhile (· ≠ 45) = 45 :: v := by
    intro u v hu
    have hall : ∀ c ∈ u, decide (c ≠ 45) = true := by
      intro c hc
      have hne : c ≠ 45 := by
        rintro rfl
        exact hu hc
      simpa using hne
    rw [List.takeWhile_append_of_pos hall, List.dropWhile_append_of_pos hall]
    simp
  obtain ⟨htake, hdrop⟩ := hfront hs (v := t)
  obtain ⟨htake', hdrop'⟩ := hfront hs' (v := t')
  rw [h] at htake hdrop
  exact ⟨htake.symm.trans htake', (List.cons.inj (hdrop.symm.trans hdrop')).2⟩

theorem dash_notMem_pad {fill : UInt8} {width n : Nat} (h : fill ≠ 45) :
    45 ∉ pad fill width (decimal n) := by
  intro hmem
  rcases List.mem_append.mp hmem with hfill | hdigit
  · exact h (List.eq_of_mem_replicate hfill).symm
  · have hdash := isDigit_decimal n 45 hdigit
    exact absurd hdash (by decide)

theorem pad_decimal_inj {width m n : Nat} (h : pad 48 width (decimal m) = pad 48 width (decimal n)) :
    m = n := by
  have hvalue := congrArg (digitsValue 0) h
  rwa [digitsValue_pad, digitsValue_pad, digitsValue_decimal, digitsValue_decimal] at hvalue

theorem pad_space_inj {width m n : Nat} (h : pad 32 width (decimal m) = pad 32 width (decimal n)) :
    m = n := by
  have hspace : ∀ k, ∀ c ∈ decimal k, c ≠ 32 := by
    rintro k c hc rfl
    exact absurd (isDigit_decimal k 32 hc) (by decide)
  have hdigits := congrArg (List.dropWhile (· = 32)) h
  rw [dropWhile_pad (hspace m), dropWhile_pad (hspace n)] at hdigits
  exact decimal_inj hdigits

theorem dateText_inj {d d' : Date} (h : dateText d = dateText d') : d = d' := by
  obtain ⟨hyear, hrest⟩ := append_dash_inj (dash_notMem_pad (by decide))
    (dash_notMem_pad (by decide)) h
  obtain ⟨hmonth, hday⟩ := append_dash_inj (dash_notMem_pad (by decide))
    (dash_notMem_pad (by decide)) hrest
  obtain ⟨year, month, day⟩ := d
  obtain ⟨year', month', day'⟩ := d'
  obtain rfl : year = year' := pad_space_inj hyear
  obtain rfl : month = month' := pad_decimal_inj hmonth
  obtain rfl : day = day' := pad_decimal_inj hday
  rfl

/-! ## One day -/

/-- What a block changes for the key of its own day. -/
def addDay : Option BlockDay → CBlockIndex → Option BlockDay
  | none, cb => some (.first cb)
  | some bd, cb => some (bd.add cb)

theorem addToDay_get (mDays : BlockDayMap) (cb : CBlockIndex) (day : List UInt8) :
    (addToDay mDays cb)[day]? =
      if getBlockTime cb = day then addDay mDays[day]? cb else mDays[day]? := by
  unfold addToDay
  cases hfound : mDays[getBlockTime cb]? with
  | none =>
    simp only [Std.TreeMap.getElem?_insert, Std.compare_eq_iff_eq]
    split
    · rename_i heq
      rw [← heq, hfound]
      rfl
    · rfl
  | some bd =>
    simp only [Std.TreeMap.getElem?_insert, Std.compare_eq_iff_eq]
    split
    · rename_i heq
      rw [← heq, hfound]
      rfl
    · rfl

/-- Each day collects its own blocks. -/
theorem foldl_addToDay_get (blocks : List CBlockIndex) (mDays : BlockDayMap) (day : List UInt8) :
    (blocks.foldl addToDay mDays)[day]? =
      (blocks.filter (fun cb => getBlockTime cb = day)).foldl addDay mDays[day]? := by
  induction blocks generalizing mDays with
  | nil => rfl
  | cons cb blocks ih =>
    rw [List.foldl_cons, ih, addToDay_get]
    by_cases h : getBlockTime cb = day
    · rw [if_pos h, List.filter_cons_of_pos (by simpa using h), List.foldl_cons]
    · rw [if_neg h, List.filter_cons_of_neg (by simpa using h)]

/-- The record of a day with these blocks, the first of them in front. -/
structure DayOf (blocks : List CBlockIndex) (bd : BlockDay) : Prop where
  blockCount : bd.mBlockCount = UInt32.ofNat blocks.length
  transactionCount : bd.mTransactionCount.toNat =
    (blocks.map (fun cb => cb.mTransactionCount.toNat)).sum % 2 ^ 64
  minBlockHeight : (∃ cb ∈ blocks, cb.mBlockHeight = bd.mMinBlockHeight) ∧
    ∀ cb ∈ blocks, bd.mMinBlockHeight ≤ cb.mBlockHeight
  maxBlockHeight : (∃ cb ∈ blocks, cb.mBlockHeight = bd.mMaxBlockHeight) ∧
    ∀ cb ∈ blocks, cb.mBlockHeight ≤ bd.mMaxBlockHeight
  blockTime : ∃ cb rest, blocks = cb :: rest ∧ bd.mBlockTime = cb.mTime

theorem dayOf_first (cb : CBlockIndex) : DayOf [cb] (.first cb) where
  blockCount := rfl
  transactionCount := by simp [BlockDay.first, Nat.mod_eq_of_lt cb.mTransactionCount.toNat_lt]
  minBlockHeight := by simp [BlockDay.first]
  maxBlockHeight := by simp [BlockDay.first]
  blockTime := ⟨cb, [], rfl, rfl⟩

/-- The height that stands in the relation to all others, with one block more: it is that
of the new block or the old one. -/
theorem extreme_append {r : UInt64 → UInt64 → Prop} (trans : ∀ a b c, r a b → r b c → r a c)
    (refl : ∀ a, r a a) {blocks : List CBlockIndex} {m : UInt64}
    (h : (∃ cb ∈ blocks, cb.mBlockHeight = m) ∧ ∀ cb ∈ blocks, r m cb.mBlockHeight)
    (cb : CBlockIndex) :
    (r cb.mBlockHeight m → (∃ x ∈ blocks ++ [cb], x.mBlockHeight = cb.mBlockHeight) ∧
      ∀ x ∈ blocks ++ [cb], r cb.mBlockHeight x.mBlockHeight) ∧
    (r m cb.mBlockHeight → (∃ x ∈ blocks ++ [cb], x.mBlockHeight = m) ∧
      ∀ x ∈ blocks ++ [cb], r m x.mBlockHeight) := by
  obtain ⟨⟨best, hbest, hm⟩, hall⟩ := h
  constructor
  · intro hnew
    refine ⟨⟨cb, List.mem_append_right _ (List.mem_singleton_self _), rfl⟩, ?_⟩
    intro x hx
    rcases List.mem_append.mp hx with hx | hx
    · exact trans _ _ _ hnew (hall x hx)
    · rw [List.mem_singleton.mp hx]
      exact refl _
  · intro hold
    refine ⟨⟨best, List.mem_append_left _ hbest, hm⟩, ?_⟩
    intro x hx
    rcases List.mem_append.mp hx with hx | hx
    · exact hall x hx
    · rw [List.mem_singleton.mp hx]
      exact hold

theorem DayOf.add {blocks : List CBlockIndex} {bd : BlockDay} (h : DayOf blocks bd)
    (cb : CBlockIndex) : DayOf (blocks ++ [cb]) (bd.add cb) := by
  refine ⟨?_, ?_, ?_, ?_, ?_⟩
  · rw [List.length_append, List.length_singleton, UInt32.ofNat_add, ← h.blockCount]
    rfl
  · have hadd : (bd.add cb).mTransactionCount = bd.mTransactionCount + cb.mTransactionCount := rfl
    rw [hadd, UInt64.toNat_add, h.transactionCount]
    simp
  · obtain ⟨hnew, hold⟩ := extreme_append (r := fun x y => x ≤ y) (fun _ _ _ => UInt64.le_trans)
      (fun _ => UInt64.le_refl _) h.minBlockHeight cb
    by_cases hlt : cb.mBlockHeight < bd.mMinBlockHeight
    · have hset : (bd.add cb).mMinBlockHeight = cb.mBlockHeight := if_pos hlt
      rw [hset]
      exact hnew (UInt64.le_of_lt hlt)
    · have hset : (bd.add cb).mMinBlockHeight = bd.mMinBlockHeight := if_neg hlt
      rw [hset]
      exact hold (UInt64.not_lt.mp hlt)
  · obtain ⟨hnew, hold⟩ := extreme_append (r := fun x y => y ≤ x)
      (fun _ _ _ hxy hyz => UInt64.le_trans hyz hxy) (fun _ => UInt64.le_refl _) h.maxBlockHeight cb
    by_cases hlt : bd.mMaxBlockHeight < cb.mBlockHeight
    · have hset : (bd.add cb).mMaxBlockHeight = cb.mBlockHeight := if_pos hlt
      rw [hset]
      exact hnew (UInt64.le_of_lt hlt)
    · have hset : (bd.add cb).mMaxBlockHeight = bd.mMaxBlockHeight := if_neg hlt
      rw [hset]
      exact hold (UInt64.not_lt.mp hlt)
  · obtain ⟨first, rest, rfl, htime⟩ := h.blockTime
    exact ⟨first, rest ++ [cb], rfl, htime⟩

theorem foldl_addDay {blocks : List CBlockIndex} (h : blocks ≠ []) :
    ∃ bd, blocks.foldl addDay none = some bd ∧ DayOf blocks bd := by
  induction blocks using List.reverseRecOn with
  | nil => exact absurd rfl h
  | append_singleton blocks cb ih =>
    rw [List.foldl_append]
    by_cases hnil : blocks = []
    · subst hnil
      exact ⟨_, rfl, dayOf_first cb⟩
    · obtain ⟨bd, hbd, hday⟩ := ih hnil
      rw [hbd]
      exact ⟨_, rfl, hday.add cb⟩

/-! ## The numbers of the days -/

/-- A day with the number that it got. -/
theorem numberDays_get (days : List (List UInt8)) (b : BlocksImpl) (day : List UInt8) :
    (b.mDays[day]? = none → (days.foldl BlocksImpl.numberDay b).mDays[day]? = none) ∧
    ∀ bd, b.mDays[day]? = some bd → ∃ mDayNumber,
      (days.foldl BlocksImpl.numberDay b).mDays[day]? = some { bd with mDayNumber } := by
  induction days generalizing b with
  | nil => exact ⟨id, fun bd hbd => ⟨bd.mDayNumber, hbd⟩⟩
  | cons first days ih =>
    obtain ⟨hnone, hsome⟩ := ih (b.numberDay first)
    have hget : (b.numberDay first).mDays[day]? = if first = day then
        (b.mDays[first]?).map (fun bd => { bd with mDayNumber := b.mDayCount })
        else b.mDays[day]? := by
      simp [BlocksImpl.numberDay, Std.TreeMap.getElem?_modify]
    by_cases heq : first = day
    · subst heq
      rw [if_pos rfl] at hget
      constructor
      · intro h
        exact hnone (by rw [hget, h]; rfl)
      · intro bd hbd
        obtain ⟨mDayNumber, hnumber⟩ := hsome { bd with mDayNumber := b.mDayCount }
          (by rw [hget, hbd]; rfl)
        exact ⟨mDayNumber, hnumber⟩
    · rw [if_neg heq] at hget
      exact ⟨fun h => hnone (hget.trans h), fun bd hbd => hsome bd (hget.trans hbd)⟩

/-- The numbers depend on the days alone, not on the table. -/
theorem numberDays_congr (days : List (List UInt8)) {b b' : BlocksImpl} (hdays : b'.mDays = b.mDays)
    (hindex : b'.mDayIndex = b.mDayIndex) (hcount : b'.mDayCount = b.mDayCount) :
    (days.foldl BlocksImpl.numberDay b').mDays = (days.foldl BlocksImpl.numberDay b).mDays ∧
    (days.foldl BlocksImpl.numberDay b').mDayIndex = (days.foldl BlocksImpl.numberDay b).mDayIndex ∧
    (days.foldl BlocksImpl.numberDay b').mDayCount = (days.foldl BlocksImpl.numberDay b).mDayCount := by
  induction days generalizing b b' with
  | nil => exact ⟨hdays, hindex, hcount⟩
  | cons day days ih =>
    have hdays' : (b'.numberDay day).mDays = (b.numberDay day).mDays := by
      simp only [BlocksImpl.numberDay, hdays, hcount]
    have hindex' : (b'.numberDay day).mDayIndex = (b.numberDay day).mDayIndex := by
      simp only [BlocksImpl.numberDay, hindex, hcount]
    have hcount' : (b'.numberDay day).mDayCount = (b.numberDay day).mDayCount := by
      simp only [BlocksImpl.numberDay, hcount]
    exact ih hdays' hindex' hcount'

/-! ## All days -/

/-- What is said about a day with these blocks. -/
structure DayStatistics (blocks : List CBlockIndex) (bd : BlockDay) : Prop where
  blockCount : bd.mBlockCount.toNat = blocks.length
  transactionCount : bd.mTransactionCount.toNat =
    (blocks.map (fun cb => cb.mTransactionCount.toNat)).sum % 2 ^ 64
  minBlockHeight : (∃ cb ∈ blocks, cb.mBlockHeight = bd.mMinBlockHeight) ∧
    ∀ cb ∈ blocks, bd.mMinBlockHeight ≤ cb.mBlockHeight
  maxBlockHeight : (∃ cb ∈ blocks, cb.mBlockHeight = bd.mMaxBlockHeight) ∧
    ∀ cb ∈ blocks, cb.mBlockHeight ≤ bd.mMaxBlockHeight
  blockTime : ∃ cb ∈ blocks, (∀ other ∈ blocks, cb.mBlockHeight ≤ other.mBlockHeight) ∧
    bd.mBlockTime = cb.mTime

/-- The blocks of one date. -/
def blocksOf (cbs : List CBlockIndex) (d : Date) : List CBlockIndex :=
  cbs.filter (fun cb => date cb = d)

/-- Two dates have two texts. -/
theorem filter_getBlockTime (cbs : List CBlockIndex) (d : Date) :
    cbs.filter (fun cb => getBlockTime cb = dateText d) = blocksOf cbs d := by
  unfold blocksOf
  congr 1
  funext cb
  rw [decide_eq_decide]
  exact ⟨fun heq => dateText_inj heq, fun heq => congrArg dateText heq⟩

/-- Each of the blocks counts once, for its day. -/
structure DailyStatistics (cbs : List CBlockIndex) (b : BlocksImpl) : Prop where
  days : ∀ day, day ∈ b.mDays ↔ ∃ cb ∈ cbs, getBlockTime cb = day
  statistics : ∀ d bd, b.mDays[dateText d]? = some bd → DayStatistics (blocksOf cbs d) bd
  total : (b.mDays.toList.map (fun day => day.2.mBlockCount.toNat)).sum = cbs.length
  top : (∃ cb ∈ cbs, cb.mBlockHeight.toNat = b.getBlockHeight.toNat) ∧
    ∀ cb ∈ cbs, cb.mBlockHeight.toNat ≤ b.getBlockHeight.toNat

/-- The same table, statistics and day numbers. -/
structure SameResult (b b' : BlocksImpl) : Prop where
  blockHeight : b'.getBlockHeight = b.getBlockHeight
  blockIndex : ∀ height, b'.getBlockIndex height = b.getBlockIndex height
  days : b'.mDays = b.mDays
  dayIndex : b'.mDayIndex = b.mDayIndex
  dayCount : b'.mDayCount = b.mDayCount

/-- Heights that 32 bits hold, below the last one, no two the same. -/
structure DistinctHeights (cbs : List CBlockIndex) : Prop where
  nodup : (cbs.map CBlockIndex.mBlockHeight).Nodup
  lt : ∀ cb ∈ cbs, cb.mBlockHeight.toNat < 2 ^ 32 - 1

theorem DistinctHeights.toNat {cbs : List CBlockIndex} (h : DistinctHeights cbs) {cb : CBlockIndex}
    (hcb : cb ∈ cbs) : (blockHeight cb).toNat = cb.mBlockHeight.toNat := by
  have hlt := h.lt cb hcb
  unfold blockHeight
  rw [UInt64.toNat_toUInt32]
  exact Nat.mod_eq_of_lt (by omega)

theorem DistinctHeights.nodup_blockHeight {cbs : List CBlockIndex} (h : DistinctHeights cbs) :
    (cbs.map blockHeight).Nodup := by
  refine List.Nodup.map_on ?_ (List.Nodup.of_map _ h.nodup)
  intro cb hcb other hother heq
  have hnat := congrArg UInt32.toNat heq
  rw [h.toNat hcb, h.toNat hother] at hnat
  exact List.inj_on_of_nodup_map h.nodup hcb hother (UInt64.toNat_inj.mp hnat)

section Statistics

variable {cbs : List CBlockIndex} {s : RecordScan} (h : Scanned cbs s) (hcbs : DistinctHeights cbs)
include h hcbs

theorem Scanned.high_ne (hne : cbs ≠ []) : s.blockHigh ≠ 0xFFFFFFFF := by
  obtain ⟨cb, hcb, htop⟩ := h.top hne
  intro hhigh
  have hnat := congrArg UInt32.toNat (htop.trans (h.high.symm.trans hhigh))
  rw [hcbs.toNat hcb] at hnat
  have hlt := hcbs.lt cb hcb
  have hmax : (0xFFFFFFFF : UInt32).toNat = 2 ^ 32 - 1 := rfl
  omega

/-- The blocks of a day, the lowest first, are the blocks of its date. -/
theorem Scanned.day_perm (d : Date) :
    (s.byHeight.filter (fun cb => getBlockTime cb = dateText d)).Perm (blocksOf cbs d) := by
  rw [filter_getBlockTime]
  exact (h.byHeight_perm hcbs.nodup_blockHeight).filter _

theorem Scanned.dayStatistics (hne : cbs ≠ []) {d : Date} {bd : BlockDay} {mDayNumber : UInt32}
    (hday : DayOf (s.byHeight.filter (fun cb => getBlockTime cb = dateText d)) bd) :
    DayStatistics (blocksOf cbs d) { bd with mDayNumber } := by
  have hperm := h.day_perm hcbs d
  have hmem : ∀ cb, cb ∈ s.byHeight.filter (fun cb => getBlockTime cb = dateText d) ↔
      cb ∈ blocksOf cbs d := fun cb => hperm.mem_iff
  refine ⟨?_, ?_, ?_, ?_, ?_⟩
  · have hlt : (blocksOf cbs d).length < 2 ^ 32 := by
      rw [← hperm.length_eq]
      exact Nat.lt_of_le_of_lt (List.length_filter_le _ _) (byHeight_length (h.high_ne hcbs hne))
    simp only [hday.blockCount, hperm.length_eq]
    exact UInt32.toNat_ofNat_of_lt' hlt
  · simp only [hday.transactionCount]
    rw [(hperm.map _).sum_eq]
  · obtain ⟨⟨cb, hcb, hmin⟩, hle⟩ := hday.minBlockHeight
    exact ⟨⟨cb, (hmem cb).mp hcb, hmin⟩, fun x hx => hle x ((hmem x).mpr hx)⟩
  · obtain ⟨⟨cb, hcb, hmax⟩, hle⟩ := hday.maxBlockHeight
    exact ⟨⟨cb, (hmem cb).mp hcb, hmax⟩, fun x hx => hle x ((hmem x).mpr hx)⟩
  · obtain ⟨cb, rest, hfirst, htime⟩ := hday.blockTime
    have hcb : cb ∈ blocksOf cbs d := (hmem cb).mp (hfirst ▸ List.mem_cons_self)
    refine ⟨cb, hcb, ?_, htime⟩
    intro other hother
    have hsorted := (pairwise_byHeight s).filter (fun cb => getBlockTime cb = dateText d)
    rw [hfirst] at hsorted
    rw [← hmem other, hfirst] at hother
    rcases List.mem_cons.mp hother with rfl | hrest
    · exact UInt64.le_refl _
    · have hlt := UInt32.lt_iff_toNat_lt.mp ((List.pairwise_cons.mp hsorted).1 other hrest)
      have hother' : other ∈ cbs := (List.mem_filter.mp ((hmem other).mp
        (hfirst ▸ List.mem_cons_of_mem _ hrest))).1
      rw [hcbs.toNat (List.mem_filter.mp hcb).1, hcbs.toNat hother'] at hlt
      exact UInt64.le_iff_toNat_le.mpr hlt.le

/-- The class as the constructor leaves it. -/
theorem Scanned.finished_get (hne : cbs ≠ []) (d : Date) :
    (blocksOf cbs d = [] → (s.days.keys.foldl BlocksImpl.numberDay s.collected).mDays[dateText d]? = none) ∧
    (blocksOf cbs d ≠ [] → ∃ bd,
      (s.days.keys.foldl BlocksImpl.numberDay s.collected).mDays[dateText d]? = some bd ∧
        DayStatistics (blocksOf cbs d) bd) := by
  obtain ⟨hnone, hsome⟩ := numberDays_get s.days.keys s.collected (dateText d)
  have hdays : s.collected.mDays[dateText d]? =
      (s.byHeight.filter (fun cb => getBlockTime cb = dateText d)).foldl addDay none := by
    have hcollected : s.collected.mDays = s.days := rfl
    rw [hcollected, days_eq, foldl_addToDay_get, Std.TreeMap.getElem?_emptyc]
  have hperm := h.day_perm hcbs d
  constructor
  · intro hnil
    rw [hnil] at hperm
    rw [List.perm_nil.mp hperm] at hdays
    exact hnone hdays
  · intro hblocks
    have hfilter : s.byHeight.filter (fun cb => getBlockTime cb = dateText d) ≠ [] := by
      intro hnil
      rw [hnil] at hperm
      exact hblocks (List.nil_perm.mp hperm)
    obtain ⟨bd, hbd, hday⟩ := foldl_addDay hfilter
    obtain ⟨mDayNumber, hnumber⟩ := hsome bd (hdays.trans hbd)
    exact ⟨_, hnumber, h.dayStatistics hcbs hne hday⟩

end Statistics

theorem Scanned.finished_mem {cbs : List CBlockIndex} {s : RecordScan} (h : Scanned cbs s)
    (hcbs : DistinctHeights cbs) (day : List UInt8) :
    day ∈ (s.days.keys.foldl BlocksImpl.numberDay s.collected).mDays ↔
      ∃ cb ∈ cbs, getBlockTime cb = day := by
  obtain ⟨hnone, hsome⟩ := numberDays_get s.days.keys s.collected day
  have hdays : s.collected.mDays[day]? =
      (s.byHeight.filter (fun cb => getBlockTime cb = day)).foldl addDay none := by
    have hcollected : s.collected.mDays = s.days := rfl
    rw [hcollected, days_eq, foldl_addToDay_get, Std.TreeMap.getElem?_emptyc]
  have hperm := h.byHeight_perm hcbs.nodup_blockHeight
  rw [Std.TreeMap.mem_iff_isSome_getElem?]
  by_cases hfilter : s.byHeight.filter (fun cb => getBlockTime cb = day) = []
  · rw [hfilter] at hdays
    rw [hnone hdays]
    refine iff_of_false (by simp) ?_
    rintro ⟨cb, hcb, htime⟩
    have hmem : cb ∈ s.byHeight.filter (fun cb => getBlockTime cb = day) :=
      List.mem_filter.mpr ⟨hperm.mem_iff.mpr hcb, by simpa using htime⟩
    rw [hfilter] at hmem
    cases hmem
  · obtain ⟨bd, hbd, -⟩ := foldl_addDay hfilter
    obtain ⟨mDayNumber, hnumber⟩ := hsome bd (hdays.trans hbd)
    rw [hnumber]
    refine iff_of_true rfl ?_
    obtain ⟨cb, hcb⟩ := List.exists_mem_of_ne_nil _ hfilter
    obtain ⟨hmem, htime⟩ := List.mem_filter.mp hcb
    exact ⟨cb, hperm.mem_iff.mp hmem, by simpa using htime⟩

/-- Each element is counted once, for its key. -/
theorem sum_length_filter {α κ : Type} [DecidableEq κ] (f : α → κ) (l : List α) {keys : List κ}
    (hnodup : keys.Nodup) (hkeys : ∀ k, k ∈ keys ↔ ∃ a ∈ l, f a = k) :
    (keys.map (fun k => (l.filter (fun a => f a = k)).length)).sum = l.length := by
  have hperm : keys.Perm (l.map f).dedup := by
    refine (List.perm_ext_iff_of_nodup hnodup (List.nodup_dedup _)).mpr ?_
    intro k
    rw [hkeys, List.mem_dedup, List.mem_map]
  have hcount : ∀ k, (l.filter (fun a => f a = k)).length = (l.map f).count k := by
    intro k
    rw [List.count, List.countP_map, List.countP_eq_length_filter]
    congr 2
  simp only [hcount]
  rw [(hperm.map _).sum_eq, List.sum_map_count_dedup_eq_length, List.length_map]

/-- The counts of the days add up to the number of the blocks. -/
theorem sum_blockCount {cbs : List CBlockIndex} {mDays : BlockDayMap}
    (hdays : ∀ day, day ∈ mDays ↔ ∃ cb ∈ cbs, getBlockTime cb = day)
    (hcount : ∀ d bd, mDays[dateText d]? = some bd → bd.mBlockCount.toNat = (blocksOf cbs d).length) :
    (mDays.toList.map (fun day => day.2.mBlockCount.toNat)).sum = cbs.length := by
  have hone : ∀ day ∈ mDays.toList, day.2.mBlockCount.toNat =
      (cbs.filter (fun cb => getBlockTime cb = day.1)).length := by
    rintro ⟨text, bd⟩ hmem
    have hget := Std.TreeMap.mem_toList_iff_getElem?_eq_some.mp hmem
    obtain ⟨cb, -, rfl⟩ := (hdays text).mp
      (Std.TreeMap.mem_iff_isSome_getElem?.mpr (by rw [hget]; rfl))
    rw [hcount (date cb) bd hget]
    exact congrArg List.length (filter_getBlockTime cbs (date cb)).symm
  have hkeys : mDays.toList.map (fun day => (cbs.filter (fun cb => getBlockTime cb = day.1)).length) =
      mDays.keys.map (fun text => (cbs.filter (fun cb => getBlockTime cb = text)).length) := by
    rw [← Std.TreeMap.map_fst_toList_eq_keys, List.map_map]
    rfl
  rw [List.map_congr_left hone, hkeys]
  refine sum_length_filter getBlockTime cbs Std.TreeMap.nodup_keys ?_
  intro text
  rw [Std.TreeMap.mem_keys, hdays]

/-! ## The order of the records -/

/-- The loop keeps the same heights of the same blocks in any order. -/
theorem Scanned.sameResult {cbs cbs' : List CBlockIndex} {s s' : RecordScan} (h : Scanned cbs s)
    (h' : Scanned cbs' s') (hcbs : DistinctHeights cbs) (hne : cbs ≠ []) (hperm : cbs'.Perm cbs) :
    SameResult (s.days.keys.foldl BlocksImpl.numberDay s.collected)
      (s'.days.keys.foldl BlocksImpl.numberDay s'.collected) := by
  have hne' : cbs' ≠ [] := fun hnil => hne (List.nil_perm.mp (hnil ▸ hperm))
  have htop : s'.mBlockHeight = s.mBlockHeight := by
    obtain ⟨cb, hcb, hcbtop⟩ := h.top hne
    obtain ⟨cb', hcb', hcbtop'⟩ := h'.top hne'
    refine UInt32.le_antisymm ?_ ?_
    · rw [← hcbtop']
      exact h.le_top cb' (hperm.mem_iff.mp hcb')
    · rw [← hcbtop]
      exact h'.le_top cb (hperm.mem_iff.mpr hcb)
  have hlow : s'.blockLow = s.blockLow := by
    obtain ⟨cb, hcb, hcblow⟩ := h.low hne
    obtain ⟨cb', hcb', hcblow'⟩ := h'.low hne'
    refine UInt32.le_antisymm ?_ ?_
    · rw [← hcblow]
      exact h'.low_le cb (hperm.mem_iff.mpr hcb)
    · rw [← hcblow']
      exact h.low_le cb' (hperm.mem_iff.mp hcb')
  have hhigh : s'.blockHigh = s.blockHigh := by rw [h.high, h'.high, htop]
  have hnodup' : (cbs'.map blockHeight).Nodup :=
    (hperm.map blockHeight).nodup_iff.mpr hcbs.nodup_blockHeight
  have hlookup : s'.mBlocks.lookup = s.mBlocks.lookup := by
    funext height
    ext cb
    rw [h.lookup_iff hcbs.nodup_blockHeight, h'.lookup_iff hnodup', hperm.mem_iff]
  have hdays : s'.days = s.days := by
    rw [days_eq, days_eq, RecordScan.byHeight, RecordScan.byHeight, hlow, hhigh, hlookup]
  have hcollected : s'.collected.mDays = s.collected.mDays := hdays
  obtain ⟨hsame, hindex, hcount⟩ := numberDays_congr s.days.keys hcollected rfl rfl
  obtain ⟨hheight, hblocks⟩ := numberDays_frame s.days.keys s.collected
  obtain ⟨hheight', hblocks'⟩ := numberDays_frame s.days.keys s'.collected
  rw [hdays]
  refine ⟨?_, ?_, hsame, hindex, hcount⟩
  · exact hheight'.trans (htop.trans hheight.symm)
  · intro height
    unfold BlocksImpl.getBlockIndex
    rw [hblocks, hblocks']
    exact congrFun hlookup height

/-- In another order the same records hold the same blocks. -/
theorem decode_perm {records records' : List Entry} {cbs : List CBlockIndex}
    (hrecords : records.map decodeRecord = cbs.map some) (hperm : records'.Perm records) :
    ∃ cbs' : List CBlockIndex, cbs'.Perm cbs ∧ records'.map decodeRecord = cbs'.map some := by
  have hall : ∀ {l : List Entry}, (∀ r ∈ l, ∃ cb, decodeRecord r = some cb) →
      l.map decodeRecord = (l.filterMap decodeRecord).map some := by
    intro l
    induction l with
    | nil => exact fun _ => rfl
    | cons r l ih =>
      intro h
      obtain ⟨cb, hcb⟩ := h r List.mem_cons_self
      rw [List.map_cons, List.filterMap_cons_some hcb, List.map_cons, hcb,
        ih (fun r hr => h r (List.mem_cons_of_mem _ hr))]
  have hread : ∀ r ∈ records, ∃ cb, decodeRecord r = some cb := by
    intro r hr
    have hmem : decodeRecord r ∈ cbs.map some := hrecords ▸ List.mem_map_of_mem hr
    obtain ⟨cb, -, hcb⟩ := List.mem_map.mp hmem
    exact ⟨cb, hcb.symm⟩
  have hcbs : records.filterMap decodeRecord = cbs := by
    have hsome := (hall hread).symm.trans hrecords
    exact List.map_injective_iff.mpr (Option.some_injective _) hsome
  refine ⟨records'.filterMap decodeRecord, ?_, ?_⟩
  · rw [← hcbs]
    exact hperm.filterMap _
  · exact hall (fun r hr => hread r (hperm.mem_iff.mp hr))

/-- The statistics account for every block exactly once, and are the same for
every order of the records. -/
theorem every_block_counts_once_for_its_day (records : List Entry) (cbs : List CBlockIndex)
    (hrecords : records.map decodeRecord = cbs.map some) (hcbs : DistinctHeights cbs)
    (hzero : ∃ cb ∈ cbs, cb.mBlockHeight = 0) :
    ∃ b, BlocksImpl.new records = some (b, false) ∧ DailyStatistics cbs b ∧
      ∀ records', records'.Perm records →
        ∃ b', BlocksImpl.new records' = some (b', false) ∧ SameResult b b' := by
  obtain ⟨first, hfirst, -⟩ := hzero
  have hne : cbs ≠ [] := List.ne_nil_of_mem hfirst
  obtain ⟨s, h, hnew⟩ := new_eq hrecords
  have hassert : ∀ {cbs' : List CBlockIndex} {s' : RecordScan}, Scanned cbs' s' → cbs'.Perm cbs →
      s'.assertReached = false := by
    intro cbs' s' h' hperm
    by_contra hreached
    exact h'.assertReached.mp (by simpa using hreached)
      ((hperm.map blockHeight).nodup_iff.mpr hcbs.nodup_blockHeight)
  rw [if_neg (h.high_ne hcbs hne), hassert h (List.Perm.refl _)] at hnew
  refine ⟨_, hnew, ?_, ?_⟩
  · have hget := fun d => h.finished_get hcbs hne d
    have hmem := h.finished_mem hcbs
    have hstatistics : ∀ d bd,
        (s.days.keys.foldl BlocksImpl.numberDay s.collected).mDays[dateText d]? = some bd →
          DayStatistics (blocksOf cbs d) bd := by
      intro d bd hbd
      by_cases hnil : blocksOf cbs d = []
      · rw [(hget d).1 hnil] at hbd
        cases hbd
      · obtain ⟨bd', hbd', hday⟩ := (hget d).2 hnil
        rw [hbd] at hbd'
        rw [Option.some.inj hbd']
        exact hday
    have htop := (numberDays_frame s.days.keys s.collected).1
    refine ⟨hmem, hstatistics, ?_, ?_, ?_⟩
    · exact sum_blockCount hmem (fun d bd hbd => (hstatistics d bd hbd).blockCount)
    · obtain ⟨cb, hcb, hcbtop⟩ := h.top hne
      refine ⟨cb, hcb, ?_⟩
      rw [← hcbs.toNat hcb, hcbtop, BlocksImpl.getBlockHeight, htop]
      rfl
    · intro cb hcb
      rw [← hcbs.toNat hcb, BlocksImpl.getBlockHeight, htop]
      exact UInt32.le_iff_toNat_le.mp (h.le_top cb hcb)
  · intro records' hperm
    obtain ⟨cbs', hcbs', hrecords'⟩ := decode_perm hrecords hperm
    obtain ⟨s', h', hnew'⟩ := new_eq hrecords'
    have hdistinct' : DistinctHeights cbs' :=
      ⟨(hcbs'.map _).nodup_iff.mpr hcbs.nodup, fun cb hcb => hcbs.lt cb (hcbs'.mem_iff.mp hcb)⟩
    have hne' : cbs' ≠ [] := fun hnil => hne (List.nil_perm.mp (hnil ▸ hcbs'))
    rw [if_neg (h'.high_ne hdistinct' hne'), hassert h' hcbs'] at hnew'
    exact ⟨_, hnew', h.sameResult h' hcbs hne hcbs'⟩

/-- A block with a height, a number of transactions and a time. -/
def sampleBlock (height count time : Nat) : CBlockIndex :=
  { CBlockIndex.new (Vector.replicate 32 (UInt8.ofNat height)) with
    mVersionNumber := 1
    mBlockHeight := UInt64.ofNat height
    mTransactionCount := UInt64.ofNat count
    mTime := UInt32.ofNat time }

/-- Its record, for small numbers. -/
def sampleRecord (height count time : Nat) : Entry :=
  (98 :: List.replicate 32 (UInt8.ofNat height),
    [1, UInt8.ofNat height, 0, UInt8.ofNat count] ++ List.replicate 68 0 ++ leBytes 4 time ++
      List.replicate 8 0)

/-- Block 1 is a day later than block 2, and there is no block 3. -/
theorem four_blocks_count_once_for_their_day : ∃ b,
    BlocksImpl.new [sampleRecord 4 2 1231150000, sampleRecord 0 1 1231006505,
      sampleRecord 2 7 1231000000, sampleRecord 1 3 1231090000] = some (b, false) ∧
    DailyStatistics [sampleBlock 4 2 1231150000, sampleBlock 0 1 1231006505,
      sampleBlock 2 7 1231000000, sampleBlock 1 3 1231090000] b := by
  obtain ⟨b, hnew, hstatistics, -⟩ := every_block_counts_once_for_its_day
    [sampleRecord 4 2 1231150000, sampleRecord 0 1 1231006505, sampleRecord 2 7 1231000000,
      sampleRecord 1 3 1231090000]
    [sampleBlock 4 2 1231150000, sampleBlock 0 1 1231006505, sampleBlock 2 7 1231000000,
      sampleBlock 1 3 1231090000] (by decide +kernel) ⟨by decide +kernel, by decide +kernel⟩
    (by decide +kernel)
  exact ⟨b, hnew, hstatistics⟩

end bitcoinstats.blocks
