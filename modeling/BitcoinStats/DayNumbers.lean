-- The numbers of the days. The map of the days is ordered by their texts; the
-- texts of the dates that a 32-bit time can have are in the order of the calendar.
import BitcoinStats.DailyStatistics

open byte_memory keyed_set calendar decimal_text bitcoinstats.block_chain bitcoinstats.block_index
  bitcoinstats.key_value_database

namespace bitcoinstats.blocks

/-! ## The order of the texts -/

/-- A date whose text has four, two and two digits. -/
structure Date.Fits (d : Date) : Prop where
  year : 1000 ≤ d.year ∧ d.year < 10000
  month : d.month < 100
  day : d.day < 100

theorem compare_pad_two {m n : Nat} (h : m < n) (hn : n < 100) :
    compare (pad 48 2 (decimal m)) (pad 48 2 (decimal n)) = .lt := by
  obtain ⟨hlen, hdigits⟩ := pad_two (show m < 100 by omega)
  obtain ⟨hlen', hdigits'⟩ := pad_two hn
  apply @compare_of_digitsValue_lt 0 _ _ hdigits hdigits' (hlen.trans hlen'.symm)
  rw [digitsValue_pad, digitsValue_pad, digitsValue_decimal, digitsValue_decimal]
  exact h

theorem compare_pad_four {m n : Nat} (hm : 1000 ≤ m) (h : m < n) (hn : n < 10000) :
    compare (pad 32 4 (decimal m)) (pad 32 4 (decimal n)) = .lt := by
  obtain ⟨hpad, hlen⟩ := pad_four hm (show m < 10000 by omega)
  obtain ⟨hpad', hlen'⟩ := pad_four (show 1000 ≤ n by omega) hn
  rw [hpad, hpad']
  apply @compare_of_digitsValue_lt 0 _ _ (isDigit_decimal m) (isDigit_decimal n)
    (hlen.trans hlen'.symm)
  rw [digitsValue_decimal, digitsValue_decimal]
  exact h

theorem compare_self_text (s : List UInt8) : compare s s = .eq := Std.ReflCmp.compare_self

/-- An earlier date has the smaller text. -/
theorem compare_dateText {d d' : Date} (h : d.Before d') (hd : Date.Fits d) (hd' : Date.Fits d') :
    compare (dateText d) (dateText d') = .lt := by
  have hyears : (pad 32 4 (decimal d.year)).length = (pad 32 4 (decimal d'.year)).length := by
    obtain ⟨hpad, hlen⟩ := pad_four hd.year.1 hd.year.2
    obtain ⟨hpad', hlen'⟩ := pad_four hd'.year.1 hd'.year.2
    rw [hpad, hpad', hlen, hlen']
  have hmonths : (pad 48 2 (decimal d.month)).length = (pad 48 2 (decimal d'.month)).length := by
    rw [(pad_two hd.month).1, (pad_two hd'.month).1]
  have hdash : compare (45 : UInt8) 45 = .eq := by decide
  unfold dateText
  rw [compare_append hyears, List.compare_cons_cons, compare_append hmonths,
    List.compare_cons_cons, hdash]
  rcases h with hyear | ⟨hyear, hmonth | ⟨hmonth, hday⟩⟩
  · rw [compare_pad_four hd.year.1 hyear hd'.year.2]
    rfl
  · rw [hyear, compare_self_text, compare_pad_two hmonth hd'.month]
    rfl
  · rw [hyear, hmonth, compare_self_text, compare_self_text,
      compare_pad_two hday hd'.day]
    rfl

/-! ## The dates of the blocks -/

/-- The day of a block, counted from 1 January 1970 on. -/
def epochDay (cb : CBlockIndex) : Nat := cb.mTime.toNat / 86400

theorem date_fits (cb : CBlockIndex) : Date.Fits (dateOfDay (epochDay cb)) := by
  have htime := cb.mTime.toNat_lt
  have hday : epochDay cb < 365 * 8000 := by
    unfold epochDay
    omega
  obtain ⟨hlow, hhigh, hmonth, hday⟩ := dateOfDay_fits hday
  exact ⟨⟨by omega, hhigh⟩, hmonth, hday⟩

theorem getBlockTime_eq (cb : CBlockIndex) : getBlockTime cb = dateText (dateOfDay (epochDay cb)) :=
  rfl

/-- The texts of two blocks are in the order of their days. -/
theorem compare_getBlockTime {cb other : CBlockIndex} :
    compare (getBlockTime cb) (getBlockTime other) = .lt ↔ epochDay cb < epochDay other := by
  have hlt : ∀ {x y : CBlockIndex}, epochDay x < epochDay y →
      compare (getBlockTime x) (getBlockTime y) = .lt := by
    intro x y h
    rw [getBlockTime_eq, getBlockTime_eq]
    exact compare_dateText (dateOfDay_before h) (date_fits x) (date_fits y)
  refine ⟨?_, hlt⟩
  intro h
  rcases Nat.lt_trichotomy (epochDay cb) (epochDay other) with hday | hday | hday
  · exact hday
  · rw [getBlockTime_eq, getBlockTime_eq, hday, compare_self_text] at h
    cases h
  · rw [Std.OrientedOrd.eq_swap, hlt hday] at h
    cases h

/-! ## The days that are numbered -/

theorem days_get (s : RecordScan) (day : List UInt8) :
    s.days[day]? = (s.byHeight.filter (fun cb => getBlockTime cb = day)).foldl addDay none := by
  rw [days_eq, foldl_addToDay_get, Std.TreeMap.getElem?_emptyc]

/-- The days are those of the blocks. -/
theorem mem_keys_days {s : RecordScan} {day : List UInt8} :
    day ∈ s.days.keys ↔ ∃ cb ∈ s.byHeight, getBlockTime cb = day := by
  rw [Std.TreeMap.mem_keys, Std.TreeMap.mem_iff_isSome_getElem?, days_get]
  constructor
  · intro hsome
    by_contra hnone
    have hfilter : s.byHeight.filter (fun cb => getBlockTime cb = day) = [] := by
      rw [List.filter_eq_nil_iff]
      intro cb hcb htime
      exact hnone ⟨cb, hcb, by simpa using htime⟩
    rw [hfilter] at hsome
    cases hsome
  · rintro ⟨cb, hcb, htime⟩
    have hmem : cb ∈ s.byHeight.filter (fun cb => getBlockTime cb = day) :=
      List.mem_filter.mpr ⟨hcb, by simpa using htime⟩
    obtain ⟨bd, hbd, -⟩ := foldl_addDay (List.ne_nil_of_mem hmem)
    rw [hbd]
    rfl

theorem keys_length (s : RecordScan) (hhigh : s.blockHigh ≠ 0xFFFFFFFF) :
    s.days.keys.length < 2 ^ 32 := by
  have hnodup : s.days.keys.Nodup := Std.TreeMap.nodup_keys
  have hsub : s.days.keys ⊆ s.byHeight.map getBlockTime := by
    intro day hday
    obtain ⟨cb, hcb, htime⟩ := mem_keys_days.mp hday
    exact List.mem_map.mpr ⟨cb, hcb, htime⟩
  have hle := (hnodup.subperm hsub).length_le
  rw [List.length_map] at hle
  exact Nat.lt_of_le_of_lt hle (byHeight_length hhigh)

/-- The blocks of the table are those that the loop over the heights has seen. -/
theorem Scanned.mem_byHeight {cbs : List CBlockIndex} {s : RecordScan} (h : Scanned cbs s)
    {height : UInt32} {cb : CBlockIndex} (hlookup : s.mBlocks.lookup height = some cb) :
    cb ∈ s.byHeight := by
  have hkey := (KeyedSet.lookup_eq_some.mp hlookup).2
  have hcb : cb ∈ cbs := by
    rw [h.mBlocks, KeyedSet.lookup_insertAll, KeyedSet.lookup_empty, Option.none_or] at hlookup
    exact List.mem_of_find?_eq_some hlookup
  refine List.mem_filterMap.mpr ⟨height, ?_, hlookup⟩
  rw [mem_heightsFrom, h.high, ← hkey]
  exact ⟨h.low_le cb hcb, h.le_top cb hcb⟩

/-! ## Numbering -/

/-- `b'` is `b` with numbers for the days of the list, in its order. -/
structure Numbered (days : List (List UInt8)) (b b' : BlocksImpl) : Prop where
  count : b'.mDayCount = UInt32.ofNat days.length
  index : ∀ i : UInt32, b'.mDayIndex[i]? = days[i.toNat]?
  number : ∀ day, b'.mDays[day]? = (b.mDays[day]?).map (fun bd =>
    if day ∈ days then { bd with mDayNumber := UInt32.ofNat (days.idxOf day) } else bd)

theorem numbered_nil {b : BlocksImpl} (hcount : b.mDayCount = 0) (hindex : b.mDayIndex = ∅) :
    Numbered [] b b where
  count := hcount
  index i := by simp [hindex]
  number day := by simp

theorem Numbered.step {days : List (List UInt8)} {b b' : BlocksImpl} (h : Numbered days b b')
    {last : List UInt8} (hnew : last ∉ days) (hlen : days.length < 2 ^ 32) :
    Numbered (days ++ [last]) b (b'.numberDay last) := by
  refine ⟨?_, ?_, ?_⟩
  · rw [List.length_append, List.length_singleton, UInt32.ofNat_add, ← h.count]
    rfl
  · intro i
    have hinsert : (b'.numberDay last).mDayIndex[i]? =
        if b'.mDayCount = i then some last else b'.mDayIndex[i]? := by
      simp [BlocksImpl.numberDay, Std.TreeMap.getElem?_insert]
    have hi : b'.mDayCount = i ↔ days.length = i.toNat := by
      rw [h.count, ← UInt32.toNat_inj, UInt32.toNat_ofNat_of_lt' hlen]
    rw [hinsert, h.index]
    by_cases heq : days.length = i.toNat
    · rw [if_pos (hi.mpr heq), ← heq, List.getElem?_concat_length]
    · rw [if_neg (fun hcount => heq (hi.mp hcount))]
      rcases Nat.lt_or_ge i.toNat days.length with hlt | hge
      · rw [List.getElem?_append_left hlt]
      · rw [List.getElem?_eq_none hge, List.getElem?_eq_none]
        rw [List.length_append, List.length_singleton]
        omega
  · intro day
    have hmodify : (b'.numberDay last).mDays[day]? = if last = day then
        (b'.mDays[last]?).map (fun bd => { bd with mDayNumber := b'.mDayCount })
        else b'.mDays[day]? := by
      simp [BlocksImpl.numberDay, Std.TreeMap.getElem?_modify]
    rw [hmodify]
    by_cases heq : last = day
    · subst heq
      rw [if_pos rfl, h.number, Option.map_map, h.count]
      congr 1
      funext bd
      have hplace : (days ++ [last]).idxOf last = days.length := by
        rw [List.idxOf_append_of_notMem hnew]
        simp
      simp [hnew, hplace]
    · rw [if_neg heq, h.number]
      congr 1
      funext bd
      by_cases hmem : day ∈ days
      · simp [hmem, List.idxOf_append_of_mem hmem]
      · simp [hmem, Ne.symm heq]

theorem numbered_foldl {b : BlocksImpl} (hcount : b.mDayCount = 0) (hindex : b.mDayIndex = ∅)
    (days : List (List UInt8)) (hnodup : days.Nodup) (hlen : days.length < 2 ^ 32) :
    Numbered days b (days.foldl BlocksImpl.numberDay b) := by
  induction days using List.reverseRecOn with
  | nil => exact numbered_nil hcount hindex
  | append_singleton days last ih =>
    rw [List.length_append, List.length_singleton] at hlen
    obtain ⟨hdays, -, hdisjoint⟩ := List.nodup_append.mp hnodup
    rw [List.foldl_append]
    refine (ih hdays (by omega)).step ?_ (by omega)
    intro hmem
    exact hdisjoint last hmem last (List.mem_singleton_self last) rfl

/-! ## The law of the day numbers -/

/-- The numbers from 0 up to the count go to the days, in the order of the calendar. -/
structure DayNumbers (b : BlocksImpl) : Prop where
  defined : ∀ i, (b.getDay i).isSome ↔ i < b.getDayCount
  injective : ∀ i j day, b.getDay i = some day → b.getDay j = some day → i = j
  chronological : ∀ i j day day', i < j → b.getDay i = some day → b.getDay j = some day' →
    ∃ d d', day = dateText d ∧ day' = dateText d' ∧ d.Before d'
  number : ∀ i day, b.getDay i = some day ↔ ∃ bd, b.mDays[day]? = some bd ∧ bd.mDayNumber = i
  monotone : ∀ height height' cb cb', b.getBlockIndex height = some cb →
    b.getBlockIndex height' = some cb' → cb.mTime ≤ cb'.mTime →
    ∃ bd bd', b.mDays[getBlockTime cb]? = some bd ∧ b.mDays[getBlockTime cb']? = some bd' ∧
      bd.mDayNumber ≤ bd'.mDayNumber

/-- A day that comes before another in the order of the texts has the smaller place. -/
theorem idxOf_lt_of_sorted {days : List (List UInt8)}
    (hsorted : days.Pairwise (fun x y => compare x y = .lt)) {day day' : List UInt8}
    (hday : day ∈ days) (hday' : day' ∈ days) (hlt : compare day day' = .lt) :
    days.idxOf day < days.idxOf day' := by
  have hin := List.idxOf_lt_length_of_mem hday
  have hin' := List.idxOf_lt_length_of_mem hday'
  have hget := List.getElem_idxOf hin
  have hget' := List.getElem_idxOf hin'
  rcases Nat.lt_trichotomy (days.idxOf day) (days.idxOf day') with h | h | h
  · exact h
  · rw [← hget, ← hget', getElem_congr_idx h, compare_self_text] at hlt
    cases hlt
  · have hgt := List.pairwise_iff_getElem.mp hsorted _ _ hin' hin h
    rw [hget, hget', Std.OrientedOrd.eq_swap, hlt] at hgt
    cases hgt

/-- The days stand in the order of the calendar. -/
theorem Numbered.getDay_lt {s : RecordScan} {b : BlocksImpl}
    (hnumbered : Numbered s.days.keys s.collected b) {i j : UInt32} {day day' : List UInt8}
    (hij : i < j) (hi : b.getDay i = some day) (hj : b.getDay j = some day') :
    ∃ d d', day = dateText d ∧ day' = dateText d' ∧ d.Before d' := by
  have hget : ∀ k, b.getDay k = s.days.keys[k.toNat]? := hnumbered.index
  rw [hget, List.getElem?_eq_some_iff] at hi hj
  obtain ⟨hin, hday⟩ := hi
  obtain ⟨hin', hday'⟩ := hj
  have hlt := List.pairwise_iff_getElem.mp Std.TreeMap.ordered_keys _ _ hin hin'
    (UInt32.lt_iff_toNat_lt.mp hij)
  rw [hday, hday'] at hlt
  obtain ⟨cb, -, htime⟩ := mem_keys_days.mp (hday ▸ List.getElem_mem hin)
  obtain ⟨cb', -, htime'⟩ := mem_keys_days.mp (hday' ▸ List.getElem_mem hin')
  rw [← htime, ← htime'] at hlt
  exact ⟨_, _, htime.symm, htime'.symm, dateOfDay_before (compare_getBlockTime.mp hlt)⟩

section Numbers

variable {s : RecordScan} {b : BlocksImpl}
  (hhigh : s.blockHigh ≠ 0xFFFFFFFF) (hnumbered : Numbered s.days.keys s.collected b)
include hhigh hnumbered

/-- The number of a day is its place among the days. -/
theorem Numbered.mDays_get {day : List UInt8} (hday : day ∈ s.days.keys) :
    ∃ bd, b.mDays[day]? = some bd ∧ bd.mDayNumber.toNat = s.days.keys.idxOf day := by
  have hlen := keys_length s hhigh
  have hin := List.idxOf_lt_length_of_mem hday
  have hcollected : s.collected.mDays = s.days := rfl
  obtain ⟨bd, hbd⟩ : ∃ bd, s.days[day]? = some bd := by
    rw [Std.TreeMap.mem_keys, Std.TreeMap.mem_iff_isSome_getElem?] at hday
    exact Option.isSome_iff_exists.mp hday
  have hget := hnumbered.number day
  rw [hcollected, hbd, Option.map_some, if_pos hday] at hget
  exact ⟨_, hget, UInt32.toNat_ofNat_of_lt' (Nat.lt_of_lt_of_le (by omega : _ < 2 ^ 32) le_rfl)⟩

theorem Numbered.getDay_iff {i : UInt32} {day : List UInt8} :
    b.getDay i = some day ↔ ∃ bd, b.mDays[day]? = some bd ∧ bd.mDayNumber = i := by
  have hget : b.getDay i = s.days.keys[i.toNat]? := hnumbered.index i
  have hnodup : s.days.keys.Nodup := Std.TreeMap.nodup_keys
  rw [hget, List.getElem?_eq_some_iff]
  constructor
  · rintro ⟨hin, hday⟩
    have hmem : day ∈ s.days.keys := hday ▸ List.getElem_mem hin
    obtain ⟨bd, hbd, hnumber⟩ := hnumbered.mDays_get hhigh hmem
    refine ⟨bd, hbd, UInt32.toNat_inj.mp ?_⟩
    rw [hnumber, ← hday, hnodup.idxOf_getElem]
  · rintro ⟨bd, hbd, rfl⟩
    have hday : day ∈ s.days.keys := by
      have hsome := hnumbered.number day
      rw [hbd] at hsome
      obtain ⟨bd', hbd', -⟩ := Option.map_eq_some_iff.mp hsome.symm
      rw [Std.TreeMap.mem_keys, Std.TreeMap.mem_iff_isSome_getElem?]
      exact Option.isSome_iff_exists.mpr ⟨bd', hbd'⟩
    obtain ⟨bd', hbd', hnumber⟩ := hnumbered.mDays_get hhigh hday
    obtain rfl : bd = bd' := Option.some.inj (hbd.symm.trans hbd')
    have hin := List.idxOf_lt_length_of_mem hday
    rw [← hnumber] at hin
    refine ⟨hin, ?_⟩
    rw [getElem_congr_idx hnumber, List.getElem_idxOf]

/-- A block that is not later has no larger number. -/
theorem Numbered.dayNumber_le {cb cb' : CBlockIndex} (hcb : cb ∈ s.byHeight)
    (hcb' : cb' ∈ s.byHeight) (htime : cb.mTime ≤ cb'.mTime) :
    ∃ bd bd', b.mDays[getBlockTime cb]? = some bd ∧ b.mDays[getBlockTime cb']? = some bd' ∧
      bd.mDayNumber ≤ bd'.mDayNumber := by
  have hday := mem_keys_days.mpr ⟨cb, hcb, rfl⟩
  have hday' := mem_keys_days.mpr ⟨cb', hcb', rfl⟩
  obtain ⟨bd, hbd, hnumber⟩ := hnumbered.mDays_get hhigh hday
  obtain ⟨bd', hbd', hnumber'⟩ := hnumbered.mDays_get hhigh hday'
  refine ⟨bd, bd', hbd, hbd', ?_⟩
  rw [UInt32.le_iff_toNat_le, hnumber, hnumber']
  have hdays : epochDay cb ≤ epochDay cb' :=
    Nat.div_le_div_right (UInt32.le_iff_toNat_le.mp htime)
  rcases Nat.lt_or_eq_of_le hdays with hlt | heq
  · have hplace := idxOf_lt_of_sorted Std.TreeMap.ordered_keys hday hday'
      (compare_getBlockTime.mpr hlt)
    omega
  · rw [getBlockTime_eq, getBlockTime_eq, heq]

end Numbers

/-- Whenever the constructor comes back, its days are numbered in the order of the calendar. -/
theorem the_day_numbers_are_a_chronological_bijection (records : List Entry) (b : BlocksImpl)
    (assertReached : Bool) (h : BlocksImpl.new records = some (b, assertReached)) :
    DayNumbers b := by
  obtain ⟨cbs, s, hscanned, hhigh, rfl⟩ := new_some h
  have hlen := keys_length s hhigh
  have hnumbered : Numbered s.days.keys s.collected
      (s.days.keys.foldl BlocksImpl.numberDay s.collected) :=
    numbered_foldl rfl rfl _ Std.TreeMap.nodup_keys hlen
  obtain ⟨b, hb⟩ : ∃ b, b = s.days.keys.foldl BlocksImpl.numberDay s.collected := ⟨_, rfl⟩
  have htable : b.mBlocks = s.mBlocks := by
    rw [hb]
    exact (numberDays_frame s.days.keys s.collected).2
  rw [← hb] at hnumbered ⊢
  have hget : ∀ i, b.getDay i = s.days.keys[i.toNat]? := hnumbered.index
  have hcount : b.getDayCount = UInt32.ofNat s.days.keys.length := hnumbered.count
  refine ⟨?_, ?_, ?_, ?_, ?_⟩
  · intro i
    rw [hget, hcount, UInt32.lt_iff_toNat_lt, UInt32.toNat_ofNat_of_lt' hlen]
    simp
  · intro i j day hi hj
    obtain ⟨bd, hbd, rfl⟩ := (hnumbered.getDay_iff hhigh).mp hi
    obtain ⟨bd', hbd', rfl⟩ := (hnumbered.getDay_iff hhigh).mp hj
    rw [hbd] at hbd'
    rw [Option.some.inj hbd']
  · intro i j day day' hij hi hj
    exact hnumbered.getDay_lt hij hi hj
  · intro i day
    exact hnumbered.getDay_iff hhigh
  · intro height height' cb cb' hcb hcb' htime
    rw [BlocksImpl.getBlockIndex, htable] at hcb hcb'
    exact hnumbered.dayNumber_le hhigh (hscanned.mem_byHeight hcb) (hscanned.mem_byHeight hcb') htime

/-- Block 0 is a day earlier than block 1. -/
theorem two_days_are_numbered : ∃ b assertReached,
    BlocksImpl.new [sampleRecord 1 3 1231090000, sampleRecord 0 1 1231006505] =
      some (b, assertReached) ∧ DayNumbers b := by
  have hrecords : [sampleRecord 1 3 1231090000, sampleRecord 0 1 1231006505].map decodeRecord =
      [sampleBlock 1 3 1231090000, sampleBlock 0 1 1231006505].map some := by decide +kernel
  obtain ⟨s, hscanned, hnew⟩ := new_eq hrecords
  have hhigh : s.blockHigh ≠ 0xFFFFFFFF :=
    hscanned.high_ne ⟨by decide +kernel, by decide +kernel⟩ (by simp)
  rw [if_neg hhigh] at hnew
  exact ⟨_, _, hnew, the_day_numbers_are_a_chronological_bijection _ _ _ hnew⟩

end bitcoinstats.blocks
