-- What the record step of `blocks.cpp` reads of a key and its value: it stays
-- inside of both, and leaves no malformed record in the table, exactly when the
-- value is one whole record.
import BitcoinStats.Blocks

open byte_memory var_int keyed_set bitcoinstats.block_chain bitcoinstats.block_index
  bitcoinstats.key_value_database

namespace bitcoinstats.blocks

/-! ## Records -/

/-- The bytes of a varint: one that ends it behind bytes that do not. -/
def IsVarint (bytes : List UInt8) : Prop :=
  ∃ head last, bytes = head ++ [last] ∧ (∀ b ∈ head, Continues b) ∧ ¬ Continues last

def varintValue (bytes : List UInt8) : UInt64 := UInt64.ofNat (bytes.foldl digit 0)

/-- A field that is there only if the status says so. -/
def IsField (present : Prop) (bytes : List UInt8) : Prop :=
  (present ∧ IsVarint bytes) ∨ (¬ present ∧ bytes = [])

/-- The fields of variable length, each as long as it is. -/
structure RecordVarints where
  version : List UInt8
  height : List UInt8
  status : List UInt8
  count : List UInt8
  file : List UInt8
  offset : List UInt8
  undo : List UInt8
  isVersion : IsVarint version
  isHeight : IsVarint height
  isStatus : IsVarint status
  isCount : IsVarint count
  isFile : IsField (varintValue status &&& BLOCK_HAVE_MASK ≠ 0) file
  isOffset : IsField (varintValue status &&& BLOCK_HAVE_DATA ≠ 0) offset
  isUndo : IsField (varintValue status &&& BLOCK_HAVE_UNDO ≠ 0) undo

def RecordVarints.bytes (r : RecordVarints) : List UInt8 :=
  r.version ++ (r.height ++ (r.status ++ (r.count ++ (r.file ++ (r.offset ++ r.undo)))))

/-- One whole record. -/
def IsRecord (record : List UInt8) : Prop :=
  ∃ (r : RecordVarints) (header : List UInt8), header.length = 80 ∧ record = r.bytes ++ header

/-! ## The claim about one record -/

/-- All that is read of a key and of its value, with any memory behind the zero
that closes each, lies in front of that zero. -/
def ReadsInside (key value keyBeyond valueBeyond : List UInt8) : Prop :=
  ∃ r, readRecord (key ++ 0 :: keyBeyond) (value ++ 0 :: valueBeyond) value.length = some r ∧
    keyBeyond.length < r.key.length ∧ valueBeyond.length < r.value.length

/-- A value that is not one whole record leaves the table as it was. -/
def RejectsMalformed (key value keyBeyond valueBeyond : List UInt8) : Prop :=
  ∀ (s : RecordScan) (r : ReadRecord), ¬ IsRecord value →
    readRecord (key ++ 0 :: keyBeyond) (value ++ 0 :: valueBeyond) value.length = some r →
    (s.addRecord r.cb).mBlocks = s.mBlocks

/-! ## Varints -/

theorem readVarint128Loop_some {value v : UInt64} {data rest : List UInt8}
    (h : readVarint128Loop value data = some (v, rest)) :
    ∃ head last, data = head ++ last :: rest ∧ (∀ b ∈ head, Continues b) ∧ ¬ Continues last := by
  induction data generalizing value with
  | nil => cases h
  | cons byte data ih =>
    unfold readVarint128Loop at h
    simp only at h
    split at h
    · rename_i hbyte
      obtain ⟨head, last, rfl, hhead, hlast⟩ := ih h
      refine ⟨byte :: head, last, rfl, ?_, hlast⟩
      intro b hb
      rcases List.mem_cons.mp hb with rfl | hb
      · exact (and_0x80_ne_zero b).mp hbyte
      · exact hhead b hb
    · rename_i hbyte
      obtain ⟨-, rfl⟩ := Prod.mk.inj (Option.some.inj h)
      exact ⟨[], byte, rfl, by simp, fun hc => hbyte ((and_0x80_ne_zero byte).mpr hc)⟩

theorem readVarint128_append {bytes : List UInt8} (h : IsVarint bytes) (rest : List UInt8) :
    readVarint128 (bytes ++ rest) = some (varintValue bytes, rest) := by
  obtain ⟨head, last, rfl, hhead, hlast⟩ := h
  rw [List.append_assoc]
  have hread := readVarint128Loop_digits 0 head last rest hhead hlast
  unfold varintValue
  rw [List.foldl_append]
  exact hread

theorem readVarint128_eq_some {data rest : List UInt8} {v : UInt64} :
    readVarint128 data = some (v, rest) ↔
      ∃ bytes, IsVarint bytes ∧ data = bytes ++ rest ∧ v = varintValue bytes := by
  constructor
  · intro h
    obtain ⟨head, last, rfl, hhead, hlast⟩ := readVarint128Loop_some h
    have hvarint : IsVarint (head ++ [last]) := ⟨head, last, rfl, hhead, hlast⟩
    have happend := readVarint128_append hvarint rest
    rw [List.append_assoc, List.singleton_append, h] at happend
    exact ⟨head ++ [last], hvarint, by simp, (Prod.mk.inj (Option.some.inj happend)).1⟩
  · rintro ⟨bytes, hbytes, rfl, rfl⟩
    exact readVarint128_append hbytes rest

theorem readVarint128If_some {present : Prop} [Decidable present] {d v : UInt64}
    {data rest : List UInt8} (h : readVarint128If present d data = some (v, rest)) :
    ∃ bytes, IsField present bytes ∧ data = bytes ++ rest := by
  unfold readVarint128If at h
  split at h
  · rename_i hpresent
    obtain ⟨bytes, hbytes, rfl, -⟩ := readVarint128_eq_some.mp h
    exact ⟨bytes, Or.inl ⟨hpresent, hbytes⟩, rfl⟩
  · rename_i hpresent
    obtain ⟨-, rfl⟩ := Prod.mk.inj (Option.some.inj h)
    exact ⟨[], Or.inr ⟨hpresent, rfl⟩, rfl⟩

theorem readVarint128If_append {present : Prop} [Decidable present] {bytes : List UInt8}
    (h : IsField present bytes) (d : UInt64) (rest : List UInt8) :
    ∃ v, readVarint128If present d (bytes ++ rest) = some (v, rest) := by
  unfold readVarint128If
  rcases h with ⟨hpresent, hbytes⟩ | ⟨hpresent, rfl⟩
  · rw [if_pos hpresent]
    exact ⟨_, readVarint128_append hbytes rest⟩
  · rw [if_neg hpresent]
    exact ⟨d, rfl⟩

/-- The loops over the varints end behind the fields of variable length. -/
theorem readVarints_some {this cb : CBlockIndex} {data rest : List UInt8}
    (h : this.readVarints data = some (cb, rest)) :
    ∃ r : RecordVarints, data = r.bytes ++ rest := by
  unfold CBlockIndex.readVarints at h
  simp only [Option.bind_eq_bind, Option.bind_eq_some_iff] at h
  obtain ⟨⟨v1, d1⟩, h1, ⟨v2, d2⟩, h2, ⟨v3, d3⟩, h3, ⟨v4, d4⟩, h4, ⟨v5, d5⟩, h5, ⟨v6, d6⟩, h6,
    ⟨v7, d7⟩, h7, h8⟩ := h
  obtain ⟨version, hversion, rfl, rfl⟩ := readVarint128_eq_some.mp h1
  obtain ⟨height, hheight, rfl, rfl⟩ := readVarint128_eq_some.mp h2
  obtain ⟨status, hstatus, rfl, rfl⟩ := readVarint128_eq_some.mp h3
  obtain ⟨count, hcount, rfl, rfl⟩ := readVarint128_eq_some.mp h4
  obtain ⟨file, hfile, rfl⟩ := readVarint128If_some h5
  obtain ⟨offset, hoffset, rfl⟩ := readVarint128If_some h6
  obtain ⟨undo, hundo, rfl⟩ := readVarint128If_some h7
  obtain ⟨-, rfl⟩ := Prod.mk.inj (Option.some.inj h8)
  exact ⟨⟨version, height, status, count, file, offset, undo, hversion, hheight, hstatus, hcount,
    hfile, hoffset, hundo⟩, by simp [RecordVarints.bytes]⟩

theorem readVarints_bytes (this : CBlockIndex) (r : RecordVarints) (rest : List UInt8) :
    ∃ cb, this.readVarints (r.bytes ++ rest) = some (cb, rest) := by
  obtain ⟨_, hfile⟩ := readVarint128If_append r.isFile this.mFileIndex (r.offset ++ (r.undo ++ rest))
  obtain ⟨_, hoffset⟩ := readVarint128If_append r.isOffset this.mFileOffset (r.undo ++ rest)
  obtain ⟨_, hundo⟩ := readVarint128If_append r.isUndo this.mUndoOffset rest
  unfold CBlockIndex.readVarints RecordVarints.bytes
  simp only [List.append_assoc, readVarint128_append r.isVersion, readVarint128_append r.isHeight,
    readVarint128_append r.isStatus, readVarint128_append r.isCount, Option.bind_eq_bind,
    Option.bind_some, hfile, hoffset, hundo]
  exact ⟨_, rfl⟩

/-! ## Fields of fixed length -/

/-- A reader that takes `n` bytes, whatever they are. -/
def Takes {α : Type} (n : Nat) (read : List UInt8 → Option (α × List UInt8)) : Prop :=
  ∀ scan, (n ≤ scan.length → ∃ a, read scan = some (a, scan.drop n)) ∧
    (scan.length < n → read scan = none)

theorem takes_bind {α β : Type} {m n : Nat} {read : List UInt8 → Option (α × List UInt8)}
    {next : α × List UInt8 → Option (β × List UInt8)} (h : Takes m read)
    (hnext : ∀ a, Takes n (fun scan => next (a, scan))) :
    Takes (m + n) (fun scan => (read scan).bind next) := by
  intro scan
  obtain ⟨hread, hshort⟩ := h scan
  constructor
  · intro hlength
    obtain ⟨a, ha⟩ := hread (by omega)
    obtain ⟨b, hb⟩ := ((hnext a) (scan.drop m)).1 (by rw [List.length_drop]; omega)
    refine ⟨b, ?_⟩
    simp only [ha, Option.bind_some, hb, List.drop_drop]
  · intro hlength
    by_cases hm : m ≤ scan.length
    · obtain ⟨a, ha⟩ := hread hm
      have hb := ((hnext a) (scan.drop m)).2 (by rw [List.length_drop]; omega)
      simp only [ha, Option.bind_some, hb]
    · simp only [hshort (by omega), Option.bind_none]

theorem takes_readUInt32 : Takes 4 readUInt32 := by
  intro scan
  unfold readUInt32 readBytes
  constructor
  · intro hlength
    simp [hlength]
  · intro hlength
    rw [if_neg (by omega)]
    rfl

theorem takes_readHashBytes : Takes 32 readHashBytes := by
  intro scan
  unfold readHashBytes
  constructor
  · intro hlength
    rw [dif_pos hlength]
    exact ⟨_, rfl⟩
  · intro hlength
    rw [dif_neg (by omega)]

theorem takes_some {α : Type} (f : α) : Takes 0 (fun scan => some (f, scan)) :=
  fun _ => ⟨fun _ => ⟨f, rfl⟩, fun h => absurd h (Nat.not_lt_zero _)⟩

/-- The block header takes 80 bytes. -/
theorem takes_readHeader (this : CBlockIndex) : Takes 80 this.readHeader := by
  refine takes_bind takes_readUInt32 (n := 76) fun _ => ?_
  refine takes_bind takes_readHashBytes (n := 44) fun _ => ?_
  refine takes_bind takes_readHashBytes (n := 12) fun _ => ?_
  refine takes_bind takes_readUInt32 (n := 8) fun _ => ?_
  refine takes_bind takes_readUInt32 (n := 4) fun _ => ?_
  exact takes_bind takes_readUInt32 (n := 0) fun _ => takes_some _

/-! ## The record -/

/-- The decoder stops behind the first whole record. -/
theorem readBlockIndex_scan {this : CBlockIndex} {data rest : List UInt8} {size : Nat} :
    (∃ r, this.readBlockIndex data size = some r ∧ r.scan = rest) ↔
      ∃ record, IsRecord record ∧ data = record ++ rest := by
  unfold CBlockIndex.readBlockIndex
  constructor
  · rintro ⟨r, hr, rfl⟩
    simp only [Option.bind_eq_bind, Option.bind_eq_some_iff] at hr
    obtain ⟨⟨cb, scan⟩, hvarints, ⟨cb', scan'⟩, hheader, hr⟩ := hr
    obtain rfl := Option.some.inj hr
    obtain ⟨v, rfl⟩ := readVarints_some hvarints
    have hlength : 80 ≤ scan.length := by
      by_contra hshort
      have hnone := (takes_readHeader cb scan).2 (by omega)
      rw [hnone] at hheader
      cases hheader
    obtain ⟨_, hread⟩ := (takes_readHeader cb scan).1 hlength
    rw [hread] at hheader
    obtain ⟨-, rfl⟩ := Prod.mk.inj (Option.some.inj hheader)
    refine ⟨v.bytes ++ scan.take 80, ⟨v, scan.take 80, by simp [hlength], rfl⟩, ?_⟩
    rw [List.append_assoc, List.take_append_drop]
  · rintro ⟨record, ⟨v, header, hheader, rfl⟩, rfl⟩
    obtain ⟨cb, hvarints⟩ := readVarints_bytes this v (header ++ rest)
    obtain ⟨cb', hread⟩ := (takes_readHeader cb (header ++ rest)).1 (by simp [hheader])
    rw [List.drop_left' hheader] at hread
    rw [List.append_assoc, hvarints]
    simp only [Option.bind_eq_bind, Option.bind_some, hread]
    exact ⟨_, rfl, rfl⟩

/-- What is in front of the closing zero is a part of the string itself. -/
theorem append_eq_within {s t beyond rest : List UInt8} (h : s ++ 0 :: beyond = t ++ rest)
    (hrest : beyond.length < rest.length) : ∃ tail, s = t ++ tail := by
  have hlength := congrArg List.length h
  simp only [List.length_append, List.length_cons] at hlength
  refine ⟨s.drop t.length, ?_⟩
  have htake := congrArg (List.take t.length) h
  rw [List.take_left' rfl, List.take_append_of_le_length (by omega)] at htake
  rw [← htake, List.length_take, Nat.min_eq_left (by omega), List.take_append_drop]

/-- The reads stay inside when there is a whole key and the value has a record in front. -/
theorem readsInside_iff {key value keyBeyond valueBeyond : List UInt8} :
    ReadsInside key value keyBeyond valueBeyond ↔
      33 ≤ key.length ∧ ∃ record tail, IsRecord record ∧ value = record ++ tail := by
  unfold ReadsInside readRecord
  constructor
  · rintro ⟨r, hr, hkey, hvalue⟩
    simp only [Option.bind_eq_bind, Option.bind_eq_some_iff] at hr
    obtain ⟨⟨blockHash, keyScan⟩, hhash, r', hr', hr⟩ := hr
    obtain rfl := Option.some.inj hr
    constructor
    · by_contra hshort
      by_cases hlength : 32 ≤ ((key ++ 0 :: keyBeyond).drop 1).length
      · obtain ⟨_, hread⟩ := (takes_readHashBytes _).1 hlength
        rw [hread] at hhash
        obtain ⟨-, rfl⟩ := Prod.mk.inj (Option.some.inj hhash)
        simp at hkey hlength
        omega
      · rw [(takes_readHashBytes _).2 (by omega)] at hhash
        cases hhash
    · obtain ⟨record, hrecord, hdata⟩ := readBlockIndex_scan.mp ⟨r', hr', rfl⟩
      obtain ⟨tail, htail⟩ := append_eq_within hdata hvalue
      exact ⟨record, tail, hrecord, htail⟩
  · rintro ⟨hkey, record, tail, hrecord, rfl⟩
    have hlength : 32 ≤ ((key ++ 0 :: keyBeyond).drop 1).length := by
      simp
      omega
    obtain ⟨blockHash, hhash⟩ := (takes_readHashBytes _).1 hlength
    obtain ⟨r, hr, hscan⟩ : ∃ r, (CBlockIndex.new blockHash).readBlockIndex
        (record ++ tail ++ 0 :: valueBeyond) (record ++ tail).length = some r ∧
          r.scan = tail ++ 0 :: valueBeyond :=
      readBlockIndex_scan.mpr ⟨record, hrecord, List.append_assoc _ _ _⟩
    rw [hhash]
    simp only [Option.bind_eq_bind, Option.bind_some, hr]
    refine ⟨_, rfl, ?_, ?_⟩
    · simp
      omega
    · simp only [hscan, List.length_append, List.length_cons]
      omega

/-- Every record that is read is stored where there was none. -/
theorem addRecord_stores (cb : CBlockIndex) : (RecordScan.new.addRecord cb).mBlocks ≠ .empty _ := by
  intro hempty
  have hfound : (RecordScan.new.addRecord cb).mBlocks.lookup (blockHeight cb) = some cb := by
    have hlookup : ((KeyedSet.empty blockHeight).insert cb).lookup (blockHeight cb) = some cb := by
      rw [KeyedSet.lookup_insert]
      simp
    exact hlookup
  rw [hempty] at hfound
  cases hfound

/-- A key that is long enough and a value that is one whole record: nothing
else is read without leaving them, or rejected. -/
theorem a_record_is_read_safely_exactly_when_it_is_whole
    (key value keyBeyond valueBeyond : List UInt8) :
    (ReadsInside key value keyBeyond valueBeyond ∧ RejectsMalformed key value keyBeyond valueBeyond) ↔
      33 ≤ key.length ∧ IsRecord value := by
  rw [readsInside_iff]
  constructor
  · rintro ⟨hinside, hrejects⟩
    refine ⟨hinside.1, ?_⟩
    by_contra hmalformed
    obtain ⟨r, hr, -⟩ := readsInside_iff.mpr hinside
    exact addRecord_stores r.cb (hrejects RecordScan.new r hmalformed hr)
  · rintro ⟨hkey, hrecord⟩
    refine ⟨⟨hkey, value, [], hrecord, (List.append_nil value).symm⟩, ?_⟩
    intro s r hmalformed
    exact absurd hrecord hmalformed

/-- An empty value with zeros behind it: all that is read lies behind its end. -/
theorem an_empty_value_is_read_beyond_its_end :
    ¬ (ReadsInside (98 :: List.replicate 32 0) [] [] (List.replicate 100 0) ∧
      RejectsMalformed (98 :: List.replicate 32 0) [] [] (List.replicate 100 0)) := by
  rintro ⟨hinside, -⟩
  obtain ⟨-, record, tail, ⟨v, header, hheader, rfl⟩, hvalue⟩ := readsInside_iff.mp hinside
  have hlength := congrArg List.length hvalue
  simp only [List.length_nil, List.length_append] at hlength
  omega

end bitcoinstats.blocks
