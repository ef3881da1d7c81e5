-- Internal keys (`db/dbformat.h`, `db/dbformat.cc`): a user key with a sequence
-- number and a type, and their order, the newest entry of a user key first.
import BitcoinStats.LevelDB.Comparators

open byte_memory byte_words

namespace bitcoinstats.leveldb

inductive ValueType where
  | kTypeDeletion
  | kTypeValue
  deriving DecidableEq

def ValueType.code : ValueType → UInt64
  | .kTypeDeletion => 0
  | .kTypeValue => 1

def kValueTypeForSeek : ValueType := .kTypeValue

abbrev SequenceNumber := UInt64

def kMaxSequenceNumber : SequenceNumber := ((1 : UInt64) <<< 56) - 1

structure ParsedInternalKey where
  user_key : Slice
  sequence : SequenceNumber
  type : ValueType
  deriving DecidableEq

def PackSequenceAndType (seq : SequenceNumber) (t : ValueType) : UInt64 := (seq <<< 8) ||| t.code

def AppendInternalKey (result : Slice) (key : ParsedInternalKey) : Slice :=
  PutFixed64 (result ++ key.user_key) (PackSequenceAndType key.sequence key.type)

/-- A key of at least eight bytes, without its last eight. -/
def ExtractUserKey (internal_key : Slice) : Slice := internal_key.take (internal_key.length - 8)

/-- The number in the last eight bytes. -/
def tagOf (internal_key : Slice) : UInt64 := DecodeFixed64 (internal_key.drop (internal_key.length - 8))

def ParseInternalKey (internal_key : Slice) : Option ParsedInternalKey :=
  if internal_key.length < 8 then none
  else
    let num := tagOf internal_key
    let c := num &&& 255
    let parsed := fun t =>
      { user_key := ExtractUserKey internal_key, sequence := num >>> 8, type := t : ParsedInternalKey }
    if c = 0 then some (parsed .kTypeDeletion)
    else if c = 1 then some (parsed .kTypeValue)
    else none

def InternalKeyComparator (user_comparator : Comparator) : Comparator where
  Compare akey bkey :=
    let r := user_comparator.Compare (ExtractUserKey akey) (ExtractUserKey bkey)
    if r = .eq then
      let anum := tagOf akey
      let bnum := tagOf bkey
      if anum > bnum then .lt else if anum < bnum then .gt else r
    else r
  FindShortestSeparator start limit :=
    let user_start := ExtractUserKey start
    let user_limit := ExtractUserKey limit
    let tmp := user_comparator.FindShortestSeparator user_start user_limit
    if tmp.length < user_start.length ∧ user_comparator.Compare user_start tmp = .lt then
      PutFixed64 tmp (PackSequenceAndType kMaxSequenceNumber kValueTypeForSeek)
    else start
  FindShortSuccessor key :=
    let user_key := ExtractUserKey key
    let tmp := user_comparator.FindShortSuccessor user_key
    if tmp.length < user_key.length ∧ user_comparator.Compare user_key tmp = .lt then
      PutFixed64 tmp (PackSequenceAndType kMaxSequenceNumber kValueTypeForSeek)
    else key

/-- The three views of a `LookupKey`. -/
structure LookupKey where
  memtable_key : Slice
  internal_key : Slice
  user_key : Slice

def LookupKey.new (user_key : Slice) (s : SequenceNumber) : LookupKey :=
  let klength := EncodeVarint32 (UInt32.ofNat (user_key.length + 8))
  let internal_key := PutFixed64 user_key (PackSequenceAndType s kValueTypeForSeek)
  { memtable_key := klength ++ internal_key, internal_key, user_key }

/-! ## Tags -/

theorem PackSequenceAndType_toNat {seq : SequenceNumber} (h : seq ≤ kMaxSequenceNumber) (t : ValueType) :
    (PackSequenceAndType seq t).toNat = 256 * seq.toNat + t.code.toNat := by
  have hseq : seq.toNat < 2 ^ 56 := by
    have hle : seq.toNat ≤ kMaxSequenceNumber.toNat := UInt64.le_iff_toNat_le.mp h
    have hmax : kMaxSequenceNumber.toNat = 2 ^ 56 - 1 := by decide
    omega
  have hshift : (seq <<< 8).toNat = 2 ^ 8 * seq.toNat := by
    rw [UInt64.toNat_shiftLeft]
    change seq.toNat <<< 8 % 2 ^ 64 = _
    rw [Nat.shiftLeft_eq, Nat.mod_eq_of_lt (by omega), Nat.mul_comm]
  have hcode : t.code.toNat < 2 ^ 8 := by cases t <;> decide
  rw [PackSequenceAndType, UInt64.toNat_or, hshift, ← Nat.two_pow_add_eq_or_of_lt hcode]

theorem sequence_lt {seq : SequenceNumber} (h : seq ≤ kMaxSequenceNumber) : seq.toNat < 2 ^ 56 := by
  have hle : seq.toNat ≤ kMaxSequenceNumber.toNat := UInt64.le_iff_toNat_le.mp h
  have hmax : kMaxSequenceNumber.toNat = 2 ^ 56 - 1 := by decide
  omega

theorem code_injective {t t' : ValueType} (h : t.code = t'.code) : t = t' := by
  cases t <;> cases t' <;> first | rfl | exact absurd h (by decide)

/-- The packed numbers order by sequence number, then by type. -/
theorem pack_lt_pack {s s' : SequenceNumber} (h : s ≤ kMaxSequenceNumber)
    (h' : s' ≤ kMaxSequenceNumber) (t t' : ValueType) :
    PackSequenceAndType s t < PackSequenceAndType s' t' ↔ s < s' ∨ s = s' ∧ t.code < t'.code := by
  have hcode : t.code.toNat < 256 := by cases t <;> decide
  have hcode' : t'.code.toNat < 256 := by cases t' <;> decide
  rw [UInt64.lt_iff_toNat_lt, UInt64.lt_iff_toNat_lt, UInt64.lt_iff_toNat_lt, ← UInt64.toNat_inj,
    PackSequenceAndType_toNat h, PackSequenceAndType_toNat h']
  omega

theorem pack_injective {s s' : SequenceNumber} (h : s ≤ kMaxSequenceNumber)
    (h' : s' ≤ kMaxSequenceNumber) {t t' : ValueType}
    (heq : PackSequenceAndType s t = PackSequenceAndType s' t') : s = s' ∧ t = t' := by
  have hcode : t.code.toNat < 256 := by cases t <;> decide
  have hcode' : t'.code.toNat < 256 := by cases t' <;> decide
  rw [← UInt64.toNat_inj, PackSequenceAndType_toNat h, PackSequenceAndType_toNat h'] at heq
  refine ⟨UInt64.toNat_inj.mp (by omega), code_injective (UInt64.toNat_inj.mp (by omega))⟩

/-! ## Reading back -/

@[simp] theorem length_AppendInternalKey (key : ParsedInternalKey) :
    (AppendInternalKey [] key).length = key.user_key.length + 8 := by
  simp [AppendInternalKey, PutFixed64]

@[simp] theorem ExtractUserKey_put (user_key : Slice) (num : UInt64) :
    ExtractUserKey (PutFixed64 user_key num) = user_key := by
  simp [ExtractUserKey, PutFixed64]

@[simp] theorem tagOf_put (user_key : Slice) (num : UInt64) : tagOf (PutFixed64 user_key num) = num := by
  have h := DecodeFixed64_put num []
  rw [List.append_nil] at h
  simp [tagOf, PutFixed64, h]

/-- A key of eight bytes or more is its user key and its tag. -/
theorem put_extract {k : Slice} (h : 8 ≤ k.length) : PutFixed64 (ExtractUserKey k) (tagOf k) = k := by
  have hlen : (k.drop (k.length - 8)).length = 8 := by
    rw [List.length_drop]
    omega
  have hbytes := leBytes_leVal (k.drop (k.length - 8))
  rw [hlen] at hbytes
  rw [PutFixed64, tagOf, DecodeFixed64_toNat, List.take_of_length_le (by omega), hbytes,
    ExtractUserKey, List.take_append_drop]

theorem shiftRight_eight (num : UInt64) : (num >>> 8).toNat = num.toNat / 256 := by
  rw [UInt64.toNat_shiftRight]
  change num.toNat >>> 8 = _
  rw [Nat.shiftRight_eq_div_pow]

theorem and_255 (num : UInt64) : (num &&& 255).toNat = num.toNat % 256 := by
  rw [UInt64.toNat_and]
  exact Nat.and_two_pow_sub_one_eq_mod num.toNat 8

/-- A tag whose low byte is a type is packed from the rest of its bits. -/
theorem pack_unpack {num : UInt64} {t : ValueType} (h : num &&& 255 = t.code) :
    num >>> 8 ≤ kMaxSequenceNumber ∧ PackSequenceAndType (num >>> 8) t = num := by
  have hmax : kMaxSequenceNumber.toNat = 2 ^ 56 - 1 := by decide
  have hnum := num.toNat_lt
  have hle : num >>> 8 ≤ kMaxSequenceNumber := by
    rw [UInt64.le_iff_toNat_le, shiftRight_eight, hmax]
    omega
  have hcode := congrArg UInt64.toNat h
  rw [and_255] at hcode
  refine ⟨hle, UInt64.toNat_inj.mp ?_⟩
  rw [PackSequenceAndType_toNat hle, shiftRight_eight]
  omega

theorem unpack_pack {seq : SequenceNumber} (h : seq ≤ kMaxSequenceNumber) (t : ValueType) :
    PackSequenceAndType seq t >>> 8 = seq ∧ PackSequenceAndType seq t &&& 255 = t.code := by
  have hcode : t.code.toNat < 256 := by cases t <;> decide
  constructor
  · apply UInt64.toNat_inj.mp
    rw [shiftRight_eight, PackSequenceAndType_toNat h]
    omega
  · apply UInt64.toNat_inj.mp
    rw [and_255, PackSequenceAndType_toNat h]
    omega

/-- A key parses as what it was packed from, and as nothing else. -/
theorem ParseInternalKey_eq_some {k : Slice} {p : ParsedInternalKey} :
    ParseInternalKey k = some p ↔ k = AppendInternalKey [] p ∧ p.sequence ≤ kMaxSequenceNumber := by
  constructor
  · intro h
    rw [ParseInternalKey] at h
    split at h
    · cases h
    · rename_i hlen
      have hbytes := put_extract (by omega : 8 ≤ k.length)
      simp only at h
      split at h
      · rename_i hc
        obtain ⟨hle, hpack⟩ := pack_unpack (t := .kTypeDeletion) hc
        cases h
        refine ⟨?_, hle⟩
        rw [AppendInternalKey, hpack, List.nil_append, hbytes]
      · split at h
        · rename_i hc
          obtain ⟨hle, hpack⟩ := pack_unpack (t := .kTypeValue) hc
          cases h
          refine ⟨?_, hle⟩
          rw [AppendInternalKey, hpack, List.nil_append, hbytes]
        · cases h
  · rintro ⟨rfl, hle⟩
    obtain ⟨hseq, htype⟩ := unpack_pack hle p.type
    have hlen : ¬ (AppendInternalKey [] p).length < 8 := by
      rw [length_AppendInternalKey]
      omega
    rw [ParseInternalKey, if_neg hlen]
    cases p with
    | mk user_key sequence type =>
      cases type <;> simp_all [AppendInternalKey, ValueType.code]

/-! ## The order -/

variable {c : Comparator}

/-- The user keys decide, and then the tags, the larger first. -/
theorem InternalKeyComparator_Compare (c : Comparator) (a b : Slice) :
    (InternalKeyComparator c).Compare a b =
      (c.Compare (ExtractUserKey a) (ExtractUserKey b)).then (compare (tagOf b) (tagOf a)) := by
  simp only [InternalKeyComparator]
  cases h : c.Compare (ExtractUserKey a) (ExtractUserKey b) with
  | lt => simp
  | gt => simp
  | eq =>
    rw [if_pos rfl, Ordering.then]
    split
    · rename_i hlt
      exact (Std.compare_eq_lt.mpr hlt).symm
    · split
      · rename_i hgt
        exact (Std.compare_eq_gt.mpr hgt).symm
      · rename_i hlt hgt
        have heq := UInt64.le_antisymm (UInt64.not_lt.mp hlt) (UInt64.not_lt.mp hgt)
        rw [heq]
        exact Std.ReflOrd.compare_self.symm

theorem transCmp_on {α β : Type} {cmp : β → β → Ordering} (f : α → β) (h : Std.TransCmp cmp) :
    Std.TransCmp (fun a b => cmp (f a) (f b)) where
  eq_swap := h.eq_swap
  isLE_trans := h.isLE_trans

theorem InternalKeyComparator_total (h : Std.TransCmp c.Compare) :
    Std.TransCmp (InternalKeyComparator c).Compare := by
  have huser := transCmp_on ExtractUserKey h
  have hnewest : Std.TransCmp (fun a b : UInt64 => compare b a) := inferInstance
  have htag := transCmp_on tagOf hnewest
  have hlex : (InternalKeyComparator c).Compare =
      compareLex (fun a b => c.Compare (ExtractUserKey a) (ExtractUserKey b))
        (fun a b => compare (tagOf b) (tagOf a)) :=
    funext fun a => funext (InternalKeyComparator_Compare c a)
  rw [hlex]
  infer_instance

/-- Keys of eight bytes or more that compare equal are the same. -/
theorem InternalKeyComparator_same (h : Std.LawfulEqCmp c.Compare) {a b : Slice} (ha : 8 ≤ a.length)
    (hb : 8 ≤ b.length) (heq : (InternalKeyComparator c).Compare a b = .eq) : a = b := by
  rw [InternalKeyComparator_Compare, Ordering.then_eq_eq] at heq
  have huser := h.eq_of_compare heq.1
  have htag := Std.LawfulEqOrd.eq_of_compare heq.2
  rw [← put_extract ha, ← put_extract hb, huser, htag]

/-- Packed keys: the user key, then the newest sequence number, and a value before a deletion. -/
theorem InternalKeyComparator_lt {p q : ParsedInternalKey} (hp : p.sequence ≤ kMaxSequenceNumber)
    (hq : q.sequence ≤ kMaxSequenceNumber) :
    (InternalKeyComparator c).Compare (AppendInternalKey [] p) (AppendInternalKey [] q) = .lt ↔
      c.Compare p.user_key q.user_key = .lt ∨ c.Compare p.user_key q.user_key = .eq ∧
        (q.sequence < p.sequence ∨ q.sequence = p.sequence ∧ q.type.code < p.type.code) := by
  rw [InternalKeyComparator_Compare, Ordering.then_eq_lt, Std.compare_eq_lt, AppendInternalKey,
    AppendInternalKey, List.nil_append, List.nil_append, ExtractUserKey_put, ExtractUserKey_put,
    tagOf_put, tagOf_put, pack_lt_pack hq hp]

/-- The first entry that is not before a lookup key is the newest that the lookup may see. -/
theorem LookupKey_isLE (h : Std.TransCmp c.Compare) {user_key : Slice} {s : SequenceNumber}
    {p : ParsedInternalKey} (hs : s ≤ kMaxSequenceNumber) (hp : p.sequence ≤ kMaxSequenceNumber) :
    ((InternalKeyComparator c).Compare (LookupKey.new user_key s).internal_key
        (AppendInternalKey [] p)).isLE ↔
      c.Compare user_key p.user_key = .lt ∨ c.Compare user_key p.user_key = .eq ∧ p.sequence ≤ s := by
  have htotal := InternalKeyComparator_total h
  have hkey : (LookupKey.new user_key s).internal_key =
      AppendInternalKey [] { user_key, sequence := s, type := kValueTypeForSeek } := rfl
  have hswap : ∀ a b, ((InternalKeyComparator c).Compare a b).isLE ↔
      ¬ (InternalKeyComparator c).Compare b a = .lt := by
    intro a b
    rw [htotal.eq_swap, Ordering.isLE_swap]
    cases (InternalKeyComparator c).Compare b a <;> simp
  rw [hswap, hkey, InternalKeyComparator_lt hp hs, h.eq_swap (a := p.user_key)]
  have hcode : ¬ (kValueTypeForSeek.code < p.type.code) := by
    cases p.type <;> decide
  cases c.Compare user_key p.user_key with
  | lt => simp
  | gt => simp
  | eq => simp [hcode]

/-- An internal key parses as what was packed and as nothing else, and the order of the internal
keys of any comparator is total: the user keys in their order, of one user key the newest entry
first. A lookup key lies before exactly the entries that the lookup may see. -/
theorem internal_keys_sort_newest_first (c : Comparator) (h : c.Lawful) :
    (∀ k p, ParseInternalKey k = some p ↔
      k = AppendInternalKey [] p ∧ p.sequence ≤ kMaxSequenceNumber) ∧
    Std.TransCmp (InternalKeyComparator c).Compare ∧
    (∀ a b : Slice, 8 ≤ a.length → 8 ≤ b.length → (InternalKeyComparator c).Compare a b = .eq → a = b) ∧
    (∀ p q : ParsedInternalKey, p.sequence ≤ kMaxSequenceNumber → q.sequence ≤ kMaxSequenceNumber →
      ((InternalKeyComparator c).Compare (AppendInternalKey [] p) (AppendInternalKey [] q) = .lt ↔
        c.Compare p.user_key q.user_key = .lt ∨ c.Compare p.user_key q.user_key = .eq ∧
          (q.sequence < p.sequence ∨ q.sequence = p.sequence ∧ q.type.code < p.type.code))) ∧
    (∀ user_key s (p : ParsedInternalKey), s ≤ kMaxSequenceNumber → p.sequence ≤ kMaxSequenceNumber →
      (((InternalKeyComparator c).Compare (LookupKey.new user_key s).internal_key
          (AppendInternalKey [] p)).isLE ↔
        c.Compare user_key p.user_key = .lt ∨
          c.Compare user_key p.user_key = .eq ∧ p.sequence ≤ s)) := by
  refine ⟨fun _ _ => ParseInternalKey_eq_some, InternalKeyComparator_total h.total, ?_, ?_, ?_⟩
  · intro a b ha hb heq
    exact InternalKeyComparator_same h.same ha hb heq
  · intro p q hp hq
    exact InternalKeyComparator_lt hp hq
  · intro user_key s p hs hp
    exact LookupKey_isLE h.total hs hp

theorem internal_keys_of_bytes :
    BytewiseComparator.Lawful ∧ Std.TransCmp (InternalKeyComparator BytewiseComparator).Compare :=
  ⟨bytewise_lawful, (internal_keys_sort_newest_first BytewiseComparator bytewise_lawful).2.1⟩

/-! ## Separators -/

theorem length_PutFixed64 (dst : Slice) (v : UInt64) : (PutFixed64 dst v).length = dst.length + 8 := by
  simp [PutFixed64]

theorem InternalKeyComparator_user_lt {a b : Slice}
    (h : c.Compare (ExtractUserKey a) (ExtractUserKey b) = .lt) :
    (InternalKeyComparator c).Compare a b = .lt := by
  rw [InternalKeyComparator_Compare, h]
  rfl

/-- The shortened key is an internal key from `start` on and before `limit`. -/
theorem internal_separator (h : c.Lawful) {start limit : Slice} (hstart : 8 ≤ start.length)
    (hlt : (InternalKeyComparator c).Compare start limit = .lt) :
    let short := (InternalKeyComparator c).FindShortestSeparator start limit
    8 ≤ short.length ∧ short.length ≤ start.length ∧
      ((InternalKeyComparator c).Compare start short).isLE ∧
      (InternalKeyComparator c).Compare short limit = .lt := by
  have htotal := InternalKeyComparator_total h.total
  simp only [InternalKeyComparator]
  split
  · rename_i hshort
    obtain ⟨hlen, hafter⟩ := hshort
    rw [length_PutFixed64]
    have huser : (ExtractUserKey start).length = start.length - 8 := by
      rw [ExtractUserKey, List.length_take]
      omega
    refine ⟨by omega, by omega, ?_, ?_⟩
    · have hbefore := InternalKeyComparator_user_lt (a := start)
        (b := PutFixed64 (c.FindShortestSeparator (ExtractUserKey start) (ExtractUserKey limit))
          (PackSequenceAndType kMaxSequenceNumber kValueTypeForSeek)) (c := c)
        (by rw [ExtractUserKey_put]; exact hafter)
      change ((InternalKeyComparator c).Compare _ _).isLE = true
      rw [hbefore]
      rfl
    · apply InternalKeyComparator_user_lt (c := c)
      rw [ExtractUserKey_put]
      rw [InternalKeyComparator_Compare, Ordering.then_eq_lt] at hlt
      rcases hlt with hlt | ⟨heq, -⟩
      · exact (h.separator _ _ hlt).2
      · -- one user key: it is not shortened
        have hsame := h.same.eq_of_compare heq
        rw [← hsame, h.unchanged] at hlen
        omega
  · refine ⟨hstart, le_rfl, ?_, hlt⟩
    have hself : (InternalKeyComparator c).Compare start start = .eq := Std.ReflCmp.compare_self
    change ((InternalKeyComparator c).Compare start start).isLE = true
    rw [hself]
    rfl

theorem internal_successor (h : c.Lawful) {key : Slice} (hkey : 8 ≤ key.length) :
    let short := (InternalKeyComparator c).FindShortSuccessor key
    8 ≤ short.length ∧ short.length ≤ key.length ∧
      ((InternalKeyComparator c).Compare key short).isLE := by
  have htotal := InternalKeyComparator_total h.total
  simp only [InternalKeyComparator]
  split
  · rename_i hshort
    obtain ⟨hlen, hafter⟩ := hshort
    rw [length_PutFixed64]
    have huser : (ExtractUserKey key).length = key.length - 8 := by
      rw [ExtractUserKey, List.length_take]
      omega
    refine ⟨by omega, by omega, ?_⟩
    have hbefore := InternalKeyComparator_user_lt (a := key)
      (b := PutFixed64 (c.FindShortSuccessor (ExtractUserKey key))
        (PackSequenceAndType kMaxSequenceNumber kValueTypeForSeek)) (c := c)
      (by rw [ExtractUserKey_put]; exact hafter)
    change ((InternalKeyComparator c).Compare _ _).isLE = true
    rw [hbefore]
    rfl
  · refine ⟨hkey, le_rfl, ?_⟩
    have hself : (InternalKeyComparator c).Compare key key = .eq := Std.ReflCmp.compare_self
    change ((InternalKeyComparator c).Compare key key).isLE = true
    rw [hself]
    rfl

/-- The bytewise order is total, its short keys lie where they are asked for, and so do the
shortened internal keys of every comparator that keeps the same promise. -/
theorem short_keys_lie_between :
    BytewiseComparator.Lawful ∧ ∀ c : Comparator, c.Lawful →
      (∀ start limit : Slice, 8 ≤ start.length →
        (InternalKeyComparator c).Compare start limit = .lt →
        let short := (InternalKeyComparator c).FindShortestSeparator start limit
        8 ≤ short.length ∧ short.length ≤ start.length ∧
          ((InternalKeyComparator c).Compare start short).isLE ∧
          (InternalKeyComparator c).Compare short limit = .lt) ∧
      (∀ key : Slice, 8 ≤ key.length →
        let short := (InternalKeyComparator c).FindShortSuccessor key
        8 ≤ short.length ∧ short.length ≤ key.length ∧
          ((InternalKeyComparator c).Compare key short).isLE) := by
  refine ⟨bytewise_lawful, ?_⟩
  intro c h
  exact ⟨fun _ _ hstart hlt => internal_separator h hstart hlt, fun _ hkey => internal_successor h hkey⟩

end bitcoinstats.leveldb
