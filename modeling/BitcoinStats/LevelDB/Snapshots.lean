-- What a snapshot shows of a set of internal entries: of each user key the newest
-- entry that is not newer than the snapshot, unless that one is a deletion.
import BitcoinStats.LevelDB.InternalKeys
import BitcoinStats.LevelDB.MergingIterator

open ordered_cursor

namespace bitcoinstats.leveldb

/-- Entries with keys that parse, no two of them with the same key. -/
structure Versions (c : Comparator) (S : Set KeyValue) : Prop where
  parses : ∀ x ∈ S, ∃ p, ParseInternalKey x.1 = some p
  apart : Apart (InternalKeyComparator c).Compare S

/-- The snapshot at a sequence number may see the key. -/
def Seen (s : SequenceNumber) (k : Slice) : Prop := ∃ p, ParseInternalKey k = some p ∧ p.sequence ≤ s

/-- The entry is a value, and of its user key the newest that the snapshot sees. -/
structure Shows (c : Comparator) (S : Set KeyValue) (s : SequenceNumber) (x : KeyValue) : Prop where
  value : ∃ p, ParseInternalKey x.1 = some p ∧ p.type = .kTypeValue
  newest : Least (InternalKeyComparator c).Compare S
    (fun k => ExtractUserKey k = ExtractUserKey x.1 ∧ Seen s k) (some x)

/-- The user keys and values that a snapshot shows. -/
def visible (c : Comparator) (S : Set KeyValue) (s : SequenceNumber) : Set KeyValue :=
  (fun x => (ExtractUserKey x.1, x.2)) '' {x | Shows c S s x}

variable {c : Comparator} {S : Set KeyValue} {s : SequenceNumber} {x y : KeyValue}

theorem Shows.mem (h : Shows c S s x) : x ∈ S := h.newest.mem

theorem Shows.seen (h : Shows c S s x) : Seen s x.1 := h.newest.holds.2

theorem Shows.first (h : Shows c S s x) (hy : y ∈ S) (hseen : Seen s y.1)
    (huser : ExtractUserKey y.1 = ExtractUserKey x.1) :
    ((InternalKeyComparator c).Compare x.1 y.1).isLE := h.newest.2.2 y hy ⟨huser, hseen⟩

theorem Shows.not_deletion (h : Shows c S s x) {p : ParsedInternalKey} (hp : ParseInternalKey x.1 = some p) :
    p.type ≠ .kTypeDeletion := by
  obtain ⟨q, hq, htype⟩ := h.value
  rw [hp] at hq
  cases hq
  simp [htype]

/-- Keys in their order have their user keys in order. -/
theorem user_isLE {a b : Slice} (h : ((InternalKeyComparator c).Compare a b).isLE) :
    (c.Compare (ExtractUserKey a) (ExtractUserKey b)).isLE := by
  rw [InternalKeyComparator_Compare] at h
  cases hcmp : c.Compare (ExtractUserKey a) (ExtractUserKey b) <;> simp_all

theorem ParseInternalKey_user {k : Slice} {p : ParsedInternalKey} (h : ParseInternalKey k = some p) :
    ExtractUserKey k = p.user_key := by
  obtain ⟨rfl, -⟩ := ParseInternalKey_eq_some.mp h
  rw [AppendInternalKey, List.nil_append, ExtractUserKey_put]

theorem Seen_iff {k : Slice} {p : ParsedInternalKey} (h : ParseInternalKey k = some p) :
    Seen s k ↔ p.sequence ≤ s := by
  simp [Seen, h]

/-- The first entry shown in the order of the entries is the first one visible. -/
theorem visible_least {Q : Slice → Prop} (hx : Shows c S s x) (hQ : Q (ExtractUserKey x.1))
    (hmin : ∀ y, Shows c S s y → Q (ExtractUserKey y.1) →
      (c.Compare (ExtractUserKey x.1) (ExtractUserKey y.1)).isLE) :
    Least c.Compare (visible c S s) Q (some (ExtractUserKey x.1, x.2)) := by
  refine ⟨⟨x, hx, rfl⟩, hQ, ?_⟩
  rintro _ ⟨y, hy, rfl⟩ hQy
  exact hmin y hy hQy

theorem visible_greatest {Q : Slice → Prop} (hx : Shows c S s x) (hQ : Q (ExtractUserKey x.1))
    (hmax : ∀ y, Shows c S s y → Q (ExtractUserKey y.1) →
      (c.Compare (ExtractUserKey y.1) (ExtractUserKey x.1)).isLE) :
    Greatest c.Compare (visible c S s) Q (some (ExtractUserKey x.1, x.2)) := by
  refine ⟨⟨x, hx, rfl⟩, hQ, ?_⟩
  rintro _ ⟨y, hy, rfl⟩ hQy
  exact hmax y hy hQy

theorem visible_none {cmp : Slice → Slice → Ordering} {Q : Slice → Prop}
    (h : ∀ y, Shows c S s y → ¬ Q (ExtractUserKey y.1)) : Least cmp (visible c S s) Q none := by
  rintro _ ⟨y, hy, rfl⟩
  exact h y hy

end bitcoinstats.leveldb
