-- A database of this LevelDB under `KeyValueDatabase.cpp`: the iterators of the
-- memtables and of the tables merged, and a snapshot of them walked.
import BitcoinStats.KeyValueDatabase
import BitcoinStats.LevelDB.DBIterBackward

open ordered_cursor runs

namespace bitcoinstats.leveldb

open key_value_database

/-- A position of an iterator that walks a set. -/
abbrev Position {it : Iterator} (At : it.State → Option KeyValue → Prop) := {i : it.State // ∃ o, At i o}

section

variable {S : Set KeyValue} {it : Iterator} {At : it.State → Option KeyValue → Prop}

/-- What `KeyValueDatabase` uses of such an iterator. -/
def databaseOf (h : Walks BytewiseComparator.Compare S it .OK At) (start : Position At) : LevelDB where
  Iterator := Position At
  NewIterator := start
  Seek i target := ⟨it.seek i.1 target, by
    obtain ⟨o, hat⟩ := i.2
    exact (h.seek hat target).imp fun _ => And.left⟩
  SeekToFirst i := ⟨it.seekToFirst i.1, by
    obtain ⟨o, hat⟩ := i.2
    exact (h.seekToFirst hat).imp fun _ => And.left⟩
  Valid i := it.valid i.1
  key i := it.key i.1
  value i := it.value i.1
  Next i :=
    if hvalid : it.valid i.1 = true then ⟨it.next i.1, by
      obtain ⟨o, hat⟩ := i.2
      have hsome := h.valid hat
      rw [hvalid] at hsome
      obtain ⟨e, rfl⟩ := Option.isSome_iff_exists.mp hsome.symm
      exact (h.next hat).imp fun _ => And.left⟩
    else i

/-- The entry at a position. -/
def entryAt (i : Position At) : Option KeyValue :=
  if it.valid i.1 then some (it.key i.1, it.value i.1) else none

theorem entryAt_eq (h : Walks BytewiseComparator.Compare S it .OK At) {i : Position At}
    {o : Option KeyValue} (hat : At i.1 o) : entryAt i = o := by
  have hvalid := h.valid hat
  cases o with
  | none => simp [entryAt, hvalid]
  | some e => simp [entryAt, hvalid, h.key hat, h.value hat]

theorem Compare_lt (a b : Slice) : BytewiseComparator.Compare a b = .lt ↔ a < b := by
  change Slice.compare a b = .lt ↔ a < b
  rw [Slice.compare_eq]
  induction a generalizing b with
  | nil => cases b <;> simp [List.compare_nil_cons]
  | cons x a ih =>
    cases b with
    | nil => simp [List.compare_cons_nil]
    | cons y b =>
      rw [List.compare_cons_cons, List.cons_lt_cons_iff, Ordering.then_eq_lt, ih, Std.compare_eq_lt,
        Std.compare_eq_iff_eq]

/-- An iterator that walks the entries of a sorted list walks the map that `KeyValueDatabase` sees. -/
theorem walksMap (h : Walks BytewiseComparator.Compare S it .OK At) (start : Position At)
    {l : List Entry} (hsorted : l.Pairwise (fun e e' => e.1 < e'.1)) (hS : entries l = S) :
    WalksMap (databaseOf h start) l (fun i => fromEntry BytewiseComparator.Compare l (entryAt i)) := by
  have hsorted' : Sorted BytewiseComparator.Compare l :=
    hsorted.imp fun hlt => (Compare_lt _ _).mpr hlt
  have hseek : ∀ {i : Position At} {o : Option Entry} {P : Slice → Prop} [DecidablePred P], At i.1 o →
      Upward BytewiseComparator.Compare P → Least BytewiseComparator.Compare S P o →
      fromEntry BytewiseComparator.Compare l (entryAt i) = l.filter (fun x => P x.1) := by
    intro i o P _ hat hP hleast
    rw [entryAt_eq h hat]
    exact fromEntry_least hP (hS ▸ hleast)
  have hcons : ∀ {i : Position At} {e : Entry} {rest : List Entry},
      fromEntry BytewiseComparator.Compare l (entryAt i) = e :: rest →
      At i.1 (some e) ∧ rest = l.filter (fun x => BytewiseComparator.Compare e.1 x.1 = .lt) := by
    intro i e rest hfrom
    obtain ⟨o, hat⟩ := i.2
    rw [entryAt_eq h hat] at hfrom
    cases o with
    | none => cases hfrom
    | some x =>
      have hx : x ∈ l := by
        have hmem := h.inside hat
        rw [← hS] at hmem
        exact hmem
      rw [fromEntry_cons hsorted' hx] at hfrom
      cases hfrom
      exact ⟨hat, rfl⟩
  refine
    { sorted := hsorted, valid := ?valid, seek := ?seek, seekToFirst := ?first, key := ?key,
      value := ?value, next := ?next }
  case valid =>
    intro i
    obtain ⟨o, hat⟩ := i.2
    have hvalid : (databaseOf h start).Valid i = o.isSome := h.valid hat
    rw [hvalid, entryAt_eq h hat]
    cases o with
    | none => simp [fromEntry]
    | some x =>
      have hx : x ∈ l := by
        have hmem := h.inside hat
        rw [← hS] at hmem
        exact hmem
      simp [fromEntry_cons hsorted' hx]
  case seek =>
    intro i target
    obtain ⟨o, hat⟩ := i.2
    obtain ⟨o', hat', hleast⟩ := h.seek hat target
    have hfrom := hseek (i := ((databaseOf h start).Seek i target)) hat' (upward_not_lt target) hleast
    rw [hfrom, ← dropWhile_lt hsorted' target]
    simp only [Compare_lt]
  case first =>
    intro i
    obtain ⟨o, hat⟩ := i.2
    obtain ⟨o', hat', hleast⟩ := h.seekToFirst hat
    have hfrom := hseek (i := ((databaseOf h start).SeekToFirst i)) hat' upward_true hleast
    rw [hfrom]
    simp
  case key =>
    intro i e rest hfrom
    exact h.key (hcons hfrom).1
  case value =>
    intro i e rest hfrom
    exact h.value (hcons hfrom).1
  case next =>
    intro i e rest hfrom
    obtain ⟨hat, hrest⟩ := hcons hfrom
    obtain ⟨o', hat', hleast⟩ := h.next hat
    have hvalid : it.valid i.1 = true := h.valid hat
    have hnext : ((databaseOf h start).Next i).1 = it.next i.1 := by
      simp [databaseOf, hvalid]
    rw [hseek (i := ((databaseOf h start).Next i)) (hnext ▸ hat') (upward_lt e.1) hleast, hrest]

end

end bitcoinstats.leveldb
