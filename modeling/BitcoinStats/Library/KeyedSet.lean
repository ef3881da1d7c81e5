-- Sets whose elements are told apart by a key, as hash sets are: an element
-- whose key is there already is not inserted.
import Mathlib.Tactic

namespace keyed_set

variable {α κ : Type}

/-- The elements in the order of their insertion, no two with one key. -/
structure KeyedSet (key : α → κ) where
  toList : List α
  distinct : (toList.map key).Nodup

variable {key : α → κ}

namespace KeyedSet

def empty (key : α → κ) : KeyedSet key := ⟨[], List.nodup_nil⟩

instance : Inhabited (KeyedSet key) := ⟨empty key⟩

def size (s : KeyedSet key) : Nat := s.toList.length

instance : Membership α (KeyedSet key) := ⟨fun s a => a ∈ s.toList⟩

theorem mem_def (s : KeyedSet key) (a : α) : a ∈ s ↔ a ∈ s.toList := Iff.rfl

theorem eq_of_key_eq {s : KeyedSet key} {a b : α} (ha : a ∈ s) (hb : b ∈ s) (h : key a = key b) :
    a = b := List.inj_on_of_nodup_map s.distinct ha hb h

variable [DecidableEq κ]

def lookup (s : KeyedSet key) (k : κ) : Option α := s.toList.find? (fun a => key a = k)

def insert (s : KeyedSet key) (a : α) : KeyedSet key :=
  if h : key a ∈ s.toList.map key then s
  else
    { toList := s.toList ++ [a]
      distinct := by
        rw [List.map_append, List.nodup_append]
        refine ⟨s.distinct, List.nodup_singleton _, ?_⟩
        rintro k hk k' hk' rfl
        simp only [List.map_cons, List.map_nil, List.mem_singleton] at hk'
        exact h (hk' ▸ hk) }

/-- The set after the elements of a list were inserted in order. -/
def insertAll (s : KeyedSet key) (l : List α) : KeyedSet key := l.foldl insert s

theorem lookup_eq_some {s : KeyedSet key} {k : κ} {a : α} :
    s.lookup k = some a ↔ a ∈ s ∧ key a = k := by
  constructor
  · intro h
    exact ⟨List.mem_of_find?_eq_some h, by simpa using List.find?_some h⟩
  · rintro ⟨ha, hk⟩
    rcases h : s.lookup k with _ | b
    · have hnone := List.find?_eq_none.mp h a ha
      simp [hk] at hnone
    · have hb : b ∈ s := List.mem_of_find?_eq_some h
      have hkb : key b = k := by simpa using List.find?_some h
      rw [eq_of_key_eq hb ha (hkb.trans hk.symm)]

theorem lookup_eq_none {s : KeyedSet key} {k : κ} : s.lookup k = none ↔ ∀ a ∈ s, key a ≠ k := by
  rw [lookup, List.find?_eq_none]
  simp [mem_def]

theorem mem_iff_lookup {s : KeyedSet key} {a : α} : a ∈ s ↔ s.lookup (key a) = some a := by
  rw [lookup_eq_some]
  simp

/-- The first of two elements with one key stays. -/
theorem lookup_insert (s : KeyedSet key) (a : α) (k : κ) :
    (s.insert a).lookup k = (s.lookup k).or (if key a = k then some a else none) := by
  unfold insert
  split
  · rename_i h
    obtain ⟨b, hb, hkey⟩ := List.mem_map.mp h
    by_cases hk : key a = k
    · have hfound : s.lookup k = some b := lookup_eq_some.mpr ⟨hb, hkey.trans hk⟩
      rw [hfound]
      rfl
    · simp [hk]
  · by_cases hk : key a = k
    · simp [lookup, List.find?_append, hk]
    · simp [lookup, List.find?_append, hk]

theorem mem_insert {s : KeyedSet key} {a b : α} (h : b ∈ s.insert a) : b ∈ s ∨ b = a := by
  unfold insert at h
  split at h
  · exact Or.inl h
  · rcases List.mem_append.mp h with hold | hnew
    · exact Or.inl hold
    · exact Or.inr (List.mem_singleton.mp hnew)

theorem lookup_insertAll (s : KeyedSet key) (l : List α) (k : κ) :
    (s.insertAll l).lookup k = (s.lookup k).or (l.find? (fun a => key a = k)) := by
  induction l generalizing s with
  | nil => simp [insertAll]
  | cons a l ih =>
    have hstep : s.insertAll (a :: l) = (s.insert a).insertAll l := rfl
    rw [hstep, ih, lookup_insert, Option.or_assoc, List.find?_cons]
    by_cases h : key a = k
    · simp [h]
    · simp [h]

@[simp] theorem lookup_empty (k : κ) : (empty key).lookup k = none := rfl

/-- The set holds the first element with each key. -/
theorem mem_insertAll_empty (l : List α) (a : α) :
    a ∈ (empty key).insertAll l ↔ l.find? (fun b => key b = key a) = some a := by
  rw [mem_iff_lookup, lookup_insertAll, lookup_empty, Option.none_or]

/-- When the keys are distinct, no element is left out. -/
theorem lookup_insertAll_of_nodup {l : List α} (h : (l.map key).Nodup) {k : κ} {a : α} :
    ((empty key).insertAll l).lookup k = some a ↔ a ∈ l ∧ key a = k := by
  rw [lookup_insertAll, lookup_empty, Option.none_or]
  constructor
  · intro hfind
    exact ⟨List.mem_of_find?_eq_some hfind, by simpa using List.find?_some hfind⟩
  · rintro ⟨ha, rfl⟩
    cases hfind : l.find? (fun b => key b = key a) with
    | none =>
      have hnone := List.find?_eq_none.mp hfind a ha
      simp at hnone
    | some b =>
      have hb : key b = key a := by simpa using List.find?_some hfind
      rw [List.inj_on_of_nodup_map h (List.mem_of_find?_eq_some hfind) ha hb]

theorem insertAll_append (s : KeyedSet key) (l l' : List α) :
    s.insertAll (l ++ l') = (s.insertAll l).insertAll l' := by
  rw [insertAll, List.foldl_append]
  rfl

end KeyedSet

end keyed_set
