-- Arrays whose accesses fail outside of their bounds: loads, stores, and the
-- exchange of two elements, which permutes the array.
import Mathlib.Logic.Equiv.Basic
import Mathlib.Tactic

namespace cells

variable {α : Type} {arr arr' : List α} {i j : Int} {a b : α}

def load (arr : List α) (i : Int) : Option α := if 0 ≤ i then arr[i.toNat]? else none

def store (arr : List α) (i : Int) (a : α) : Option (List α) :=
  if 0 ≤ i ∧ i < arr.length then some (arr.set i.toNat a) else none

/-- The swap of two elements through a third place. -/
def exchange (arr : List α) (i j : Int) : Option (List α) := do
  let a ← load arr i
  let b ← load arr j
  let arr ← store arr i b
  store arr j a

/-! ## Accesses within the bounds -/

/-- The index is one of the array. -/
def Within (arr : List α) (i : Int) : Prop := 0 ≤ i ∧ i < arr.length

theorem Within.toNat_lt (h : Within arr i) : i.toNat < arr.length := by
  obtain ⟨hi, hlt⟩ := h
  omega

theorem load_within (h : Within arr i) (d : α) : load arr i = some (arr.getD i.toNat d) := by
  have hlt := h.toNat_lt
  rw [load, if_pos h.1]
  simp [hlt]

theorem load_natCast {k : ℕ} (hk : k < arr.length) (hi : i = k) (d : α) :
    load arr i = some (arr.getD k d) := by
  subst hi
  exact load_within ⟨Int.natCast_nonneg k, by exact_mod_cast hk⟩ d

theorem load_eq_some (h : load arr i = some a) : Within arr i := by
  unfold load at h
  split at h
  · rename_i hi
    obtain ⟨hlt, -⟩ := List.getElem?_eq_some_iff.mp h
    exact ⟨hi, by omega⟩
  · simp at h

theorem store_within (h : Within arr i) (a : α) : store arr i a = some (arr.set i.toNat a) :=
  if_pos h

/-- The element behind a first part of the array. -/
theorem load_middle (before rest : List α) (a : α) (hi : i = before.length) :
    load (before ++ a :: rest) i = some a := by
  rw [load_natCast (by simp) hi a]
  simp [List.getD]

theorem store_middle (before rest : List α) (a b : α) (hi : i = before.length) :
    store (before ++ a :: rest) i b = some (before ++ b :: rest) := by
  rw [store_within ⟨by omega, by simp; omega⟩, hi]
  simp

/-- What the exchange leaves: a permutation of the array, with the two places
in turned order. -/
theorem exchange_within (hi : Within arr i) (hj : Within arr j) :
    ∃ arr', exchange arr i j = some arr' ∧ arr'.Perm arr ∧
      ∀ d k, arr'.getD k d = arr.getD (Equiv.swap i.toNat j.toNat k) d := by
  have hilt := hi.toNat_lt
  have hjlt := hj.toNat_lt
  have hset : ∀ b, Within (arr.set i.toNat b) j := by
    intro b
    exact ⟨hj.1, by simpa using hj.2⟩
  refine ⟨(arr.set i.toNat arr[j.toNat]).set j.toNat arr[i.toNat], ?_,
    List.set_set_perm hilt hjlt, ?_⟩
  · unfold exchange
    simp only [Option.bind_eq_bind]
    rw [load_within hi arr[i.toNat], Option.bind_some, load_within hj arr[j.toNat],
      Option.bind_some, store_within hi, Option.bind_some, store_within (hset _)]
    simp [hilt, hjlt]
  · intro d k
    rw [Equiv.swap_apply_def]
    by_cases hki : k = i.toNat
    · rw [if_pos hki, hki]
      by_cases hji : j.toNat = i.toNat
      · simp [List.getD, hji, hilt]
      · simp [List.getD, List.getElem_set_ne hji, hilt, hjlt]
    · rw [if_neg hki]
      by_cases hkj : k = j.toNat
      · simp [List.getD, hkj, hilt, hjlt]
      · rw [if_neg hkj]
        simp [List.getD, List.getElem?_set_ne (Ne.symm hkj), List.getElem?_set_ne (Ne.symm hki)]

/-! ## What lies outside of an exchange -/

variable {rest : List α}

theorem load_append (h : load arr i = some a) : load (arr ++ rest) i = some a := by
  have hwithin := load_eq_some h
  unfold load at h ⊢
  rw [if_pos hwithin.1] at h ⊢
  rw [List.getElem?_append_left hwithin.toNat_lt]
  exact h

theorem exchange_append (h : exchange arr i j = some arr') :
    exchange (arr ++ rest) i j = some (arr' ++ rest) := by
  have store_append : ∀ {l l' : List α} {i : Int} {a : α}, store l i a = some l' →
      store (l ++ rest) i a = some (l' ++ rest) := by
    intro l l' i a hstore
    unfold store at hstore
    split at hstore
    · rename_i hwithin
      obtain rfl := Option.some.inj hstore
      rw [store_within ⟨hwithin.1, by rw [List.length_append]; omega⟩, List.set_append_left]
      exact Within.toNat_lt hwithin
    · simp at hstore
  unfold exchange at h ⊢
  simp only [Option.bind_eq_bind, Option.bind_eq_some_iff] at h ⊢
  obtain ⟨a, ha, b, hb, l, hl, h⟩ := h
  exact ⟨a, load_append ha, b, load_append hb, l ++ rest, store_append hl, store_append h⟩

/-- Two arrays of one length with the same elements everywhere are one. -/
theorem eq_of_getD (hlen : arr.length = arr'.length) (h : ∀ d k, arr.getD k d = arr'.getD k d) :
    arr = arr' := by
  apply List.ext_getElem hlen
  intro k hk hk'
  have hget := h arr[k] k
  simpa [List.getD, hk, hk'] using hget

theorem drop_eq_of_getD {n : Nat} (hlen : arr.length = arr'.length)
    (h : ∀ d k, n ≤ k → arr.getD k d = arr'.getD k d) : arr.drop n = arr'.drop n := by
  apply eq_of_getD
  · rw [List.length_drop, List.length_drop, hlen]
  · intro d k
    have hget := h d (n + k) (Nat.le_add_right n k)
    simpa [List.getD] using hget

/-! ## A row of stores -/

/-- The array with the given elements from a place on. -/
def overwrite (arr : List α) (p : ℕ) (new : List α) : List α :=
  arr.take p ++ new ++ arr.drop (p + new.length)

variable {p q n : ℕ} {new : List α}

@[simp] theorem overwrite_nil (arr : List α) (p : ℕ) : overwrite arr p [] = arr := by
  simp [overwrite]

theorem overwrite_length (h : p + new.length ≤ arr.length) :
    (overwrite arr p new).length = arr.length := by
  rw [overwrite, List.length_append, List.length_append, List.length_take, List.length_drop]
  omega

/-- One more store behind the ones before. -/
theorem store_overwrite (new : List α) (h : p + new.length < arr.length)
    (hi : i = (p + new.length : ℕ)) (a : α) :
    store (overwrite arr p new) i a = some (overwrite arr p (new ++ [a])) := by
  have htake : (arr.take p ++ new).length = p + new.length := by
    rw [List.length_append, List.length_take]
    omega
  rw [store_within ⟨by omega, by rw [overwrite_length (by omega)]; omega⟩]
  congr 1
  subst hi
  rw [Int.toNat_natCast, overwrite, overwrite, List.set_append_right _ _ (by omega), htake, Nat.sub_self,
    List.drop_eq_getElem_cons h, List.set_cons_zero, List.length_append, List.length_singleton,
    ← Nat.add_assoc]
  simp

theorem drop_overwrite (h : p ≤ arr.length) :
    (overwrite arr p new).drop p = new ++ arr.drop (p + new.length) := by
  have htake : (arr.take p).length = p := by
    rw [List.length_take]
    omega
  rw [overwrite, List.append_assoc, List.drop_append_of_le_length (by omega),
    List.drop_eq_nil_of_le (by omega), List.nil_append]

/-- A part of the array that the stores do not reach. -/
theorem slice_overwrite (hp : p + new.length ≤ arr.length) (h : q + n ≤ p ∨ p + new.length ≤ q) :
    ((overwrite arr p new).drop q).take n = (arr.drop q).take n := by
  have htake : (arr.take p).length = p := by
    rw [List.length_take]
    omega
  rcases h with hbefore | hbehind
  · rw [overwrite, List.append_assoc, List.drop_append_of_le_length (by omega),
      List.take_append_of_le_length (by rw [List.length_drop]; omega), List.drop_take, List.take_take,
      Nat.min_eq_left (by omega)]
  · have hfront : (arr.take p ++ new).length = p + new.length := by
      rw [List.length_append, htake]
    rw [overwrite, List.drop_append, List.drop_eq_nil_of_le (by omega), List.nil_append, hfront,
      List.drop_drop]
    congr 2
    omega

end cells
