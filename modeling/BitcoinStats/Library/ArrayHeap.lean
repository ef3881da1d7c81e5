-- Heaps in arrays: the order of a heap, what the sift-down of a place keeps of it,
-- and the array that is sorted from its end by taking the root out again and again.
-- An array is the function of its indices, and `r a b` says that `a` is not above `b`.
import Mathlib.Logic.Equiv.Basic
import Mathlib.Tactic

namespace array_heap

variable {α : Type} {r : α → α → Prop} {f g : ℕ → α} {low n size hole c : ℕ}

/-- `c` is one of the two children of `p`. -/
def IsChild (p c : ℕ) : Prop := c = 2 * p + 1 ∨ c = 2 * p + 2

/-- No child is above its parent, for the parents from `low` on. -/
def Heaped (r : α → α → Prop) (f : ℕ → α) (low n : ℕ) : Prop :=
  ∀ p c, low ≤ p → IsChild p c → c < n → r (f c) (f p)

/-- Only the children of the hole may be above it, and they are not above its parent. -/
structure Sifting (r : α → α → Prop) (f : ℕ → α) (low n hole : ℕ) : Prop where
  others : ∀ p c, low ≤ p → p ≠ hole → IsChild p c → c < n → r (f c) (f p)
  grand : ∀ p c, low ≤ p → IsChild p hole → IsChild hole c → c < n → r (f c) (f p)

theorem IsChild.lt {p c : ℕ} (h : IsChild p c) : p < c := by
  unfold IsChild at h
  omega

theorem IsChild.parent_unique {p q c : ℕ} (h : IsChild p c) (h' : IsChild q c) : p = q := by
  unfold IsChild at h h'
  omega

/-! ## The sift-down -/

/-- A heap with one more parent is sifted from that parent. -/
theorem Heaped.sift (h : Heaped r f (low + 1) n) : Sifting r f low n low := by
  constructor
  · intro p c hp hne hc hcn
    exact h p c (by omega) hc hcn
  · intro p c hp hparent
    have hlt := hparent.lt
    omega

/-- The hole goes down to a child that no other child is above. -/
theorem Sifting.move (h : Sifting r f low n hole) (hlow : low ≤ hole) (hc : IsChild hole c)
    (hcn : c < n) (hroot : r (f hole) (f c))
    (hlargest : ∀ c', IsChild hole c' → c' < n → r (f c') (f c)) :
    Sifting r (f ∘ Equiv.swap hole c) low n c := by
  have hlt := hc.lt
  constructor
  · intro p d hp hpc hd hdn
    have hpd := hd.lt
    simp only [Function.comp_apply]
    by_cases hph : p = hole
    · subst hph
      rw [Equiv.swap_apply_left]
      by_cases hdc : d = c
      · rw [hdc, Equiv.swap_apply_right]
        exact hroot
      · rw [Equiv.swap_apply_of_ne_of_ne (by omega) hdc]
        exact hlargest d hd hdn
    · rw [Equiv.swap_apply_of_ne_of_ne hph hpc]
      by_cases hdh : d = hole
      · subst hdh
        rw [Equiv.swap_apply_left]
        exact h.grand p c hp hd hc hcn
      · have hdc : d ≠ c := by
          rintro rfl
          exact hph (hd.parent_unique hc)
        rw [Equiv.swap_apply_of_ne_of_ne hdh hdc]
        exact h.others p d hp hph hd hdn
  · intro p d hp hparent hd hdn
    obtain rfl := hparent.parent_unique hc
    have hcd := hd.lt
    simp only [Function.comp_apply]
    rw [Equiv.swap_apply_left, Equiv.swap_apply_of_ne_of_ne (by omega) (by omega)]
    exact h.others c d (by omega) (by omega) hd hdn

/-- The hole stays where none of its children is above it. -/
theorem Sifting.finish (h : Sifting r f low n hole)
    (hstop : ∀ c, IsChild hole c → c < n → r (f c) (f hole)) : Heaped r f low n := by
  intro p c hp hc hcn
  by_cases hph : p = hole
  · subst hph
    exact hstop c hc hcn
  · exact h.others p c hp hph hc hcn

/-- Nothing in a heap is above its root. -/
theorem Heaped.root (hrefl : ∀ a, r a a) (htrans : ∀ a b c, r a b → r b c → r a c)
    (h : Heaped r f 0 n) {i : ℕ} (hi : i < n) : r (f i) (f 0) := by
  induction i using Nat.strong_induction_on with
  | _ i ih =>
    by_cases hzero : i = 0
    · subst hzero
      exact hrefl _
    · have hchild : IsChild ((i - 1) / 2) i := by
        unfold IsChild
        omega
      have hlt := hchild.lt
      exact htrans _ _ _ (h _ i (Nat.zero_le _) hchild hi) (ih _ hlt (by omega))

/-! ## Rearrangements of a prefix -/

/-- The first `n` elements stand in another order, and the rest as before. -/
def Rearranged (n : ℕ) (f g : ℕ → α) : Prop :=
  ∃ σ : Equiv.Perm ℕ, g = f ∘ σ ∧ ∀ k, n ≤ k → σ k = k

theorem Rearranged.refl (n : ℕ) (f : ℕ → α) : Rearranged n f f :=
  ⟨Equiv.refl ℕ, rfl, fun _ _ => rfl⟩

theorem Rearranged.trans {e : ℕ → α} (h : Rearranged n e f) (h' : Rearranged n f g) :
    Rearranged n e g := by
  obtain ⟨σ, rfl, hσ⟩ := h
  obtain ⟨τ, rfl, hτ⟩ := h'
  refine ⟨τ.trans σ, rfl, ?_⟩
  intro k hk
  rw [Equiv.trans_apply, hτ k hk, hσ k hk]

theorem rearranged_swap (f : ℕ → α) {i j : ℕ} (hi : i < n) (hj : j < n) :
    Rearranged n f (f ∘ Equiv.swap i j) := by
  refine ⟨Equiv.swap i j, rfl, ?_⟩
  intro k hk
  exact Equiv.swap_apply_of_ne_of_ne (by omega) (by omega)

theorem Rearranged.rest (h : Rearranged n f g) {k : ℕ} (hk : n ≤ k) : g k = f k := by
  obtain ⟨σ, rfl, hσ⟩ := h
  rw [Function.comp_apply, hσ k hk]

/-- The elements of the prefix come from the prefix. -/
theorem Rearranged.origin (h : Rearranged n f g) {i : ℕ} (hi : i < n) :
    ∃ j, j < n ∧ g i = f j := by
  obtain ⟨σ, rfl, hσ⟩ := h
  refine ⟨σ i, ?_, rfl⟩
  by_contra hge
  have hfix := σ.injective (hσ (σ i) (by omega))
  omega

/-! ## The sorted end -/

/-- The first `n` elements are a heap, and from there on the array is in order,
with nothing of the heap above it. -/
structure SortedFrom (r : α → α → Prop) (f : ℕ → α) (n size : ℕ) : Prop where
  heaped : Heaped r f 0 n
  sorted : ∀ i j, n ≤ j → i < j → j < size → r (f i) (f j)

theorem Heaped.sortedFrom (h : Heaped r f 0 size) : SortedFrom r f size size := by
  refine ⟨h, ?_⟩
  intro i j hj _ hjs
  omega

/-- The root is exchanged with the last element of the heap. -/
theorem SortedFrom.exchange (h : SortedFrom r f (n + 1) size) :
    Sifting r (f ∘ Equiv.swap n 0) 0 n 0 := by
  constructor
  · intro p c hp hne hc hcn
    have hlt := hc.lt
    simp only [Function.comp_apply]
    rw [Equiv.swap_apply_of_ne_of_ne (by omega) (by omega),
      Equiv.swap_apply_of_ne_of_ne (by omega) hne]
    exact h.heaped p c hp hc (by omega)
  · intro p c _ hparent
    have hlt := hparent.lt
    omega

/-- And once the smaller heap is in order again, the end is longer by one. -/
theorem SortedFrom.extract (hrefl : ∀ a, r a a) (htrans : ∀ a b c, r a b → r b c → r a c)
    (h : SortedFrom r f (n + 1) size) (hg : Rearranged n (f ∘ Equiv.swap n 0) g)
    (hheaped : Heaped r g 0 n) : SortedFrom r g n size := by
  refine ⟨hheaped, ?_⟩
  -- what stands before the exchanged root comes from the old heap
  have hfront : ∀ i, i < n → ∃ j, j < n + 1 ∧ g i = f j := by
    intro i hi
    obtain ⟨j, hj, hgi⟩ := hg.origin hi
    refine ⟨Equiv.swap n 0 j, ?_, hgi⟩
    rw [Equiv.swap_apply_def]
    split
    · omega
    · split
      · omega
      · omega
  have hback : ∀ j, n < j → g j = f j := by
    intro j hj
    rw [hg.rest (by omega), Function.comp_apply,
      Equiv.swap_apply_of_ne_of_ne (by omega) (by omega)]
  have hroot : g n = f 0 := by
    rw [hg.rest (le_refl n), Function.comp_apply, Equiv.swap_apply_left]
  intro i j hnj hij hjs
  rcases hnj.eq_or_lt with rfl | hlt
  · obtain ⟨k, hk, hgi⟩ := hfront i hij
    rw [hgi, hroot]
    exact h.heaped.root hrefl htrans hk
  · rw [hback j hlt]
    rcases lt_trichotomy i n with hi | rfl | hi
    · obtain ⟨k, hk, hgi⟩ := hfront i hi
      rw [hgi]
      exact h.sorted k j (by omega) (by omega) hjs
    · rw [hroot]
      exact h.sorted 0 j (by omega) (by omega) hjs
    · rw [hback i hi]
      exact h.sorted i j (by omega) hij hjs

end array_heap
