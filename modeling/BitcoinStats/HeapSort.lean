-- The sort of `HeapSort.h`: the heap that `heapify` builds from the middle down,
-- and the extraction loop that sorts the array from its end.
import BitcoinStats.Library.ArrayHeap
import BitcoinStats.Library.Cells

open array_heap cells

namespace bitcoinstats.heapsort

variable {α : Type}

/-! ## The three functions -/

/-- A result of `int32_t` arithmetic, which must not overflow. -/
def int32 (x : Int) : Option Int := if -2 ^ 31 ≤ x ∧ x < 2 ^ 31 then some x else none

/-- The largest of the root and its children that are within `high`. -/
def largest (compare : α → α → Int) (arr : List α) (root leftChild rightChild high : Int) :
    Option Int := do
  let swapIdx := root
  let p1 ← load arr swapIdx
  let p2 ← load arr leftChild
  let swapIdx := if compare p1 p2 < 0 then leftChild else swapIdx
  if rightChild ≤ high then
    let p1 ← load arr swapIdx
    let p2 ← load arr rightChild
    return if compare p1 p2 < 0 then rightChild else swapIdx
  else return swapIdx

def shiftRightLoop (compare : α → α → Int) : Nat → List α → Int → Int → Option (List α)
  | 0, _, _, _ => none
  | fuel + 1, arr, root, high => do
    let twice ← int32 (root * 2)
    let leftChild ← int32 (twice + 1)
    if leftChild ≤ high then
      let rightChild ← int32 (leftChild + 1)
      let swapIdx ← largest compare arr root leftChild rightChild high
      if swapIdx ≠ root then
        let arr ← exchange arr root swapIdx
        shiftRightLoop compare fuel arr swapIdx high
      else return arr
    else return arr

/-- The root grows with each turn, so it passes `high` within the given turns. -/
def shiftRight (compare : α → α → Int) (arr : List α) (low high : Int) : Option (List α) :=
  shiftRightLoop compare (high - low + 2).toNat arr low high

def heapifyLoop (compare : α → α → Int) : Nat → List α → Int → Int → Option (List α)
  | 0, _, _, _ => none
  | fuel + 1, arr, midIdx, high =>
    if 0 ≤ midIdx then do
      let arr ← shiftRight compare arr midIdx high
      heapifyLoop compare fuel arr (midIdx - 1) high
    else some arr

/-- The division is the truncating one. -/
def heapify (compare : α → α → Int) (arr : List α) (low high : Int) : Option (List α) := do
  let difference ← int32 (high - low)
  let difference ← int32 (difference - 1)
  let midIdx := difference.tdiv 2
  heapifyLoop compare (midIdx + 2).toNat arr midIdx high

def extractLoop (compare : α → α → Int) : Nat → List α → Int → Option (List α)
  | 0, _, _ => none
  | fuel + 1, arr, high =>
    if 0 < high then do
      let arr ← exchange arr high 0
      let high := high - 1
      let arr ← shiftRight compare arr 0 high
      extractLoop compare fuel arr high
    else some arr

def heapSort (compare : α → α → Int) (arr : List α) (size : Int) : Option (List α) := do
  let arr ← heapify compare arr 0 (size - 1)
  let high := size - 1
  extractLoop compare (high + 2).toNat arr high

/-! ## The rest of the memory takes no part -/

variable {compare : α → α → Int} {arr arr' rest : List α}

theorem largest_append {root leftChild rightChild high i : Int}
    (h : largest compare arr root leftChild rightChild high = some i) :
    largest compare (arr ++ rest) root leftChild rightChild high = some i := by
  unfold largest at h ⊢
  simp only [Option.bind_eq_bind, Option.bind_eq_some_iff] at h ⊢
  obtain ⟨p1, h1, p2, h2, h⟩ := h
  refine ⟨p1, load_append h1, p2, load_append h2, ?_⟩
  by_cases hright : rightChild ≤ high
  · simp only [if_pos hright, Option.bind_eq_some_iff] at h ⊢
    obtain ⟨q1, h3, q2, h4, h⟩ := h
    exact ⟨q1, load_append h3, q2, load_append h4, h⟩
  · simpa only [if_neg hright] using h

theorem shiftRightLoop_append {fuel : Nat} {root high : Int}
    (h : shiftRightLoop compare fuel arr root high = some arr') :
    shiftRightLoop compare fuel (arr ++ rest) root high = some (arr' ++ rest) := by
  induction fuel generalizing arr root with
  | zero => simp [shiftRightLoop] at h
  | succ fuel ih =>
    unfold shiftRightLoop at h ⊢
    simp only [Option.bind_eq_bind, Option.bind_eq_some_iff] at h ⊢
    obtain ⟨twice, h1, leftChild, h2, h⟩ := h
    refine ⟨twice, h1, leftChild, h2, ?_⟩
    by_cases hleft : leftChild ≤ high
    · simp only [if_pos hleft, Option.bind_eq_some_iff] at h ⊢
      obtain ⟨rightChild, h3, swapIdx, h4, h⟩ := h
      refine ⟨rightChild, h3, swapIdx, largest_append h4, ?_⟩
      by_cases hswap : swapIdx ≠ root
      · simp only [if_pos hswap, Option.bind_eq_some_iff] at h ⊢
        obtain ⟨arr1, h5, h⟩ := h
        exact ⟨arr1 ++ rest, exchange_append h5, ih h⟩
      · simp only [if_neg hswap] at h ⊢
        obtain rfl := Option.some.inj h
        rfl
    · simp only [if_neg hleft] at h ⊢
      obtain rfl := Option.some.inj h
      rfl

theorem heapifyLoop_append {fuel : Nat} {midIdx high : Int}
    (h : heapifyLoop compare fuel arr midIdx high = some arr') :
    heapifyLoop compare fuel (arr ++ rest) midIdx high = some (arr' ++ rest) := by
  induction fuel generalizing arr midIdx with
  | zero => simp [heapifyLoop] at h
  | succ fuel ih =>
    unfold heapifyLoop at h ⊢
    split at h
    · rename_i hmid
      simp only [if_pos hmid, Option.bind_eq_bind, Option.bind_eq_some_iff] at h ⊢
      obtain ⟨arr1, h1, h⟩ := h
      exact ⟨arr1 ++ rest, shiftRightLoop_append h1, ih h⟩
    · rename_i hmid
      obtain rfl := Option.some.inj h
      rw [if_neg hmid]

theorem extractLoop_append {fuel : Nat} {high : Int}
    (h : extractLoop compare fuel arr high = some arr') :
    extractLoop compare fuel (arr ++ rest) high = some (arr' ++ rest) := by
  induction fuel generalizing arr high with
  | zero => simp [extractLoop] at h
  | succ fuel ih =>
    unfold extractLoop at h ⊢
    split at h
    · rename_i hhigh
      simp only [if_pos hhigh, Option.bind_eq_bind, Option.bind_eq_some_iff] at h ⊢
      obtain ⟨arr1, h1, arr2, h2, h⟩ := h
      exact ⟨arr1 ++ rest, exchange_append h1, arr2 ++ rest, shiftRightLoop_append h2, ih h⟩
    · rename_i hhigh
      obtain rfl := Option.some.inj h
      rw [if_neg hhigh]

/-- A sort that stays within an array does the same with more memory behind it. -/
theorem heapSort_append (rest : List α) {size : Int} (h : heapSort compare arr size = some arr') :
    heapSort compare (arr ++ rest) size = some (arr' ++ rest) := by
  unfold heapSort heapify at h ⊢
  simp only [Option.bind_eq_bind, Option.bind_eq_some_iff] at h ⊢
  obtain ⟨arr1, ⟨d1, h1, d2, h2, h3⟩, h⟩ := h
  exact ⟨arr1 ++ rest, ⟨d1, h1, d2, h2, heapifyLoop_append h3⟩, extractLoop_append h⟩

/-! ## The sift-down of a place -/

/-- A total preorder, as -1, 0 and 1: less, equal and greater. -/
structure ComparesPreorder (compare : α → α → Int) : Prop where
  turned : ∀ a b, compare a b < 0 ↔ 0 < compare b a
  trans : ∀ a b c, compare a b ≤ 0 → compare b c ≤ 0 → compare a c ≤ 0

def AtMost (compare : α → α → Int) (a b : α) : Prop := compare a b ≤ 0

theorem ComparesPreorder.refl (hc : ComparesPreorder compare) (a : α) : AtMost compare a a := by
  by_contra hgt
  unfold AtMost at hgt
  have hlt := (hc.turned a a).mpr (by omega)
  omega

theorem AtMost.of_lt {a b : α} (h : compare a b < 0) : AtMost compare a b := by
  unfold AtMost
  omega

theorem ComparesPreorder.of_not_lt (hc : ComparesPreorder compare) {a b : α}
    (h : ¬ compare a b < 0) : AtMost compare b a := by
  unfold AtMost
  by_contra hgt
  exact h ((hc.turned a b).mpr (by omega))

/-- The elements by index, with `d` behind the end. -/
def elements (d : α) (arr : List α) : ℕ → α := fun k => arr.getD k d

theorem elements_exchange {i j : ℕ} (hi : i < arr.length) (hj : j < arr.length) :
    ∃ arr', exchange arr i j = some arr' ∧ arr'.Perm arr ∧
      ∀ d, elements d arr' = elements d arr ∘ Equiv.swap i j := by
  have hwithin : ∀ k : ℕ, k < arr.length → Within arr k := by
    intro k hk
    exact ⟨Int.natCast_nonneg k, by exact_mod_cast hk⟩
  obtain ⟨arr', hrun, hperm, hget⟩ := exchange_within (hwithin i hi) (hwithin j hj)
  refine ⟨arr', hrun, hperm, ?_⟩
  intro d
  funext k
  exact hget d k

theorem int32_eq {x : Int} (h : -2 ^ 31 ≤ x) (h' : x < 2 ^ 31) : int32 x = some x := if_pos ⟨h, h'⟩

variable {d : α} {low n root : ℕ}

theorem largest_spec (hc : ComparesPreorder compare) (d : α) (hleft : 2 * root + 1 < n)
    (hn : n ≤ arr.length) :
    ∃ c : ℕ, largest compare arr root (root * 2 + 1) (root * 2 + 1 + 1) (n - 1) = some (c : Int) ∧
      (c = root ∨ IsChild root c) ∧ c < n ∧
      AtMost compare (elements d arr root) (elements d arr c) ∧
      ∀ c', IsChild root c' → c' < n →
        AtMost compare (elements d arr c') (elements d arr c) := by
  have hroot : load arr root = some (elements d arr root) :=
    load_natCast (by omega) rfl d
  have hload : load arr (root * 2 + 1) = some (elements d arr (2 * root + 1)) :=
    load_natCast (by omega) (by push_cast; ring) d
  -- the larger of the root and the left child
  obtain ⟨c1, hc1, hkind1, hlt1, hroot1, hleft1⟩ : ∃ c1 : ℕ,
      (if compare (elements d arr root) (elements d arr (2 * root + 1)) < 0 then
        ((root : Int) * 2 + 1) else root) = c1 ∧ (c1 = root ∨ c1 = 2 * root + 1) ∧ c1 < n ∧
      AtMost compare (elements d arr root) (elements d arr c1) ∧
      AtMost compare (elements d arr (2 * root + 1)) (elements d arr c1) := by
    by_cases hless : compare (elements d arr root) (elements d arr (2 * root + 1)) < 0
    · refine ⟨2 * root + 1, ?_, Or.inr rfl, hleft, AtMost.of_lt hless, hc.refl _⟩
      rw [if_pos hless]
      push_cast
      ring
    · exact ⟨root, if_neg hless, Or.inl rfl, by omega, hc.refl _, hc.of_not_lt hless⟩
  have hload1 : load arr c1 = some (elements d arr c1) := load_natCast (by omega) rfl d
  unfold largest
  simp only [Option.bind_eq_bind]
  rw [hroot, Option.bind_some, hload, Option.bind_some, hc1]
  by_cases hright : 2 * root + 2 < n
  · have hload2 : load arr (root * 2 + 1 + 1) = some (elements d arr (2 * root + 2)) :=
      load_natCast (by omega) (by push_cast; ring) d
    rw [if_pos (by omega), hload1, Option.bind_some, hload2, Option.bind_some]
    by_cases hless : compare (elements d arr c1) (elements d arr (2 * root + 2)) < 0
    · refine ⟨2 * root + 2, ?_, Or.inr (Or.inr rfl), hright, ?_, ?_⟩
      · rw [if_pos hless]
        push_cast
        ring_nf
        rfl
      · exact hc.trans _ _ _ hroot1 (AtMost.of_lt hless)
      · rintro c' (rfl | rfl) hlt
        · exact hc.trans _ _ _ hleft1 (AtMost.of_lt hless)
        · exact hc.refl _
    · refine ⟨c1, ?_, hkind1.imp_right Or.inl, hlt1, hroot1, ?_⟩
      · rw [if_neg hless]
        rfl
      · rintro c' (rfl | rfl) hlt
        · exact hleft1
        · exact hc.of_not_lt hless
  · rw [if_neg (by omega)]
    refine ⟨c1, rfl, hkind1.imp_right Or.inl, hlt1, hroot1, ?_⟩
    rintro c' (rfl | rfl) hlt
    · exact hleft1
    · omega

/-- The loop permutes the first `n` elements, until the hole is filled. -/
theorem shiftRightLoop_spec (hc : ComparesPreorder compare) (d : α) {fuel : ℕ} (hroot : root < n)
    (hn : n ≤ arr.length) (hsize : n ≤ 2 ^ 30) (hfuel : n < root + fuel) (hlow : low ≤ root)
    (hsift : Sifting (AtMost compare) (elements d arr) low n root) :
    ∃ arr', shiftRightLoop compare fuel arr root (n - 1) = some arr' ∧ arr'.Perm arr ∧
      (∀ d', Rearranged n (elements d' arr) (elements d' arr')) ∧
      Heaped (AtMost compare) (elements d arr') low n := by
  induction fuel generalizing arr root with
  | zero => omega
  | succ fuel ih =>
    unfold shiftRightLoop
    simp only [Option.bind_eq_bind]
    rw [int32_eq (by omega) (by omega), Option.bind_some, int32_eq (by omega) (by omega),
      Option.bind_some]
    by_cases hleft : 2 * root + 1 < n
    · rw [if_pos (by omega), int32_eq (by omega) (by omega), Option.bind_some]
      obtain ⟨c, hlargest, hkind, hcn, hrootc, hmax⟩ := largest_spec hc d hleft hn
      rw [hlargest, Option.bind_some]
      rcases hkind with rfl | hchild
      · rw [if_neg (by simp)]
        exact ⟨arr, rfl, List.Perm.refl _, fun d' => Rearranged.refl _ _, hsift.finish hmax⟩
      · have hgt := hchild.lt
        obtain ⟨arr1, hexchange, hperm1, helements⟩ :=
          elements_exchange (show root < arr.length by omega) (show c < arr.length by omega)
        rw [if_pos (by omega), hexchange, Option.bind_some]
        obtain ⟨arr', hrun, hperm, hre, hheaped⟩ :=
          @ih arr1 c hcn (by rw [hperm1.length_eq]; omega) (by omega) (by omega)
            (by rw [helements]; exact hsift.move hlow hchild hcn hrootc hmax)
        refine ⟨arr', hrun, hperm.trans hperm1, ?_, hheaped⟩
        intro d'
        have hswap := rearranged_swap (elements d' arr) hroot hcn
        rw [← helements] at hswap
        exact hswap.trans (hre d')
    · rw [if_neg (by omega)]
      refine ⟨arr, rfl, List.Perm.refl _, fun d' => Rearranged.refl _ _, hsift.finish ?_⟩
      intro c hchild hcn
      unfold IsChild at hchild
      omega

theorem shiftRight_spec (hc : ComparesPreorder compare) (d : α) (hroot : root < n)
    (hn : n ≤ arr.length) (hsize : n ≤ 2 ^ 30)
    (hsift : Sifting (AtMost compare) (elements d arr) root n root) :
    ∃ arr', shiftRight compare arr root (n - 1) = some arr' ∧ arr'.Perm arr ∧
      (∀ d', Rearranged n (elements d' arr) (elements d' arr')) ∧
      Heaped (AtMost compare) (elements d arr') root n :=
  shiftRightLoop_spec hc d hroot hn hsize (by omega) (le_refl _) hsift

/-! ## The heap, and the sorted array -/

theorem heapifyLoop_spec (hc : ComparesPreorder compare) (d : α) {fuel m : ℕ} (hm : m ≤ n)
    (hn : n ≤ arr.length) (hsize : n ≤ 2 ^ 30) (hfuel : m < fuel)
    (hheaped : Heaped (AtMost compare) (elements d arr) m n) :
    ∃ arr', heapifyLoop compare fuel arr (m - 1) (n - 1) = some arr' ∧ arr'.Perm arr ∧
      Heaped (AtMost compare) (elements d arr') 0 n := by
  induction fuel generalizing arr m with
  | zero => omega
  | succ fuel ih =>
    unfold heapifyLoop
    cases m with
    | zero =>
      rw [if_neg (by omega)]
      exact ⟨arr, rfl, List.Perm.refl _, hheaped⟩
    | succ m =>
      have hmid : ((m + 1 : ℕ) : Int) - 1 = m := by omega
      obtain ⟨arr1, hshift, hperm1, -, hheaped1⟩ :=
        shiftRight_spec hc d (show m < n by omega) hn hsize hheaped.sift
      obtain ⟨arr', hrun, hperm, hheaped'⟩ :=
        @ih arr1 m (by omega) (by rw [hperm1.length_eq]; omega) (by omega) hheaped1
      simp only [Option.bind_eq_bind]
      rw [hmid, if_pos (by omega), hshift, Option.bind_some]
      exact ⟨arr', hrun, hperm.trans hperm1, hheaped'⟩

/-- The middle is the last parent, also where the division cuts off a negative
number. -/
theorem heapify_spec (hc : ComparesPreorder compare) (d : α) (hn : n ≤ arr.length)
    (hsize : n ≤ 2 ^ 30) :
    ∃ arr', heapify compare arr 0 (n - 1) = some arr' ∧ arr'.Perm arr ∧
      Heaped (AtMost compare) (elements d arr') 0 n := by
  obtain ⟨m, hmid, hm, hparents⟩ : ∃ m : ℕ, ((n : Int) - 1 - 0 - 1).tdiv 2 = m - 1 ∧ m ≤ n ∧
      n ≤ 2 * m + 1 := by
    rcases Nat.lt_or_ge n 2 with hsmall | hlarge
    · refine ⟨n, ?_, le_refl n, by omega⟩
      interval_cases n
      · rfl
      · rfl
    · refine ⟨n / 2, ?_, by omega, by omega⟩
      rw [Int.tdiv_eq_ediv_of_nonneg (by omega)]
      omega
  have hheaped : Heaped (AtMost compare) (elements d arr) m n := by
    intro p c hp hchild hcn
    unfold IsChild at hchild
    omega
  obtain ⟨arr', hrun, hperm, hheaped'⟩ :=
    heapifyLoop_spec hc d hm hn hsize (Nat.lt_succ_self m) hheaped
  refine ⟨arr', ?_, hperm, hheaped'⟩
  unfold heapify
  simp only [Option.bind_eq_bind]
  rw [int32_eq (by omega) (by omega), Option.bind_some, int32_eq (by omega) (by omega),
    Option.bind_some, hmid, show ((m : Int) - 1 + 2).toNat = m + 1 by omega]
  exact hrun

theorem extractLoop_spec (hc : ComparesPreorder compare) (d : α) {fuel size : ℕ}
    (hn : n < arr.length) (hsize : n < 2 ^ 30) (hfuel : n < fuel)
    (hsorted : SortedFrom (AtMost compare) (elements d arr) (n + 1) size) :
    ∃ arr', extractLoop compare fuel arr n = some arr' ∧ arr'.Perm arr ∧
      SortedFrom (AtMost compare) (elements d arr') 1 size := by
  induction fuel generalizing arr n with
  | zero => omega
  | succ fuel ih =>
    unfold extractLoop
    cases n with
    | zero =>
      rw [if_neg (by simp)]
      exact ⟨arr, rfl, List.Perm.refl _, hsorted⟩
    | succ n =>
      obtain ⟨arr1, hexchange, hperm1, helements⟩ :=
        elements_exchange hn (show 0 < arr.length by omega)
      have hlen1 := hperm1.length_eq
      obtain ⟨arr2, hshift, hperm2, hre, hheaped⟩ :=
        shiftRight_spec hc d (show 0 < n + 1 by omega) (show n + 1 ≤ arr1.length by omega) (by omega)
          (by rw [helements]; exact hsorted.exchange)
      have hlen2 := hperm2.length_eq
      have hre' := hre d
      rw [helements] at hre'
      obtain ⟨arr', hrun, hperm, hsorted'⟩ :=
        @ih arr2 n (by omega) (by omega) (by omega)
          (hsorted.extract hc.refl hc.trans hre' hheaped)
      have hhigh : ((n + 1 : ℕ) : Int) - 1 = n := by omega
      rw [Nat.cast_zero] at hexchange hshift
      simp only [Option.bind_eq_bind]
      rw [if_pos (by omega), hexchange, Option.bind_some, hshift, Option.bind_some, hhigh]
      exact ⟨arr', hrun, hperm.trans (hperm2.trans hperm1), hsorted'⟩

theorem pairwise_of_sortedFrom {d : α} (h : SortedFrom (AtMost compare) (elements d arr) 1 arr.length) :
    arr.Pairwise (AtMost compare) := by
  rw [List.pairwise_iff_getElem]
  intro i j hi hj hij
  have hle := h.sorted i j (by omega) hij hj
  unfold elements at hle
  simpa [List.getD, hi, hj] using hle

/-- The sort of the elements themselves, where every other access fails. -/
theorem heapSort_whole (hc : ComparesPreorder compare) (arr : List α) (hsize : arr.length ≤ 2 ^ 30) :
    ∃ sorted, heapSort compare arr arr.length = some sorted ∧ sorted.Perm arr ∧
      sorted.Pairwise (AtMost compare) := by
  cases arr with
  | nil => exact ⟨[], rfl, List.Perm.refl _, List.Pairwise.nil⟩
  | cons d tail =>
    obtain ⟨n, hn⟩ : ∃ n, (d :: tail).length = n + 1 := ⟨tail.length, rfl⟩
    generalize d :: tail = arr at hn hsize
    obtain ⟨arr1, hheapify, hperm1, hheaped⟩ := heapify_spec hc d (le_refl arr.length) hsize
    have hlen1 := hperm1.length_eq
    rw [hn] at hheaped hheapify
    obtain ⟨sorted, hextract, hperm, hsorted⟩ :=
      extractLoop_spec hc d (show n < arr1.length by omega) (by omega) (show n < n + 2 by omega)
        hheaped.sortedFrom
    have hhigh : ((n + 1 : ℕ) : Int) - 1 = n := by omega
    have hlen : sorted.length = n + 1 := by rw [hperm.length_eq, hlen1, hn]
    rw [← hlen] at hsorted
    refine ⟨sorted, ?_, hperm.trans hperm1, pairwise_of_sortedFrom hsorted⟩
    unfold heapSort
    simp only [Option.bind_eq_bind]
    rw [hn, hheapify, Option.bind_some, hhigh]
    exact hextract

/-- The sort stays within the first `size` elements: they alone are enough for
it, and with the rest of the memory behind them it does the same. -/
theorem heapSort_sorts (hc : ComparesPreorder compare) (arr : List α) (size : Int)
    (hnonneg : 0 ≤ size) (hsize : size ≤ 2 ^ 30) (hlen : size ≤ arr.length) :
    ∃ sorted, heapSort compare (arr.take size.toNat) size = some sorted ∧
      heapSort compare arr size = some (sorted ++ arr.drop size.toNat) ∧
      sorted.Perm (arr.take size.toNat) ∧ sorted.Pairwise (AtMost compare) := by
  have htake : ((arr.take size.toNat).length : Int) = size := by
    rw [List.length_take]
    omega
  obtain ⟨sorted, hrun, hperm, hsorted⟩ := heapSort_whole hc (arr.take size.toNat) (by omega)
  rw [htake] at hrun
  refine ⟨sorted, hrun, ?_, hperm, hsorted⟩
  have hframe := heapSort_append (arr.drop size.toNat) hrun
  rwa [List.take_append_drop] at hframe

/-- Three numbers, with a fourth behind them. -/
theorem three_of_four_sorted :
    ∃ sorted, heapSort (fun a b : Int => a - b) ([3, 1, 2, 0].take (3 : Int).toNat) 3 = some sorted ∧
      heapSort (fun a b : Int => a - b) [3, 1, 2, 0] 3 =
        some (sorted ++ [3, 1, 2, 0].drop (3 : Int).toNat) ∧
      sorted.Perm ([3, 1, 2, 0].take (3 : Int).toNat) ∧
      sorted.Pairwise (AtMost (fun a b : Int => a - b)) :=
  heapSort_sorts ⟨by intro a b; omega, by intro a b c; omega⟩ [3, 1, 2, 0] 3 (by decide)
    (by decide) (by decide)

end bitcoinstats.heapsort
