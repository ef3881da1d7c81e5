-- Strings in an array of characters: from a place on up to the first zero, which
-- has to be there.
import BitcoinStats.Library.Cells

namespace cells

variable {arr s rest : List UInt8} {p : Int}

/-- A string that runs out of the array is no string. -/
def stringAt (arr : List UInt8) (p : Int) : Option (List UInt8) :=
  if 0 ≤ p ∧ 0 ∈ arr.drop p.toNat then some ((arr.drop p.toNat).takeWhile (· ≠ 0)) else none

/-- The characters before the zero. -/
theorem stringAt_eq (hp : 0 ≤ p) (hs : 0 ∉ s) (h : arr.drop p.toNat = s ++ 0 :: rest) :
    stringAt arr p = some s := by
  rw [stringAt, if_pos ⟨hp, by rw [h]; simp⟩, h, List.takeWhile_append_of_pos]
  · simp
  · intro c hc
    simp only [decide_eq_true_eq]
    rintro rfl
    exact hs hc

/-- The string needs no more than the part of the array up to its zero. -/
theorem stringAt_of_take {n : ℕ} (hp : 0 ≤ p) (hs : 0 ∉ s)
    (h : (arr.drop p.toNat).take n = s ++ 0 :: rest) : stringAt arr p = some s := by
  have hsplit := List.take_append_drop n (arr.drop p.toNat)
  rw [h, List.append_assoc, List.cons_append] at hsplit
  exact stringAt_eq hp hs hsplit.symm

/-! ## A cursor in a string -/

/-- The cursor `p` stands before the characters `rest`, with the zero behind them. -/
structure At (arr : List UInt8) (p : Int) (rest : List UInt8) : Prop where
  nonneg : 0 ≤ p
  drop : arr.drop p.toNat = rest ++ [0]

theorem at_start (s : List UInt8) : At (s ++ [0]) 0 s := ⟨le_refl 0, rfl⟩

theorem At.load (h : At arr p rest) : load arr p = some (rest.headD 0) := by
  have hhead := congrArg List.head? h.drop
  rw [List.head?_drop] at hhead
  rw [cells.load, if_pos h.nonneg, hhead]
  cases rest with
  | nil => rfl
  | cons c rest => rfl

theorem At.next {c : UInt8} (h : At arr p (c :: rest)) : At arr (p + 1) rest := by
  have hnonneg := h.nonneg
  refine ⟨by omega, ?_⟩
  have hdrop := congrArg List.tail h.drop
  rw [List.tail_drop] at hdrop
  rw [show (p + 1).toNat = p.toNat + 1 by omega, hdrop]
  rfl

theorem At.length_lt (h : At arr p rest) : rest.length < arr.length := by
  have hlen := congrArg List.length h.drop
  rw [List.length_drop, List.length_append, List.length_singleton] at hlen
  omega

end cells
