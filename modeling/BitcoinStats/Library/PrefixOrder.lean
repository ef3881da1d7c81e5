-- Strings in lexicographic order: the strings with a common prefix lie side by
-- side, from the first string on that is not below the prefix.
import Mathlib.Tactic

namespace prefix_order

open Std

variable {α β : Type} [LT α] [LE α] [IsLinearOrder α] [LawfulOrderLT α]

/-- What lies between a prefix and a string that starts with it starts with it too. -/
theorem prefix_of_between {p k k' : List α} (hle : p ≤ k) (hlt : k < k') (h : p <+: k') :
    p <+: k := by
  induction p generalizing k k' with
  | nil => exact List.nil_prefix
  | cons a p ih =>
    obtain ⟨tail, rfl⟩ := h
    cases k with
    | nil => exact absurd hle (by simp)
    | cons b k =>
      rw [List.cons_append, List.cons_lt_cons_iff] at hlt
      rcases List.cons_le_cons_iff.mp hle with hab | ⟨rfl, htail⟩
      · rcases hlt with hba | ⟨rfl, -⟩
        · exact absurd hba (Std.not_gt_of_lt hab)
        · exact absurd hab Std.lt_irrefl
      · rcases hlt with haa | ⟨-, hlt⟩
        · exact absurd haa Std.lt_irrefl
        · exact List.cons_prefix_cons.mpr ⟨rfl, ih htail hlt (List.prefix_append p tail)⟩

variable {key : β → List α} [DecidableEq α]

/-- The entries behind a lower bound are matched from the front on, or not at all. -/
theorem takeWhile_prefix_eq_filter {p : List α} {l : List β}
    (hsorted : l.Pairwise (fun x y => key x < key y)) (hbound : ∀ x ∈ l, p ≤ key x) :
    l.takeWhile (fun x => p <+: key x) = l.filter (fun x => p <+: key x) := by
  induction l with
  | nil => rfl
  | cons x l ih =>
    obtain ⟨hx, hl⟩ := List.pairwise_cons.mp hsorted
    have ih := ih hl (fun y hy => hbound y (List.mem_cons_of_mem x hy))
    by_cases hmatch : p <+: key x
    · simp [hmatch, ih]
    · have hnone : ∀ y ∈ l, ¬ p <+: key y := fun y hy hy' =>
        hmatch (prefix_of_between (hbound x List.mem_cons_self) (hx y hy) hy')
      simpa [hmatch] using hnone

/-- In a sorted list the entries that start with `p` are what lies in front from
the first entry on that is not below `p`, up to the first that does not match. -/
theorem prefix_entries [DecidableLT (List α)] {p : List α} {l : List β}
    (hsorted : l.Pairwise (fun x y => key x < key y)) :
    (l.dropWhile (fun x => key x < p)).takeWhile (fun x => p <+: key x) =
      l.filter (fun x => p <+: key x) := by
  induction l with
  | nil => rfl
  | cons x l ih =>
    obtain ⟨hx, hl⟩ := List.pairwise_cons.mp hsorted
    by_cases hlt : key x < p
    · have hmatch : ¬ p <+: key x := fun hmatch => hmatch.le hlt
      simp [hlt, hmatch, ih hl]
    · rw [List.dropWhile_cons_of_neg (by simpa using hlt)]
      refine takeWhile_prefix_eq_filter hsorted ?_
      intro y hy
      rcases List.mem_cons.mp hy with rfl | hy
      · exact List.not_lt.mp hlt
      · exact List.le_of_lt (List.lt_of_le_of_lt (List.not_lt.mp hlt) (hx y hy))

end prefix_order
