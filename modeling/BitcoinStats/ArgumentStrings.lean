-- The arguments of a line while the scanner is in it: which ones are complete, and
-- the one whose text goes on.
import BitcoinStats.LineScanner

open cells

namespace bitcoinstats.inparser

open SeparatorType

/-- Neither a soft nor a hard separator. -/
def inWord (p : InPlaceParser) (c : UInt8) : Bool := p.kind c ≠ ST_SOFT ∧ p.kind c ≠ ST_HARD

/-- The strings of the arguments, whatever the memory is behind `done`. -/
def Reading (p : InPlaceParser) (done : List UInt8) (args : List Argument)
    (strings : List (Option (List UInt8))) : Prop :=
  ∀ rest, args.map (Argument.string p (done ++ rest)) = strings

/-- The last argument is the text `w` so far, up to the end of `done`. -/
structure Open (p : InPlaceParser) (done : List UInt8) (args : List Argument)
    (strings : List (Option (List UInt8))) (w : List UInt8) : Prop where
  split : ∃ closed k, args = closed ++ [.line (k : ℕ)] ∧ k ≤ done.length ∧ done.drop k = w ∧
    Reading p done closed strings
  noZero : 0 ∉ w

variable {p : InPlaceParser} {done w : List UInt8} {args : List Argument}
  {strings : List (Option (List UInt8))} {c : UInt8}

theorem Reading.snoc (h : Reading p done args strings) (c : UInt8) :
    Reading p (done ++ [c]) args strings := by
  intro rest
  rw [List.append_assoc]
  exact h _

/-- A hard separator is an argument that no place of the line is part of. -/
theorem Reading.hard (h : Reading p done args strings) (c : UInt8) :
    Reading p done (args ++ [hardString c]) (strings ++ [(hardString c).string p []]) := by
  intro rest
  rw [List.map_append, h rest]
  rfl

/-- An argument begins behind `done`. -/
theorem Reading.begin (h : Reading p done args strings) :
    Open p done (args ++ [.line (done.length : ℕ)]) strings [] :=
  ⟨⟨args, done.length, rfl, le_refl _, List.drop_length, h⟩, List.not_mem_nil⟩

theorem Open.snoc (h : Open p done args strings w) (hc : c ≠ 0) :
    Open p (done ++ [c]) args strings (w ++ [c]) := by
  obtain ⟨closed, k, rfl, hk, hdrop, hclosed⟩ := h.split
  refine ⟨⟨closed, k, rfl, by simp; omega, ?_, hclosed.snoc c⟩, ?_⟩
  · rw [List.drop_append_of_le_length hk, hdrop]
  · have hzero := h.noZero
    simp [hzero, Ne.symm hc]

/-- The strings when the text goes on up to a zero. -/
theorem Open.read (h : Open p done args strings w) {more : List UInt8} (hmore : 0 ∉ more)
    (after : List UInt8) :
    args.map (Argument.string p (done ++ (more ++ 0 :: after))) = strings ++ [some (w ++ more)] := by
  obtain ⟨closed, k, rfl, hk, hdrop, hclosed⟩ := h.split
  have htext : (done ++ (more ++ 0 :: after)).drop (k : Int).toNat = w ++ more ++ 0 :: after := by
    rw [Int.toNat_natCast, List.drop_append_of_le_length hk, hdrop, List.append_assoc]
  have hzero : 0 ∉ w ++ more := by
    have hw := h.noZero
    simp [hw, hmore]
  have hstring : Argument.string p (done ++ (more ++ 0 :: after)) (.line (k : ℕ)) =
      some (w ++ more) := stringAt_eq (Int.natCast_nonneg k) hzero htext
  rw [List.map_append, hclosed, List.map_singleton, hstring]

/-- With a zero behind it the argument is its text. -/
theorem Open.close (h : Open p done args strings w) :
    Reading p (done ++ [0]) args (strings ++ [some w]) := by
  intro rest
  have hread := h.read List.not_mem_nil rest
  rw [List.append_nil] at hread
  rw [List.append_assoc]
  exact hread

end bitcoinstats.inparser
