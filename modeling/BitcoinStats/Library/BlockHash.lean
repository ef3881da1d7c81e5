-- Iterated hash functions: the whole blocks of a message folded from a start
-- state, a message that comes in pieces, and where two equal results collide.
import Mathlib.Data.List.Infix
import Mathlib.Tactic

namespace block_hash

variable {σ β : Type} {n : ℕ}

/-! ## The whole blocks of a message -/

/-- The first `k` blocks of `n` elements. -/
def chunks (n : ℕ) : ℕ → List β → List (List β)
  | 0, _ => []
  | k + 1, message => message.take n :: chunks n k (message.drop n)

/-- The whole blocks at the start of a message. -/
def blocks (n : ℕ) (message : List β) : List (List β) := chunks n (message.length / n) message

/-- What is left behind the last whole block. -/
def remainder (n : ℕ) (message : List β) : List β := message.drop (n * (message.length / n))

theorem chunks_append (k : ℕ) (xs ys : List β) (h : n * k ≤ xs.length) :
    chunks n k (xs ++ ys) = chunks n k xs := by
  induction k generalizing xs with
  | zero => rfl
  | succ k ih =>
    rw [Nat.mul_succ] at h
    have hrest : n * k ≤ (xs.drop n).length := by
      rw [List.length_drop]
      omega
    rw [chunks, chunks, List.take_append_of_le_length (by omega),
      List.drop_append_of_le_length (by omega), ih _ hrest]

theorem chunks_add (j k : ℕ) (xs : List β) :
    chunks n (j + k) xs = chunks n j xs ++ chunks n k (xs.drop (n * j)) := by
  induction j generalizing xs with
  | zero => simp [chunks]
  | succ j ih =>
    rw [show j + 1 + k = (j + k) + 1 by omega, chunks, chunks, ih, List.drop_drop, List.cons_append,
      Nat.mul_succ, Nat.add_comm]

theorem length_remainder (xs : List β) : (remainder n xs).length = xs.length % n := by
  have h := Nat.div_add_mod xs.length n
  rw [remainder, List.length_drop]
  omega

theorem remainder_lt (hn : 0 < n) (xs : List β) : (remainder n xs).length < n := by
  rw [length_remainder]
  exact Nat.mod_lt _ hn

theorem length_div_append (hn : 0 < n) (xs ys : List β) :
    (xs ++ ys).length / n = xs.length / n + (remainder n xs ++ ys).length / n := by
  have h := Nat.div_add_mod xs.length n
  rw [List.length_append, List.length_append, length_remainder]
  conv_lhs => rw [← h]
  rw [Nat.add_assoc, Nat.mul_add_div hn]

theorem drop_append_remainder (xs ys : List β) :
    (xs ++ ys).drop (n * (xs.length / n)) = remainder n xs ++ ys := by
  rw [List.drop_append_of_le_length (Nat.mul_div_le _ _), remainder]

/-- A message in two pieces: the second one goes behind the remainder of the first. -/
theorem blocks_append (hn : 0 < n) (xs ys : List β) :
    blocks n (xs ++ ys) = blocks n xs ++ blocks n (remainder n xs ++ ys) := by
  rw [blocks, length_div_append hn, chunks_add, chunks_append _ _ _ (Nat.mul_div_le _ _),
    drop_append_remainder]
  rfl

theorem remainder_append (hn : 0 < n) (xs ys : List β) :
    remainder n (xs ++ ys) = remainder n (remainder n xs ++ ys) := by
  rw [remainder, length_div_append hn, Nat.mul_add, ← List.drop_drop, drop_append_remainder]
  rfl

theorem blocks_of_lt {xs : List β} (h : xs.length < n) : blocks n xs = [] := by
  rw [blocks, Nat.div_eq_of_lt h]
  rfl

theorem remainder_of_lt {xs : List β} (h : xs.length < n) : remainder n xs = xs := by
  rw [remainder, Nat.div_eq_of_lt h]
  simp

theorem blocks_of_le (hn : 0 < n) {xs : List β} (h : n ≤ xs.length) :
    blocks n xs = xs.take n :: blocks n (xs.drop n) := by
  rw [blocks, blocks, List.length_drop, Nat.div_eq_sub_div hn h]
  rfl

theorem remainder_of_le (hn : 0 < n) {xs : List β} (h : n ≤ xs.length) :
    remainder n xs = remainder n (xs.drop n) := by
  rw [remainder, remainder, List.length_drop, List.drop_drop, Nat.div_eq_sub_div hn h]
  congr 1
  ring

theorem blocks_block (hn : 0 < n) {xs : List β} (h : xs.length = n) : blocks n xs = [xs] := by
  rw [blocks_of_le hn h.ge, List.take_of_length_le h.le, List.drop_eq_nil_of_le h.le,
    blocks_of_lt (by simpa using hn)]

theorem length_of_mem_blocks (hn : 0 < n) {xs b : List β} (h : b ∈ blocks n xs) : b.length = n := by
  induction hl : xs.length using Nat.strong_induction_on generalizing xs with
  | _ len ih =>
    by_cases hlt : xs.length < n
    · rw [blocks_of_lt hlt] at h
      exact absurd h List.not_mem_nil
    · rw [blocks_of_le hn (by omega), List.mem_cons] at h
      rcases h with rfl | h
      · rw [List.length_take]
        omega
      · exact ih (xs.drop n).length (by rw [List.length_drop]; omega) h rfl

/-- The blocks and what is left are the message. -/
theorem flatten_blocks (hn : 0 < n) (xs : List β) :
    (blocks n xs).flatten ++ remainder n xs = xs := by
  induction hl : xs.length using Nat.strong_induction_on generalizing xs with
  | _ len ih =>
    by_cases h : xs.length < n
    · rw [blocks_of_lt h, remainder_of_lt h]
      rfl
    · have hle : n ≤ xs.length := by omega
      have hrest := ih (xs.drop n).length (by rw [List.length_drop]; omega) (xs.drop n) rfl
      rw [blocks_of_le hn hle, remainder_of_le hn hle, List.flatten_cons, List.append_assoc, hrest,
        List.take_append_drop]

theorem flatten_blocks_of_dvd (hn : 0 < n) {xs : List β} (h : n ∣ xs.length) :
    (blocks n xs).flatten = xs := by
  have hempty : remainder n xs = [] := by
    rw [← List.length_eq_zero_iff, length_remainder, Nat.mod_eq_zero_of_dvd h]
  have hall := flatten_blocks hn xs
  rwa [hempty, List.append_nil] at hall

/-- Parts of one length, one for each element, are told apart by the whole. -/
theorem flatMap_injective {α : Type} {f : α → List β} (hf : Function.Injective f)
    (hlen : ∀ x, (f x).length = n) {xs ys : List α} (hsame : xs.length = ys.length)
    (h : xs.flatMap f = ys.flatMap f) : xs = ys := by
  induction xs generalizing ys with
  | nil => exact (List.length_eq_zero_iff.mp hsame.symm).symm
  | cons x xs ih =>
    cases ys with
    | nil => simp at hsame
    | cons y ys =>
      rw [List.flatMap_cons, List.flatMap_cons] at h
      obtain ⟨hhead, htail⟩ := List.append_inj h (by rw [hlen, hlen])
      rw [hf hhead, ih (by simpa using hsame) htail]

/-! ## The state behind a message -/

variable (f : σ → List β → σ)

/-- The state that the whole blocks of a message lead to. -/
def absorb (n : ℕ) (s : σ) (message : List β) : σ := (blocks n message).foldl f s

theorem absorb_append (hn : 0 < n) (s : σ) (xs ys : List β) :
    absorb f n s (xs ++ ys) = absorb f n (absorb f n s xs) (remainder n xs ++ ys) := by
  rw [absorb, blocks_append hn, List.foldl_append]
  rfl

theorem absorb_of_lt {s : σ} {xs : List β} (h : xs.length < n) : absorb f n s xs = s := by
  rw [absorb, blocks_of_lt h]
  rfl

theorem absorb_of_le (hn : 0 < n) {s : σ} {xs : List β} (h : n ≤ xs.length) :
    absorb f n s xs = absorb f n (f s (xs.take n)) (xs.drop n) := by
  rw [absorb, blocks_of_le hn h]
  rfl

theorem absorb_block_append (hn : 0 < n) {s : σ} {b : List β} (h : b.length = n) (ys : List β) :
    absorb f n s (b ++ ys) = absorb f n (f s b) ys := by
  rw [absorb_of_le f hn (by rw [List.length_append]; omega), List.take_left' h, List.drop_left' h]

theorem absorb_block (hn : 0 < n) {s : σ} {b : List β} (h : b.length = n) :
    absorb f n s b = f s b := by
  rw [absorb, blocks_block hn h]
  rfl

/-- Two functions that agree on the blocks. -/
theorem absorb_congr (hn : 0 < n) {g : σ → List β → σ}
    (h : ∀ s b, b.length = n → f s b = g s b) (s : σ) (xs : List β) :
    absorb f n s xs = absorb g n s xs :=
  List.foldl_ext f g s (fun t b hb => h t b (length_of_mem_blocks hn hb))

/-! ## Padding -/

/-- The message, a mark, the least number of zeros that leaves room for a length field of `k`
elements at the end of a block, and that field. -/
def strengthened (n k : ℕ) (mark zero : β) (field : ℕ → List β) (message : List β) : List β :=
  message ++ mark :: List.replicate ((2 * n - k - 1 - message.length % n) % n) zero ++
    field message.length

variable {k : ℕ} {mark zero : β} {field : ℕ → List β}

theorem dvd_length_strengthened (hk : k < n) (hfield : ∀ len, (field len).length = k)
    (message : List β) : n ∣ (strengthened n k mark zero field message).length := by
  have hr : message.length % n < n := Nat.mod_lt _ (by omega)
  have hlen := Nat.div_add_mod message.length n
  have hzeros := Nat.div_add_mod (2 * n - k - 1 - message.length % n) n
  simp only [strengthened, List.length_append, List.length_cons, List.length_replicate, hfield]
  set z := (2 * n - k - 1 - message.length % n) % n
  set q := (2 * n - k - 1 - message.length % n) / n
  have hsum : message.length + (z + 1) + k + n * q = n * (message.length / n + 2) := by
    rw [Nat.mul_add, Nat.mul_comm n 2]
    omega
  exact (Nat.dvd_add_iff_left (Dvd.intro q rfl)).mpr ⟨_, hsum⟩

/-- The length at its end tells a padded message from every longer one. -/
theorem strengthened_suffix_free (hfield : ∀ len, (field len).length = k) {xs ys : List β}
    (hinj : field xs.length = field ys.length → xs.length = ys.length)
    (h : strengthened n k mark zero field xs <:+ strengthened n k mark zero field ys) :
    xs = ys := by
  have hx : field xs.length <:+ strengthened n k mark zero field ys :=
    (List.suffix_append _ _).trans h
  have hy : field ys.length <:+ strengthened n k mark zero field ys := List.suffix_append _ _
  have hlast : field xs.length = field ys.length :=
    (List.suffix_of_suffix_length_le hx hy (by rw [hfield, hfield])).eq_of_length
      (by rw [hfield, hfield])
  have hlen := hinj hlast
  have hsame := h.eq_of_length (by simp [strengthened, hlen, hfield])
  rw [strengthened, strengthened, hlen] at hsame
  exact (List.append_inj (List.append_inj_left' hsame rfl) hlen).1

/-! ## Collisions -/

/-- Each state with the block that it takes, in the order of the fold. -/
def steps : σ → List (List β) → List (σ × List β)
  | _, [] => []
  | s, b :: bs => (s, b) :: steps (f s b) bs

/-- Two different steps with the same state behind them. -/
def Collide (ps qs : List (σ × List β)) : Prop :=
  ∃ p ∈ ps, ∃ q ∈ qs, p ≠ q ∧ f p.1 p.2 = f q.1 q.2

theorem steps_concat (s : σ) (bs : List (List β)) (b : List β) :
    steps f s (bs ++ [b]) = steps f s bs ++ [(bs.foldl f s, b)] := by
  induction bs generalizing s with
  | nil => rfl
  | cons c bs ih => simp [steps, ih]

theorem Collide.mono {ps ps' qs qs' : List (σ × List β)} (h : Collide f ps qs) (hp : ps ⊆ ps')
    (hq : qs ⊆ qs') : Collide f ps' qs' := by
  obtain ⟨p, hmp, q, hmq, hne, heq⟩ := h
  exact ⟨p, hp hmp, q, hq hmq, hne, heq⟩

instance [DecidableEq σ] [DecidableEq β] (ps qs : List (σ × List β)) :
    Decidable (Collide f ps qs) :=
  inferInstanceAs (Decidable (∃ p ∈ ps, ∃ q ∈ qs, p ≠ q ∧ f p.1 p.2 = f q.1 q.2))

/-- One state behind two block lists: some steps on the way collide, or one list ends the other.
The steps are compared from the last one back. -/
theorem collide_or_suffix (s t : σ) (bs cs : List (List β)) (h : bs.foldl f s = cs.foldl f t) :
    Collide f (steps f s bs) (steps f t cs) ∨ bs <:+ cs ∨ cs <:+ bs := by
  induction bs using List.reverseRecOn generalizing cs with
  | nil => exact .inr (.inl (List.nil_suffix))
  | append_singleton bs b ih =>
    rcases List.eq_nil_or_concat cs with rfl | ⟨cs, c, rfl⟩
    · exact .inr (.inr (List.nil_suffix))
    rw [List.concat_eq_append] at h ⊢
    rw [List.foldl_concat, List.foldl_concat] at h
    rw [steps_concat, steps_concat]
    by_cases hsame : (bs.foldl f s, b) = (cs.foldl f t, c)
    · obtain ⟨hstate, rfl⟩ := Prod.mk.inj hsame
      rcases ih cs hstate with hcollide | hends | hends
      · exact .inl (hcollide.mono f (List.subset_append_left _ _) (List.subset_append_left _ _))
      · exact .inr (.inl ((List.suffix_append_inj_of_length_eq rfl).mpr ⟨hends, rfl⟩))
      · exact .inr (.inr ((List.suffix_append_inj_of_length_eq rfl).mpr ⟨hends, rfl⟩))
    · exact .inl ⟨_, List.mem_append_right _ (List.mem_singleton_self _), _,
        List.mem_append_right _ (List.mem_singleton_self _), hsame, h⟩

/-- Two messages of whole blocks, none of which ends the other, with one result. -/
theorem collide_of_absorb_eq (hn : 0 < n) {s : σ} {xs ys : List β} (hx : n ∣ xs.length)
    (hy : n ∣ ys.length) (hxy : ¬ xs <:+ ys) (hyx : ¬ ys <:+ xs)
    (h : absorb f n s xs = absorb f n s ys) :
    Collide f (steps f s (blocks n xs)) (steps f s (blocks n ys)) := by
  have hends : ∀ {us vs : List β}, n ∣ us.length → n ∣ vs.length → blocks n us <:+ blocks n vs →
      us <:+ vs := by
    rintro us vs hu hv ⟨front, hfront⟩
    refine ⟨front.flatten, ?_⟩
    rw [← flatten_blocks_of_dvd hn hu, ← List.flatten_append, hfront, flatten_blocks_of_dvd hn hv]
  rcases collide_or_suffix f s s _ _ h with hcollide | hsuffix | hsuffix
  · exact hcollide
  · exact absurd (hends hx hy hsuffix) hxy
  · exact absurd (hends hy hx hsuffix) hyx

end block_hash
