-- The base 58 codec is exact: the encoder writes the digits of the number,
-- highest first, with one `1` for each zero byte at its top, and the decoder
-- gives the same bytes back.
import BitcoinStats.Base58Text

open byte_memory

namespace bitcoinstats.base58

/-! ## Digits and characters -/

/-- The character of a digit. -/
def digitChar (d : Nat) : UInt8 := base58Characters.getD d 0

theorem digitChar_get : ∀ d < 58, base58Characters[d]? = some (digitChar d) := by decide

theorem alphaIndexOf_digitChar : ∀ d < 58, (alphaIndexOf (digitChar d)).toNat = d := by decide

theorem digitChar_eq_49 : ∀ d < 58, digitChar d = 49 ↔ d = 0 := by decide

theorem digitChar_ne_zero : ∀ d < 58, digitChar d ≠ 0 := by decide

theorem digits_lt (n : Nat) : ∀ d ∈ Nat.digits 58 n, d < 58 :=
  fun _ hd => Nat.digits_lt_base (by omega) hd

theorem digits_step {n : Nat} (h : 58 ≤ n) :
    Nat.digits 58 n = n % 58 :: Nat.digits 58 (n / 58) :=
  Nat.digits_def' (by omega) (by omega)

theorem digits_length_pos {n : Nat} (h : 0 < n) : 0 < (Nat.digits 58 n).length :=
  List.length_pos_of_ne_nil (Nat.digits_ne_nil_iff_ne_zero.mpr (by omega))

/-! ## The encoder -/

theorem leadingZeros_spec (a : BigNumber) (n : Nat) (str : List UInt8) :
    ∃ z ≤ n, leadingZeros a.data n str = str ++ List.replicate z 49 ∧
      Canonical { a with length := n - z } (readLe a.data 0 n) := by
  induction n generalizing str with
  | zero => exact ⟨0, le_refl 0, by simp [leadingZeros], rfl, by simp⟩
  | succ n ih =>
    unfold leadingZeros
    by_cases h : a.data n = 0
    · obtain ⟨z, hz, hrun, hcan⟩ := ih (str ++ [49])
      refine ⟨z + 1, by omega, ?_, ?_⟩
      · rw [if_pos h, hrun, List.replicate_succ]
        simp
      · rw [readLe_snoc, Nat.zero_add, h, Nat.add_sub_add_right]
        simpa using hcan
    · refine ⟨0, by omega, by rw [if_neg h]; simp, ?_⟩
      exact canonical_of_top (a := { a with length := n + 1 }) (fun _ => h)

/-- One turn with room for three more characters. -/
theorem encodeLoop_step (maxStrLen fuel : Nat) {a : BigNumber} (str : List UInt8)
    (hmore : a.compareTo58 ≠ .CB_COMPARE_LESS_THAN) (hval : 58 ≤ a.value) (hlen : a.length ≤ 255)
    (hroom : str.length + 3 ≤ maxStrLen) :
    ∃ a', Canonical a' (a.value / 58) ∧ encodeLoop maxStrLen (fuel + 1) a str =
      encodeLoop maxStrLen fuel a' (str ++ [digitChar (a.value % 58)]) := by
  obtain ⟨a1, a2, hmod, hsub, hdiv, hcan⟩ := encode_step hval hlen
  have hdigit : (UInt8.ofNat (a.value % 58)).toNat = a.value % 58 := by
    simp
    omega
  refine ⟨a2, hcan, ?_⟩
  conv_lhs => unfold encodeLoop
  rw [if_neg hmore]
  simp only [Option.bind_eq_bind, hmod, Option.bind_some]
  rw [if_neg (by omega), hdigit, digitChar_get _ (Nat.mod_lt _ (by omega))]
  simp only [Option.bind_some, hsub, hdiv]

/-- From a number without needless zero bytes the loop writes all digits
but the highest, which is left over. -/
theorem encodeLoop_digits (maxStrLen : Nat) (a : BigNumber) (n fuel : Nat) (str : List UInt8)
    (ha : Canonical a n) (hn : 0 < n) (hlen : a.length ≤ 255)
    (hfuel : (Nat.digits 58 n).length ≤ fuel)
    (hroom : str.length + (Nat.digits 58 n).length < maxStrLen) :
    ∃ a' lower top, encodeLoop maxStrLen fuel a str = some (true, a', str ++ lower.map digitChar) ∧
      Nat.digits 58 n = lower ++ [top] ∧ 0 < top ∧ Canonical a' top := by
  induction n using Nat.strong_induction_on generalizing a fuel str with
  | _ n ih =>
    have hcompare := compareTo58_canonical ha hn
    obtain ⟨fuel, rfl⟩ : ∃ f, fuel = f + 1 := by
      have hpos := digits_length_pos hn
      exact ⟨fuel - 1, by omega⟩
    rcases Nat.lt_or_ge n 58 with hlt | hge
    · refine ⟨a, [], n, ?_, ?_, hn, ha⟩
      · unfold encodeLoop
        rw [if_pos (hcompare.mpr hlt)]
        simp
      · rw [Nat.digits_of_lt 58 n (by omega) hlt]
        rfl
    · have hdigits := digits_step hge
      have hrest := digits_length_pos (n := n / 58) (by omega)
      rw [hdigits, List.length_cons] at hfuel hroom
      obtain ⟨a1, h1, hrun⟩ := encodeLoop_step maxStrLen fuel str
        (fun h => by have := hcompare.mp h; omega)
        (by rw [ha.value]; exact hge) hlen (by omega)
      rw [ha.value] at h1 hrun
      have hlen1 : a1.length ≤ a.length :=
        h1.length_le (Nat.lt_of_le_of_lt (Nat.div_le_self n 58) ha.lt)
      obtain ⟨a', lower, top, hloop, hsplit, htop, hcan⟩ :=
        ih (n / 58) (by omega) a1 fuel (str ++ [digitChar (n % 58)]) h1 (by omega) (by omega)
          (by omega) (by simp; omega)
      refine ⟨a', n % 58 :: lower, top, ?_, by rw [hdigits, hsplit]; rfl, htop, hcan⟩
      rw [hrun, hloop]
      simp

theorem getD_append_at {α : Type} (xs ys : List α) (y d : α) (i : Nat) (h : i = xs.length) :
    (xs ++ y :: ys).getD i d = y := by
  subst h
  simp [List.getD_eq_getElem?_getD]

theorem set_append_at {α : Type} (xs ys : List α) (y v : α) (i : Nat) (h : i = xs.length) :
    (xs ++ y :: ys).set i v = xs ++ v :: ys := by
  subst h
  simp

/-- The swaps turn the middle part around; `front` and `back` are done. -/
theorem reversalLoop_middle (ones front back mid : List UInt8) (h : front.length = back.length) :
    reversalLoop ones.length (mid.length / 2) front.length (ones ++ front ++ mid ++ back) =
      ones ++ front ++ mid.reverse ++ back := by
  induction mid using List.bidirectionalRec generalizing front back with
  | nil => simp [reversalLoop]
  | singleton c => simp [reversalLoop]
  | cons_append first mid last ih =>
    have hturns : (first :: (mid ++ [last])).length / 2 = mid.length / 2 + 1 := by
      simp
      omega
    rw [hturns]
    unfold reversalLoop
    have hshape : ones ++ front ++ (first :: (mid ++ [last])) ++ back =
        (ones ++ front) ++ first :: (mid ++ last :: back) := by simp
    have hshape' : (ones ++ front) ++ last :: (mid ++ last :: back) =
        (ones ++ front ++ last :: mid) ++ last :: back := by simp
    have hshape'' : (ones ++ front) ++ first :: (mid ++ last :: back) =
        (ones ++ front ++ first :: mid) ++ last :: back := by simp
    have hlen : ((ones ++ front) ++ first :: (mid ++ last :: back)).length - front.length - 1 =
        (ones ++ front ++ first :: mid).length := by
      simp
      omega
    have hlen' : (ones ++ front ++ first :: mid).length = (ones ++ front ++ last :: mid).length := by
      simp
    simp only
    rw [hshape, hlen, getD_append_at _ _ _ _ (front.length + ones.length) (by simp; omega)]
    rw [hshape'', getD_append_at _ _ _ _ _ rfl, ← hshape'',
      set_append_at _ _ _ _ (front.length + ones.length) (by simp; omega), hshape', hlen',
      set_append_at _ _ _ _ _ rfl]
    have hnext := ih (front ++ [last]) (first :: back) (by simp [h])
    simpa using hnext

theorem reversalLoop_reverse (ones digits : List UInt8) :
    reversalLoop ones.length (digits.length / 2) 0 (ones ++ digits) = ones ++ digits.reverse := by
  simpa using reversalLoop_middle ones [] [] digits rfl

/-- Two characters are enough for a byte: `256 < 58 ^ 2`. -/
theorem digits_length_le (a : BigNumber) : (Nat.digits 58 a.value).length ≤ 2 * a.length := by
  have hlt : a.value < 256 ^ a.length := readLe_lt a.data 0 a.length
  have hpow : 256 ^ a.length ≤ 58 ^ (2 * a.length) := by
    rw [Nat.pow_mul]
    exact Nat.pow_le_pow_left (by omega) _
  exact (Nat.digits_length_le_iff (by omega) a.value).mpr (by omega)

/-- What is left to do behind the loop: the highest digit, the swaps and the closing zero. -/
theorem cbEncodeBase58_of_loop {a a' : BigNumber} {z maxStrLen top : Nat} {lower : List Nat}
    (hzeros : leadingZeros a.data a.length [] = List.replicate z 49) (hpos : 0 < a.length)
    (hmax : a.length ≤ 255) (hfits : a.length ≤ maxStrLen)
    (hloop : encodeLoop maxStrLen (2 * a.length + 2) a (List.replicate z 49) =
      some (true, a', List.replicate z 49 ++ lower.map digitChar))
    (hlen : a'.length = 1) (hbyte : (a'.data 0).toNat = top) (htop : top < 58) :
    cbEncodeBase58 a maxStrLen =
      some (true, List.replicate z 49 ++ (lower ++ [top]).reverse.map digitChar ++ [0]) := by
  unfold cbEncodeBase58
  rw [if_neg (by omega), if_neg (by rw [MAX_BIG_NUMBER]; omega)]
  simp only [hzeros, Option.bind_eq_bind]
  rw [hloop, Option.bind_some]
  simp only [if_true, hlen, Nat.sub_self, hbyte, digitChar_get top htop, Option.bind_some]
  have hchars : List.replicate z 49 ++ lower.map digitChar ++ [digitChar top] =
      List.replicate z 49 ++ (lower ++ [top]).map digitChar := by simp
  have hturn := reversalLoop_reverse (List.replicate z 49) ((lower ++ [top]).map digitChar)
  rw [hchars]
  simp only [List.length_replicate, List.length_append, Nat.add_sub_cancel_left] at hturn ⊢
  rw [hturn, List.map_reverse]

/-- The text of a number of `a.length` bytes. -/
theorem encode_digits {a : BigNumber} {z : Nat} (maxStrLen : Nat)
    (hzeros : leadingZeros a.data a.length [] = List.replicate z 49) (hval : 58 ≤ a.value)
    (hlen : 1 < a.length) (hmax : a.length ≤ 255) (hfits : a.length ≤ maxStrLen)
    (hroom : z + (Nat.digits 58 a.value).length < maxStrLen) :
    cbEncodeBase58 a maxStrLen = some (true,
      List.replicate z 49 ++ (Nat.digits 58 a.value).reverse.map digitChar ++ [0]) := by
  have hfuel := digits_length_le a
  have hdigits := digits_step hval
  have hrest := digits_length_pos (n := a.value / 58) (by omega)
  have hdlen : (Nat.digits 58 a.value).length = (Nat.digits 58 (a.value / 58)).length + 1 := by
    rw [hdigits, List.length_cons]
  -- the first turn is taken for any number of two bytes or more
  have hmore : a.compareTo58 ≠ .CB_COMPARE_LESS_THAN := by simp [BigNumber.compareTo58, hlen]
  obtain ⟨a1, h1, hfirst⟩ := encodeLoop_step maxStrLen (2 * a.length + 1)
    (List.replicate z 49) hmore hval hmax (by simp; omega)
  have hlen1 : a1.length ≤ a.length :=
    h1.length_le (Nat.lt_of_le_of_lt (Nat.div_le_self _ 58) (readLe_lt a.data 0 a.length))
  obtain ⟨a2, lower, top, hloop, hsplit, htop, h2⟩ :=
    encodeLoop_digits maxStrLen a1 (a.value / 58) (2 * a.length + 1)
      (List.replicate z 49 ++ [digitChar (a.value % 58)]) h1 (by omega) (by omega) (by omega)
      (by simp; omega)
  have htop58 : top < 58 :=
    digits_lt (a.value / 58) top (by rw [hsplit]; simp)
  have hlen2 : a2.length = 1 := by
    have hpos := h2.length_pos htop
    have hle := h2.length_le (k := 1) (by omega)
    omega
  -- the characters before the swaps are the digits, lowest first
  have hall : encodeLoop maxStrLen (2 * a.length + 2) a (List.replicate z 49) =
      some (true, a2, List.replicate z 49 ++ (a.value % 58 :: lower).map digitChar) := by
    rw [hfirst, hloop]
    simp
  rw [cbEncodeBase58_of_loop hzeros (by omega) hmax hfits hall hlen2 (canonical_one_byte h2 hlen2)
    htop58, hdigits, hsplit]
  rfl

/-! ## The decoder -/

/-- The characters of a digit list, the highest digit first. -/
def textOf (ds : List Nat) : List UInt8 := ds.reverse.map digitChar

/-- The text of a number behind `z` ones spells the number. -/
theorem spelled_text (n z : Nat) :
    spelled charIndex (List.replicate z 49 ++ textOf (Nat.digits 58 n)) = n := by
  have hdigits : ((Nat.digits 58 n).map digitChar).map charIndex = Nat.digits 58 n := by
    rw [List.map_map]
    calc (Nat.digits 58 n).map (charIndex ∘ digitChar) = (Nat.digits 58 n).map id := by
          apply List.map_congr_left
          intro d hd
          exact alphaIndexOf_digitChar d (digits_lt n d hd)
      _ = Nat.digits 58 n := List.map_id _
  have hones : (List.replicate z 49).map charIndex = List.replicate z 0 := by
    rw [List.map_replicate, (charIndex_eq_zero 49).mpr rfl]
  rw [spelled, List.reverse_append, List.reverse_replicate, textOf, List.map_reverse,
    List.reverse_reverse, List.map_append, hdigits, hones, Nat.ofDigits_append_replicate_zero,
    Nat.ofDigits_digits]

/-- The first character after the ones is that of the highest digit, which is not 0. -/
theorem ones_text {n : Nat} (hn : 0 < n) (z : Nat) :
    ones (List.replicate z 49 ++ textOf (Nat.digits 58 n)) = z := by
  have hne : Nat.digits 58 n ≠ [] := List.ne_nil_of_length_pos (digits_length_pos hn)
  have hlast := Nat.getLast_digit_ne_zero 58 (by omega : n ≠ 0)
  have hlt := digits_lt n _ (List.getLast_mem hne)
  have hchar : digitChar ((Nat.digits 58 n).getLast hne) ≠ 49 :=
    fun h49 => hlast ((digitChar_eq_49 _ hlt).mp h49)
  have hfirst : ones (textOf (Nat.digits 58 n)) = 0 := by
    rw [textOf, ← List.dropLast_append_getLast hne]
    simp [ones, hchar]
  induction z with
  | zero => exact hfirst
  | succ z ih => rw [List.replicate_succ, List.cons_append, ones_cons_one, ih]

/-- The decoder on the text of a number behind `z` ones. -/
theorem decode_digits {n z : Nat} (hn : 0 < n) (hlen : (Nat.digits 58 n).length + z ≤ 255)
    {k : Nat} (hfit : n < 256 ^ k) (htop : 0 < k → 256 ^ (k - 1) ≤ n) :
    ∃ bi, cbDecodeBase58 (BigNumber.zeroed 0)
        (List.replicate z 49 ++ textOf (Nat.digits 58 n)) = some bi ∧
      bi.length = k + z ∧ readLe bi.data 0 (k + z) = n := by
  have hpos := digits_length_pos hn
  have hslen : (List.replicate z 49 ++ textOf (Nat.digits 58 n)).length =
      z + (Nat.digits 58 n).length := by
    simp [textOf]
  obtain ⟨bi, k', hrun, hbi, hval, hfit', htop'⟩ :=
    cbDecodeBase58_spelled (List.ne_nil_of_length_pos (by rw [hslen]; omega)) (by rw [hslen]; omega)
  rw [ones_text hn] at hbi hval
  rw [spelled_text] at hval hfit' htop'
  -- both lengths are the least that the number fits in
  obtain rfl : k' = k :=
    Nat.le_antisymm (length_le_of_top htop' hfit) (length_le_of_top htop hfit')
  exact ⟨bi, hrun, hbi, hval⟩

end bitcoinstats.base58
