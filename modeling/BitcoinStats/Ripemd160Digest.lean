-- The digest of `computeRIPEMD160`: the words of whole blocks, the last blocks
-- that `MDfinish` builds byte by byte, and what equal digests say.
import BitcoinStats.Ripemd160Standard

open byte_memory byte_words block_hash

namespace bitcoinstats.ripemd160

/-! ## Whole blocks -/

theorem BYTES_TO_DWORD_eq {strptr : List UInt8} (h : 4 ≤ strptr.length) :
    BYTES_TO_DWORD strptr = loadWord (strptr.take 4) := by
  obtain ⟨front, rest, rfl, hfront⟩ : ∃ front rest, strptr = front ++ rest ∧ front.length = 4 :=
    ⟨strptr.take 4, strptr.drop 4, (List.take_append_drop 4 strptr).symm, by simpa using h⟩
  rw [List.take_left' hfront]
  obtain ⟨b0, b1, b2, b3, rfl⟩ := List.length_eq_four.mp hfront
  apply UInt32.toBitVec_inj.mp
  rw [loadWord_bits]
  apply BitVec.eq_of_getLsbD_eq
  intro t ht
  simp only [BYTES_TO_DWORD, UInt32.toBitVec_or, BitVec.getLsbD_or, BitVec.getLsbD_append]
  interval_cases t <;> simp

theorem collect_eq {message : List UInt8} (h : 64 ≤ message.length) :
    collect message = loadWords message := by
  apply List.map_congr_left
  intro i hi
  rw [List.mem_range] at hi
  apply BYTES_TO_DWORD_eq
  rw [List.length_drop]
  omega

theorem compress_collect {message : List UInt8} (h : 64 ≤ message.length) (buf : MDbuf) :
    compress buf (collect message) = standard.compress buf (message.take 64) := by
  rw [collect_eq h, ← loadWords_take, compress_eq]

/-- The loop over the whole blocks. -/
theorem wholeBlocks_eq (buf : MDbuf) (message : List UInt8) :
    wholeBlocks buf message = (absorb standard.compress 64 buf message, remainder 64 message) := by
  induction hn : message.length using Nat.strong_induction_on generalizing buf message with
  | _ n ih =>
    rw [wholeBlocks]
    split
    · rename_i hlong
      rw [ih (message.drop 64).length (by rw [List.length_drop]; omega) _ _ rfl,
        compress_collect (by omega), ← absorb_of_le _ (by decide) (by omega),
        ← remainder_of_le (by decide) (by omega)]
    · rw [absorb_of_lt _ (by omega), remainder_of_lt (by omega)]

/-! ## The last blocks -/

theorem getElem_loadWords (bytes : List UInt8) {k : Nat} (hk : k < 16) :
    (loadWords bytes)[k]? = some (loadWord ((bytes.drop (4 * k)).take 4)) := by
  simp [loadWords, hk]

/-- A byte that goes into the words goes into the bytes of the block. -/
theorem xorByte_loadWords {bytes : List UInt8} (h : bytes.length = 64) {i : Nat}
    (hzero : bytes.getD i 0 = 0) (b : UInt8) :
    xorByte (loadWords bytes) i b = loadWords (bytes.set i b) := by
  apply List.ext_getElem?
  intro k
  by_cases hk16 : k < 16
  swap
  · rw [List.getElem?_eq_none (by simpa [xorByte, loadWords] using hk16),
      List.getElem?_eq_none (by simpa [loadWords] using hk16)]
  have hlen : ((bytes.drop (4 * k)).take 4).length = 4 := by
    rw [List.length_take, List.length_drop]
    omega
  rw [xorByte, List.getElem?_modify, getElem_loadWords _ hk16, getElem_loadWords _ hk16,
    List.drop_set, Option.map_eq_map, Option.map_some]
  congr 1
  by_cases hword : i / 4 = k
  · have hquad : ((bytes.drop (4 * k)).take 4).getD (i % 4) 0 = 0 := by
      rw [← hzero, List.getD_eq_getElem?_getD, List.getD_eq_getElem?_getD,
        List.getElem?_take_of_lt (by omega), List.getElem?_drop]
      congr 2
      omega
    rw [if_pos hword, if_neg (by omega), List.take_set, loadWord_xor hlen (by omega) hquad,
      show i - 4 * k = i % 4 by omega]
  · rw [if_neg hword]
    split
    · rfl
    · rw [List.take_set, List.set_eq_of_length_le (by omega)]

/-- The bytes behind the last whole block, with zeros up to 64. -/
def filled (rest : List UInt8) (n : Nat) : List UInt8 := rest.take n ++ List.replicate (64 - n) 0

theorem filled_length {rest : List UInt8} {n : Nat} (hn : n ≤ rest.length) (h64 : n ≤ 64) :
    (filled rest n).length = 64 := by
  rw [filled, List.length_append, List.length_take, List.length_replicate]
  omega

theorem filled_set {rest : List UInt8} {n : Nat} (hn : n ≤ rest.length) (h64 : n < 64) (b : UInt8) :
    (filled rest n).set n b = rest.take n ++ b :: List.replicate (63 - n) 0 := by
  have htake : (rest.take n).length = n := by
    rw [List.length_take]
    omega
  rw [filled, List.set_append_right _ _ htake.le, htake, Nat.sub_self,
    show 64 - n = (63 - n) + 1 by omega, List.replicate_succ, List.set_cons_zero]

theorem filled_getD {rest : List UInt8} {n : Nat} (hn : n ≤ rest.length) :
    (filled rest n).getD n 0 = 0 := by
  have htake : (rest.take n).length = n := by
    rw [List.length_take]
    omega
  rw [filled, List.getD_eq_getElem?_getD, List.getElem?_append_right htake.le,
    List.getElem?_replicate]
  split <;> rfl

/-- The loop that puts the bytes of `strptr` into `X`. -/
theorem foldl_xorByte (rest : List UInt8) (n : Nat) (hn : n ≤ rest.length) (h64 : n ≤ 64) :
    (List.range n).foldl (fun X i => xorByte X i (rest.getD i 0)) (List.replicate 16 0) =
      loadWords (filled rest n) := by
  induction n with
  | zero => rfl
  | succ n ih =>
    have hget : rest.getD n 0 = rest[n] := by
      rw [List.getD_eq_getElem?_getD, List.getElem?_eq_getElem (by omega)]
      rfl
    rw [List.range_succ, List.foldl_concat, ih (by omega) (by omega),
      xorByte_loadWords (filled_length (by omega) (by omega)) (filled_getD (by omega)),
      filled_set (by omega) (by omega), hget, filled, List.take_succ_eq_append_getElem (by omega),
      show 64 - (n + 1) = 63 - n by omega, List.append_assoc, List.singleton_append]

theorem and_63 (x : UInt32) : (x &&& 63).toNat = x.toNat % 64 := by
  rw [UInt32.toNat_and]
  exact Nat.and_two_pow_sub_one_eq_mod x.toNat 6

/-- The bit behind the last byte. -/
theorem mark_eq (X : List UInt32) (lswlen : UInt32) :
    X.modify ((lswlen >>> 2) &&& 15).toNat
      (fun word => word ^^^ ((1 : UInt32) <<< (8 * (lswlen &&& 3) + 7))) =
        xorByte X (lswlen.toNat % 64) 0x80 := by
  have hindex : ((lswlen >>> 2) &&& 15).toNat = lswlen.toNat % 64 / 4 := by
    rw [UInt32.toNat_and, UInt32.toNat_shiftRight]
    change lswlen.toNat >>> 2 &&& 2 ^ 4 - 1 = _
    rw [Nat.shiftRight_eq_div_pow, Nat.and_two_pow_sub_one_eq_mod]
    omega
  have hlow : (lswlen &&& 3).toNat = lswlen.toNat % 64 % 4 := by
    rw [UInt32.toNat_and]
    change lswlen.toNat &&& 2 ^ 2 - 1 = _
    rw [Nat.and_two_pow_sub_one_eq_mod]
    omega
  have hbit : (1 : UInt32) <<< (8 * (lswlen &&& 3) + 7) =
      (0x80 : UInt8).toUInt32 <<< UInt32.ofNat (8 * (lswlen.toNat % 64 % 4)) := by
    have hword : lswlen &&& 3 = UInt32.ofNat (lswlen.toNat % 64 % 4) := by
      rw [← hlow, UInt32.ofNat_toNat]
    have hlt : lswlen.toNat % 64 % 4 < 4 := Nat.mod_lt _ (by decide)
    rw [hword]
    generalize lswlen.toNat % 64 % 4 = j at hlt
    interval_cases j <;> rfl
  rw [xorByte, hindex, hbit]

theorem loadWords_append {front a b : List UInt8} (hfront : front.length = 56) (ha : a.length = 4)
    (hb : b.length = 4) :
    loadWords (front ++ a ++ b) =
      (List.range 14).map (fun i => loadWord ((front.drop (4 * i)).take 4)) ++
        [loadWord a, loadWord b] := by
  rw [loadWords, show List.range 16 = List.range 14 ++ [14, 15] by rfl, List.map_append]
  congr 1
  · apply List.map_congr_left
    intro i hi
    rw [List.mem_range] at hi
    rw [List.append_assoc, List.drop_append_of_le_length (by omega),
      List.take_append_of_le_length (by rw [List.length_drop]; omega)]
  · have hdrop : (front ++ a ++ b).drop 56 = a ++ b := by
      rw [List.append_assoc, List.drop_left' hfront]
    have hdrop' : (front ++ a ++ b).drop 60 = b := by
      rw [List.drop_left' (by rw [List.length_append]; omega)]
    simp only [List.map_cons, List.map_nil, Nat.reduceMul, hdrop, hdrop', List.take_left' ha,
      List.take_of_length_le hb.le]

/-- The two words of the length, as bytes. -/
theorem length_bytes (lswlen : UInt32) :
    storeWord (lswlen <<< 3) ++ storeWord ((lswlen >>> 29) ||| ((0 : UInt32) <<< 3)) =
      leBytes 8 (8 * lswlen.toNat) := by
  have hlow : (lswlen <<< 3).toNat = 8 * lswlen.toNat % 256 ^ 4 := by
    rw [UInt32.toNat_shiftLeft]
    change lswlen.toNat <<< 3 % 2 ^ 32 = _
    rw [Nat.shiftLeft_eq, Nat.mul_comm]
    norm_num
  have hhigh : ((lswlen >>> 29) ||| ((0 : UInt32) <<< 3)).toNat = 8 * lswlen.toNat / 256 ^ 4 := by
    have hzero : ((0 : UInt32) <<< 3) = 0 := by decide
    rw [hzero, UInt32.or_zero, UInt32.toNat_shiftRight]
    change lswlen.toNat >>> 29 = _
    rw [Nat.shiftRight_eq_div_pow]
    have := lswlen.toNat_lt
    omega
  rw [storeWord, storeWord, hlow, hhigh, ← leBytes_add 4 4 _ _ (Nat.mod_lt _ (by positivity)),
    Nat.mod_add_div]

/-- The words of the last block, with the length in the words 14 and 15. -/
theorem set_length {front : List UInt8} (hfront : front.length = 56) (w v : UInt32) :
    ((loadWords (front ++ List.replicate 8 0)).set 14 w).set 15 v =
      loadWords (front ++ (storeWord w ++ storeWord v)) := by
  rw [show List.replicate 8 (0 : UInt8) = List.replicate 4 0 ++ List.replicate 4 0 by rfl,
    ← List.append_assoc, ← List.append_assoc, loadWords_append hfront rfl rfl,
    loadWords_append hfront (by simp [storeWord]) (by simp [storeWord]), loadWord_storeWord,
    loadWord_storeWord, List.set_append_right _ _ (by simp), List.set_append_right _ _ (by simp)]
  simp

/-- The words of the bytes that are left, with the bit behind them. -/
theorem lastWords {rest : List UInt8} {lswlen : UInt32} (hrest : rest.length = lswlen.toNat % 64) :
    ((List.range (lswlen &&& 63).toNat).foldl (fun X i => xorByte X i (rest.getD i 0))
      (List.replicate 16 0)).modify ((lswlen >>> 2) &&& 15).toNat
        (fun word => word ^^^ ((1 : UInt32) <<< (8 * (lswlen &&& 3) + 7))) =
      loadWords (rest ++ 0x80 :: List.replicate (63 - rest.length) 0) := by
  have hlt : rest.length < 64 := by omega
  rw [mark_eq, and_63, ← hrest, foldl_xorByte rest _ le_rfl hlt.le,
    xorByte_loadWords (filled_length le_rfl hlt.le) (filled_getD le_rfl), filled_set le_rfl hlt,
    List.take_length]

/-- The one or two calls of `compress` in `MDfinish`. -/
theorem MDfinish_eq (buf : MDbuf) (rest : List UInt8) (lswlen : UInt32)
    (hrest : rest.length = lswlen.toNat % 64) :
    MDfinish buf rest lswlen 0 = absorb standard.compress 64 buf
      (rest ++ 0x80 :: List.replicate ((119 - rest.length) % 64) 0 ++
        leBytes 8 (8 * lswlen.toNat)) := by
  have hlast : (55 < lswlen &&& 63) ↔ 55 < rest.length := by
    rw [UInt32.lt_iff_toNat_lt, and_63, hrest]
    rfl
  rw [MDfinish]
  simp only [lastWords hrest, gt_iff_lt, hlast]
  split
  · -- the length goes to the next block
    rename_i hlong
    have hzeros : List.replicate 16 (0 : UInt32) =
        loadWords (List.replicate 56 0 ++ List.replicate 8 0) := rfl
    have hsplit : rest ++ 0x80 :: List.replicate ((119 - rest.length) % 64) 0 ++
        leBytes 8 (8 * lswlen.toNat) =
          (rest ++ 0x80 :: List.replicate (63 - rest.length) 0) ++
            (List.replicate 56 0 ++ leBytes 8 (8 * lswlen.toNat)) := by
      rw [show (119 - rest.length) % 64 = (63 - rest.length) + 56 by omega, ← List.replicate_append_replicate]
      simp
    rw [hzeros, set_length (by simp), length_bytes, compress_eq, compress_eq, hsplit,
      absorb_block_append _ (by decide) (by simp; omega), absorb_block _ (by decide) (by simp)]
  · rename_i hshort
    have hsplit : rest ++ 0x80 :: List.replicate (63 - rest.length) 0 =
        (rest ++ 0x80 :: List.replicate ((119 - rest.length) % 64) 0) ++ List.replicate 8 0 := by
      rw [show 63 - rest.length = (119 - rest.length) % 64 + 8 by omega, ← List.replicate_append_replicate]
      simp
    have hfront : (rest ++ 0x80 :: List.replicate ((119 - rest.length) % 64) (0 : UInt8)).length = 56 := by
      simp
      omega
    rw [hsplit, set_length hfront, length_bytes, compress_eq,
      absorb_block _ (by decide) (by rw [List.length_append, hfront, leBytes_length])]

/-! ## The digest -/

theorem wordBytes_eq (w : UInt32) : wordBytes w = storeWord w := by
  have hbyte : ∀ x : UInt32, x.toUInt8 = UInt8.ofNat (x.toNat % 256) := by
    intro x
    apply UInt8.toNat_inj.mp
    simp
  have hshift : ∀ s < 32, (w >>> UInt32.ofNat s).toNat = w.toNat / 2 ^ s := by
    intro s hs
    rw [UInt32.toNat_shiftRight, UInt32.toNat_ofNat', Nat.mod_eq_of_lt (by omega : s < 2 ^ 32),
      Nat.mod_eq_of_lt hs, Nat.shiftRight_eq_div_pow]
  simp only [wordBytes, storeWord, leBytes, hbyte, Nat.div_div_eq_div_mul]
  rw [show (8 : UInt32) = UInt32.ofNat 8 by rfl, show (16 : UInt32) = UInt32.ofNat 16 by rfl,
    show (24 : UInt32) = UInt32.ofNat 24 by rfl, hshift 8 (by decide), hshift 16 (by decide),
    hshift 24 (by decide)]
  rfl

theorem length_remainder_toNat (length : UInt32) (message : Memory) :
    (remainder 64 (window message 0 length.toNat)).length = length.toNat % 64 := by
  rw [length_remainder, window_length]

/-- The digest of the code is the digest of the standard, for every message and every length that
fits the parameter. -/
theorem computeRIPEMD160_eq (message : Memory) (length : UInt32) :
    computeRIPEMD160 message length = standard.digest (window message 0 length.toNat) := by
  have hlen := length_remainder_toNat length message
  rw [computeRIPEMD160, wholeBlocks_eq, standard.digest, standard.padded, List.append_assoc,
    absorb_append _ (by decide), ← List.append_assoc]
  simp only [MDfinish_eq _ _ _ hlen, hlen, window_length]
  exact List.flatMap_congr (fun w _ => wordBytes_eq w)

/-! ## Equal digests -/

def compressBlock (buf : MDbuf) (block : List UInt8) : MDbuf := compress buf (loadWords block)

/-- The words and the block of each call of `compress` for a message, in their order. -/
def compressCalls (message : List UInt8) : List (MDbuf × List UInt8) :=
  steps compressBlock MDinit (blocks 64 (standard.padded message))

theorem padded_eq (message : List UInt8) : standard.padded message =
    strengthened 64 8 0x80 0 (fun len => leBytes 8 (8 * len)) message := rfl

theorem words_injective {buf buf' : MDbuf} (h : buf.words = buf'.words) : buf = buf' := by
  cases buf
  cases buf'
  simpa [MDbuf.words] using h

theorem storeWord_injective : Function.Injective storeWord := by
  intro x y h
  rw [← loadWord_storeWord x, h, loadWord_storeWord]

theorem absorb_of_digest_eq {x y : List UInt8} (h : standard.digest x = standard.digest y) :
    absorb compressBlock 64 MDinit (standard.padded x) =
      absorb compressBlock 64 MDinit (standard.padded y) := by
  have hblock : compressBlock = standard.compress := funext fun buf => funext (compress_eq buf)
  have hlen : ∀ w : UInt32, (storeWord w).length = 4 := fun w => leBytes_length 4 _
  rw [hblock]
  exact words_injective (flatMap_injective storeWord_injective hlen rfl h)

theorem length_padded (message : List UInt8) : 64 ∣ (standard.padded message).length := by
  rw [padded_eq]
  exact dvd_length_strengthened (by decide) (fun len => leBytes_length 8 _) message

theorem padded_suffix_free {x y : List UInt8} (hx : x.length < 2 ^ 32) (hy : y.length < 2 ^ 32)
    (h : standard.padded x <:+ standard.padded y) : x = y := by
  rw [padded_eq, padded_eq] at h
  refine strengthened_suffix_free (fun len => leBytes_length 8 _) ?_ h
  intro heq
  have := leBytes_injective (by norm_num; omega) (by norm_num; omega) heq
  omega

/-- Two different messages with one digest. -/
theorem calls_collide {x y : List UInt8} (hx : x.length < 2 ^ 32) (hy : y.length < 2 ^ 32)
    (hne : x ≠ y) (h : standard.digest x = standard.digest y) :
    Collide compressBlock (compressCalls x) (compressCalls y) :=
  collide_of_absorb_eq compressBlock (by decide) (length_padded x) (length_padded y)
    (fun hends => hne (padded_suffix_free hx hy hends))
    (fun hends => hne (padded_suffix_free hy hx hends).symm) (absorb_of_digest_eq h)

end bitcoinstats.ripemd160
