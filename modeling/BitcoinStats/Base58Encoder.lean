-- What `CBEncodeBase58` writes for every number, and when it runs out of room.
-- The number comes with the zero bytes at its top, so the first turn of the
-- loop is taken even where one digit is all that there is to write.
import BitcoinStats.AddressRoundTrip
import Mathlib.Data.List.TakeWhile

open byte_memory

namespace bitcoinstats.base58

open bitcoinstats.bitcoin_address
  (beVal encodeBase58_bigEndian holds_ofBytes digits_fit zero_not_mem_text)

/-! ## A number below 58 behind zero bytes -/

/-- The whole of a number is taken from it: one zero byte is left. -/
theorem subtraction_to_zero {a : BigNumber} {b : UInt8} (hval : b.toNat = a.value)
    (hpos : 0 < a.length) (hlen : a.length ≤ 255) :
    ∃ a', a.equalsSubtractionByUInt8 b = some a' ∧ a'.length = 1 ∧ a'.data 0 = 0 := by
  obtain ⟨a', hrun, hleaves, hnormal⟩ := subtraction_exact a b hval.le hpos hlen
  have hzero : a'.value = 0 := by
    rw [hleaves.value]
    omega
  have hpow : 0 < 256 ^ (a'.length - 1) := by positivity
  -- a second byte would not be 0
  have hone : a'.length = 1 := by
    by_contra hne
    have hpos' := hleaves.pos
    have hle := normal_iff.mp hnormal (by omega)
    omega
  exact ⟨a', hrun, hone, data_zero_above (k := 0) (by omega) (le_refl 0) hleaves.pos⟩

/-- The loop takes one turn for a number below 58 of two bytes or more. -/
theorem encodeLoop_tiny (maxStrLen fuel : Nat) {a : BigNumber} (str : List UInt8)
    (hval : a.value < 58) (hlen : 1 < a.length) (hmax : a.length ≤ 255)
    (hroom : str.length + 3 ≤ maxStrLen) :
    ∃ a', encodeLoop maxStrLen (fuel + 2) a str =
      some (true, a', str ++ [digitChar a.value]) ∧ a'.length = 1 ∧ a'.data 0 = 0 := by
  have hdigit : (UInt8.ofNat (a.value % 58)).toNat = a.value := by
    simp
    omega
  obtain ⟨a', hsub, hlen', hzero⟩ :=
    subtraction_to_zero (a := a) (b := UInt8.ofNat (a.value % 58)) hdigit (by omega) hmax
  have hmore : a.compareTo58 ≠ .CB_COMPARE_LESS_THAN := by simp [BigNumber.compareTo58, hlen]
  have hless : a'.compareTo58 = .CB_COMPARE_LESS_THAN := by
    simp [BigNumber.compareTo58, hlen', hzero]
  have hdiv : a'.equalsDivisionBy58 = some a' := by
    unfold BigNumber.equalsDivisionBy58
    rw [if_pos ⟨hlen', hzero⟩]
  refine ⟨a', ?_, hlen', hzero⟩
  unfold encodeLoop
  rw [if_neg hmore, moduloWith58_value (by omega) (by omega)]
  simp only [Option.bind_eq_bind, Option.bind_some]
  rw [if_neg (by omega), hdigit, digitChar_get _ hval]
  simp only [Option.bind_some, hsub, hdiv]
  unfold encodeLoop
  rw [if_pos hless]

/-! ## Out of room -/

/-- A turn without room for three more characters is the last. -/
theorem encodeLoop_stop {maxStrLen fuel : Nat} {a : BigNumber} {str : List UInt8}
    (hmore : a.compareTo58 ≠ .CB_COMPARE_LESS_THAN) (hpos : 0 < a.length) (hlen : a.length ≤ 255)
    (hfits : a.length ≤ maxStrLen) (hroom : maxStrLen < str.length + 3) :
    encodeLoop maxStrLen (fuel + 1) a str = some (false, a, str) := by
  unfold encodeLoop
  rw [if_neg hmore, moduloWith58_value hpos (by omega)]
  simp only [Option.bind_eq_bind, Option.bind_some]
  rw [if_pos ⟨by omega, hroom⟩]

/-- Without room for all digits and the closing zero the loop stops, and it
stops with the characters so far inside of the output. -/
theorem encodeLoop_full (maxStrLen : Nat) (a : BigNumber) (n fuel : Nat) (str : List UInt8)
    (ha : Canonical a n) (hn : 58 ≤ n) (hlen : a.length ≤ 255) (hfits : a.length ≤ maxStrLen)
    (hstr : str.length ≤ maxStrLen) (hfuel : (Nat.digits 58 n).length ≤ fuel)
    (hroom : maxStrLen ≤ str.length + (Nat.digits 58 n).length) :
    ∃ a' str', encodeLoop maxStrLen fuel a str = some (false, a', str') ∧
      str'.length ≤ maxStrLen := by
  induction n using Nat.strong_induction_on generalizing a fuel str with
  | _ n ih =>
    have hmore : a.compareTo58 ≠ .CB_COMPARE_LESS_THAN := by
      intro hless
      have hlt := (compareTo58_canonical ha (by omega)).mp hless
      omega
    have hdigits := digits_step hn
    have hrest := digits_length_pos (n := n / 58) (by omega)
    rw [hdigits, List.length_cons] at hfuel hroom
    obtain ⟨fuel, rfl⟩ : ∃ f, fuel = f + 1 := ⟨fuel - 1, by omega⟩
    rcases Nat.lt_or_ge maxStrLen (str.length + 3) with hstop | hgo
    · exact ⟨a, str, encodeLoop_stop hmore (ha.length_pos (by omega)) hlen hfits hstop, hstr⟩
    · obtain ⟨a1, h1, hrun⟩ := encodeLoop_step maxStrLen fuel str hmore
        (by rw [ha.value]; exact hn) hlen hgo
      rw [ha.value] at h1 hrun
      have hlen1 : a1.length ≤ a.length :=
        h1.length_le (Nat.lt_of_le_of_lt (Nat.div_le_self n 58) ha.lt)
      rcases Nat.lt_or_ge (n / 58) 58 with hlast | hmany
      · rw [Nat.digits_of_lt 58 (n / 58) (by omega) hlast] at hroom
        simp only [List.length_cons, List.length_nil] at hroom
        omega
      · rw [hrun]
        exact ih (n / 58) (by omega) a1 fuel _ h1 hmany (by omega) (by omega) (by simp; omega)
          (by omega) (by simp; omega)

/-! ## Every number -/

/-- The digits that the encoder writes, lowest first: never fewer than two. -/
def writtenDigits (n : Nat) : List Nat := if n < 58 then [n, 0] else Nat.digits 58 n

section Number

variable {a : BigNumber} {z : Nat}

/-- With room for the characters and the closing zero all of them are written. -/
theorem cbEncodeBase58_room (maxStrLen : Nat)
    (hzeros : leadingZeros a.data a.length [] = List.replicate z 49) (hlen : 1 < a.length)
    (hmax : a.length ≤ 255) (hfits : a.length ≤ maxStrLen)
    (hroom : z + (writtenDigits a.value).length < maxStrLen) :
    cbEncodeBase58 a maxStrLen =
      some (true, List.replicate z 49 ++ textOf (writtenDigits a.value) ++ [0]) := by
  unfold writtenDigits at hroom ⊢
  split at hroom
  · rename_i htiny
    simp only [List.length_cons, List.length_nil] at hroom
    rw [if_pos htiny]
    obtain ⟨a', hloop, hlen', hzero⟩ := encodeLoop_tiny maxStrLen (2 * a.length)
      (List.replicate z 49) htiny hlen hmax (by simp; omega)
    have hlower : [digitChar a.value] = [a.value].map digitChar := rfl
    rw [hlower] at hloop
    exact cbEncodeBase58_of_loop hzeros (by omega) hmax hfits hloop hlen' (congrArg _ hzero)
      (by decide)
  · rename_i hlarge
    rw [if_neg hlarge]
    exact encode_digits maxStrLen hzeros (by omega) hlen hmax hfits hroom

theorem cbEncodeBase58_of_stop {a' : BigNumber} {maxStrLen : Nat} {str : List UInt8}
    (hzeros : leadingZeros a.data a.length [] = List.replicate z 49) (hpos : 0 < a.length)
    (hmax : a.length ≤ 255) (hfits : a.length ≤ maxStrLen)
    (hloop : encodeLoop maxStrLen (2 * a.length + 2) a (List.replicate z 49) =
      some (false, a', str)) : cbEncodeBase58 a maxStrLen = some (false, str) := by
  unfold cbEncodeBase58
  rw [if_neg (by omega), if_neg (by rw [MAX_BIG_NUMBER]; omega)]
  simp only [hzeros, Option.bind_eq_bind]
  rw [hloop]
  simp

/-- Without it the encoder fails, with what it wrote inside of the output. -/
theorem cbEncodeBase58_full (maxStrLen : Nat)
    (hzeros : leadingZeros a.data a.length [] = List.replicate z 49) (hz : z ≤ a.length)
    (hlen : 1 < a.length) (hmax : a.length ≤ 255) (hfits : a.length ≤ maxStrLen)
    (hroom : maxStrLen ≤ z + (writtenDigits a.value).length) :
    ∃ str, cbEncodeBase58 a maxStrLen = some (false, str) ∧ str.length ≤ maxStrLen := by
  have hmore : a.compareTo58 ≠ .CB_COMPARE_LESS_THAN := by simp [BigNumber.compareTo58, hlen]
  have hones : (List.replicate z (49 : UInt8)).length = z := List.length_replicate
  rcases Nat.lt_or_ge maxStrLen (z + 3) with hstop | hgo
  · have hloop := @encodeLoop_stop _ (2 * a.length + 1) _ _ hmore (by omega) hmax hfits
      (by rw [hones]; exact hstop)
    exact ⟨_, cbEncodeBase58_of_stop hzeros (by omega) hmax hfits hloop, by omega⟩
  have hlarge : ¬ a.value < 58 := by
    intro htiny
    rw [writtenDigits, if_pos htiny] at hroom
    simp only [List.length_cons, List.length_nil] at hroom
    omega
  rw [writtenDigits, if_neg hlarge, digits_step (by omega), List.length_cons] at hroom
  obtain ⟨a1, h1, hfirst⟩ := encodeLoop_step maxStrLen (2 * a.length + 1)
    (List.replicate z 49) hmore (by omega) hmax (by rw [hones]; exact hgo)
  have hlen1 : a1.length ≤ a.length :=
    h1.length_le (Nat.lt_of_le_of_lt (Nat.div_le_self _ 58) (readLe_lt a.data 0 a.length))
  have hmany : 58 ≤ a.value / 58 := by
    by_contra hone
    rw [Nat.digits_of_lt 58 (a.value / 58) (by omega) (by omega)] at hroom
    simp only [List.length_cons, List.length_nil] at hroom
    omega
  have hfuel := digits_length_le a
  rw [digits_step (by omega), List.length_cons] at hfuel
  obtain ⟨a2, str, hloop, hstr⟩ := encodeLoop_full maxStrLen a1 (a.value / 58) (2 * a.length + 1)
    (List.replicate z 49 ++ [digitChar (a.value % 58)]) h1 hmany (by omega) (by omega)
    (by simp; omega) (by omega) (by simp; omega)
  rw [← hfirst] at hloop
  exact ⟨str, cbEncodeBase58_of_stop hzeros (by omega) hmax hfits hloop, hstr⟩

end Number

/-! ## 25 bytes -/

/-- The count of the zero bytes at the start. -/
def leadingZeroBytes (bytes : List UInt8) : Nat := (bytes.takeWhile (· = 0)).length

theorem leadingZeros_eq (data : Memory) (n : Nat) (str : List UInt8) :
    leadingZeros data n str =
      str ++ List.replicate (leadingZeroBytes (window data 0 n).reverse) 49 := by
  induction n generalizing str with
  | zero => simp [leadingZeros, leadingZeroBytes]
  | succ n ih =>
    have hsplit : (window data 0 (n + 1)).reverse = data n :: (window data 0 n).reverse := by
      rw [window_add]
      simp [window]
    rw [hsplit]
    unfold leadingZeros
    by_cases h : data n = 0
    · rw [if_pos h, ih]
      simp [leadingZeroBytes, h, List.replicate_succ]
    · rw [if_neg h]
      simp [leadingZeroBytes, h]

/-- The number that `encodeBase58` hands on. -/
def numberOf (bytes : Vector UInt8 25) : BigNumber := BigNumber.ofBytes bytes.toList.reverse 25

variable (bytes : Vector UInt8 25)

theorem numberOf_length : (numberOf bytes).length = 25 := rfl

theorem numberOf_window : window (numberOf bytes).data 0 25 = bytes.toList.reverse :=
  (holds_ofBytes bytes.toList.reverse 25).window_eq (by simp)

theorem numberOf_value : (numberOf bytes).value = beVal bytes.toList := by
  rw [BigNumber.value, readLe, numberOf_length, numberOf_window, beVal]

theorem numberOf_zeros : leadingZeros (numberOf bytes).data (numberOf bytes).length [] =
    List.replicate (leadingZeroBytes bytes.toList) 49 := by
  rw [leadingZeros_eq, numberOf_length, numberOf_window, List.reverse_reverse, List.nil_append]

/-- The zero bytes are among the 25, and the number fits in the others. -/
theorem leadingZeroBytes_fit : leadingZeroBytes bytes.toList ≤ 25 ∧
    beVal bytes.toList < 256 ^ (25 - leadingZeroBytes bytes.toList) := by
  obtain ⟨z, hz, hrun, hcan⟩ := leadingZeros_spec (numberOf bytes) 25 []
  have hzeros := numberOf_zeros bytes
  rw [numberOf_length, hrun, List.nil_append] at hzeros
  have hsame : z = leadingZeroBytes bytes.toList := by
    simpa using congrArg List.length hzeros
  rw [← hsame]
  have hlt := hcan.lt
  rw [← numberOf_length bytes, ← BigNumber.value, numberOf_value, numberOf_length] at hlt
  exact ⟨hz, hlt⟩

/-- The Base58 text: a `1` for each zero byte at the start, and the digits of
the number without leading zero digits. -/
def base58Text (bytes : List UInt8) : List UInt8 :=
  List.replicate (leadingZeroBytes bytes) 49 ++ textOf (Nat.digits 58 (beVal bytes))

/-- The text that the encoder writes. -/
def writtenText (bytes : List UInt8) : List UInt8 :=
  List.replicate (leadingZeroBytes bytes) 49 ++ textOf (writtenDigits (beVal bytes))

theorem writtenText_length : (writtenText bytes.toList).length =
    leadingZeroBytes bytes.toList + (writtenDigits (beVal bytes.toList)).length := by
  simp [writtenText, textOf]

theorem writtenText_length_le : (writtenText bytes.toList).length ≤ 35 := by
  obtain ⟨hz, hlt⟩ := leadingZeroBytes_fit bytes
  have hfit := digits_fit hz hlt
  rw [writtenText_length, writtenDigits]
  split
  · simp only [List.length_cons, List.length_nil]
    omega
  · exact hfit

/-- The digits too many are more ones before the digits of the number. -/
theorem writtenText_ones (bytes : List UInt8) :
    ∃ z, writtenText bytes = List.replicate z 49 ++ textOf (Nat.digits 58 (beVal bytes)) := by
  have hones : ∀ z n, List.replicate z (49 : UInt8) ++ textOf [n, 0] =
      List.replicate (z + 1) 49 ++ textOf [n] := by
    intro z n
    rw [List.replicate_succ', List.append_assoc]
    rfl
  unfold writtenText writtenDigits
  by_cases htiny : beVal bytes < 58
  · rw [if_pos htiny, hones]
    rcases Nat.eq_zero_or_pos (beVal bytes) with h0 | hpos
    · refine ⟨leadingZeroBytes bytes + 2, ?_⟩
      rw [h0, Nat.digits_zero, List.replicate_succ' (n := leadingZeroBytes bytes + 1),
        List.append_assoc]
      rfl
    · exact ⟨_, by rw [Nat.digits_of_lt 58 _ (by omega) htiny]⟩
  · exact ⟨_, by rw [if_neg htiny]⟩

/-- The text spells the number of the bytes, so 25 bytes are known from it. -/
theorem spelled_writtenText (bytes : List UInt8) :
    spelled charIndex (writtenText bytes) = beVal bytes := by
  obtain ⟨z, hz⟩ := writtenText_ones bytes
  rw [hz, spelled_text]

theorem writtenText_inj {a b : Vector UInt8 25} :
    writtenText a.toList = writtenText b.toList ↔ a = b := by
  constructor
  · intro h
    have hval := congrArg (spelled charIndex) h
    rw [spelled_writtenText, spelled_writtenText, beVal, beVal] at hval
    have ha := leBytes_leVal a.toList.reverse
    have hb := leBytes_leVal b.toList.reverse
    have hlength : a.toList.reverse.length = b.toList.reverse.length := by simp
    rw [hval, hlength, hb] at ha
    exact Vector.toList_inj.mp (List.reverse_injective ha.symm)
  · rintro rfl
    rfl

/-- The characters of the text are all in the alphabet of the encoder. -/
theorem mem_writtenText {bytes : List UInt8} {c : UInt8} (h : c ∈ writtenText bytes) :
    ∃ d < 58, c = digitChar d := by
  obtain ⟨z, hz⟩ := writtenText_ones bytes
  rw [hz] at h
  rcases List.mem_append.mp h with hone | hdigit
  · exact ⟨0, by omega, (List.mem_replicate.mp hone).2⟩
  · simp only [textOf, List.mem_map, List.mem_reverse] at hdigit
    obtain ⟨d, hd, hchar⟩ := hdigit
    exact ⟨d, digits_lt _ d hd, hchar.symm⟩

/-- No character of the text is the closing zero. -/
theorem writtenText_ne_zero : 0 ∉ writtenText bytes.toList := by
  intro h0
  obtain ⟨d, hd, hchar⟩ := mem_writtenText h0
  exact digitChar_ne_zero d hd hchar.symm

theorem encodeBase58_room {maxStrLen : Nat} (hfits : 25 ≤ maxStrLen)
    (hroom : (writtenText bytes.toList).length < maxStrLen) :
    encodeBase58 bytes.toList 25 true maxStrLen = some (true, writtenText bytes.toList ++ [0]) := by
  rw [writtenText_length, ← numberOf_value] at hroom
  rw [encodeBase58_bigEndian (by simp), ← numberOf,
    cbEncodeBase58_room maxStrLen (numberOf_zeros bytes) (by rw [numberOf_length]; omega)
      (by rw [numberOf_length]; omega) hfits hroom, numberOf_value, writtenText]

theorem encodeBase58_full {maxStrLen : Nat} (hfits : 25 ≤ maxStrLen)
    (hroom : maxStrLen ≤ (writtenText bytes.toList).length) :
    ∃ str, encodeBase58 bytes.toList 25 true maxStrLen = some (false, str) ∧
      str.length ≤ maxStrLen := by
  rw [writtenText_length, ← numberOf_value] at hroom
  rw [encodeBase58_bigEndian (by simp), ← numberOf]
  exact cbEncodeBase58_full maxStrLen (numberOf_zeros bytes) (leadingZeroBytes_fit bytes).1
    (by rw [numberOf_length]; omega) (by rw [numberOf_length]; omega) hfits hroom

theorem encodeBase58_short {maxStrLen : Nat} (h : maxStrLen < 25) :
    encodeBase58 bytes.toList 25 true maxStrLen = some (false, []) := by
  rw [encodeBase58_bigEndian (by simp), ← numberOf, cbEncodeBase58, numberOf_length, if_pos h]

/-- The encoder writes the Base58 text of 25 bytes exactly when their number is
58 or more: a smaller one gets a digit too many, `1`. -/
theorem the_encoder_is_the_reference_exactly_from_58_on {maxStrLen : Nat} (h : 64 ≤ maxStrLen) :
    encodeBase58 bytes.toList 25 true maxStrLen = some (true, base58Text bytes.toList ++ [0]) ↔
      58 ≤ beVal bytes.toList := by
  have hshort := writtenText_length_le bytes
  rw [encodeBase58_room bytes (by omega) (by omega), writtenText, base58Text, writtenDigits]
  constructor
  · intro hsame
    by_contra hsmall
    have hdigits := (Nat.digits_length_le_iff (b := 58) (k := 1) (by omega)
      (beVal bytes.toList)).mpr (by omega)
    rw [if_pos (by omega)] at hsame
    have hlen := congrArg (fun r => (r.elim 0 fun p => p.2.length : Nat)) hsame
    simp [textOf] at hlen
    omega
  · intro hlarge
    rw [if_neg (by omega)]

theorem the_encoder_is_the_reference_on_eights :
    encodeBase58 (Vector.replicate 25 (8 : UInt8)).toList 25 true 64 =
        some (true, base58Text (Vector.replicate 25 (8 : UInt8)).toList ++ [0]) ↔
      58 ≤ beVal (Vector.replicate 25 (8 : UInt8)).toList :=
  the_encoder_is_the_reference_exactly_from_58_on _ (le_refl 64)

/-- 25 zero bytes get 27 ones. -/
theorem the_encoder_adds_ones_to_zero :
    ¬ ∀ (bytes : Vector UInt8 25) (maxStrLen : Nat), 64 ≤ maxStrLen →
      encodeBase58 bytes.toList 25 true maxStrLen =
        some (true, base58Text bytes.toList ++ [0]) := by
  intro h
  have hzero := h (Vector.replicate 25 0) 64 (le_refl 64)
  rw [encodeBase58_room _ (by decide) (by decide)] at hzero
  exact absurd hzero (by decide)

end bitcoinstats.base58
