-- The ASCII form of an address reads back as the address.
import BitcoinStats.BitcoinAddress
import BitcoinStats.Base58RoundTrip

open byte_memory bitcoinstats.base58

namespace bitcoinstats.bitcoin_address

/-! ## Blocks of 25 bytes -/

/-- The number that a byte string spells, highest byte first. -/
def beVal (bytes : List UInt8) : Nat := leVal bytes.reverse

theorem mapM_of_some {α β : Type} {f : α → Option β} {g : α → β} (l : List α)
    (h : ∀ x ∈ l, f x = some (g x)) : l.mapM f = some (l.map g) := by
  induction l with
  | nil => rfl
  | cons x l ih =>
    have hx := h x (by simp)
    have hl := ih (fun y hy => h y (by simp [hy]))
    simp [hx, hl]

/-- The copy turns the bytes around. -/
theorem encodeBase58_bigEndian {bytes : List UInt8} (h : bytes.length = 25) (maxStrLen : Nat) :
    encodeBase58 bytes 25 true maxStrLen =
      cbEncodeBase58 (BigNumber.ofBytes bytes.reverse 25) maxStrLen := by
  have hget : ∀ i < 25, bytes[25 - 1 - i]? = some (bytes.reverse.getD i 0) := by
    intro i hi
    rw [List.getD_eq_getElem?_getD, List.getElem?_reverse (by omega), h,
      List.getElem?_eq_getElem (by omega)]
    rfl
  have hcopy : (List.range 25).mapM (fun i => if i < 25 then bytes[25 - 1 - i]? else none) =
      some bytes.reverse := by
    rw [mapM_of_some (g := fun i => bytes.reverse.getD i 0)]
    · congr 1
      apply List.ext_getElem
      · simp [h]
      · intro i h1 h2
        simp [List.getD_eq_getElem?_getD, h, (by simpa using h1 : i < 25)]
    · intro i hi
      have hi25 := List.mem_range.mp hi
      rw [if_pos hi25, hget i hi25]
  unfold encodeBase58
  rw [if_pos (by omega), if_pos rfl, hcopy]
  rfl

theorem holds_ofBytes (bytes : List UInt8) (n : Nat) :
    Holds (BigNumber.ofBytes bytes n).data 0 bytes := by
  rw [holds_iff]
  intro i hi
  simp [BigNumber.ofBytes, List.getD_eq_getElem?_getD, hi]

/-- The text has at most 35 characters: `256 ^ 25 < 58 ^ 35`, and each zero
byte at the top needs one character for its eight bits. -/
theorem digits_fit {n z : Nat} (hz : z ≤ 25) (h : n < 256 ^ (25 - z)) :
    z + (Nat.digits 58 n).length ≤ 35 := by
  have hpow : ∀ z ≤ 25, 256 ^ (25 - z) ≤ 58 ^ (35 - z) := by decide
  have hlen := (Nat.digits_length_le_iff (b := 58) (k := 35 - z) (by omega) n).mpr
    (Nat.lt_of_lt_of_le h (hpow z hz))
  omega

/-- The decoder turns the bytes back around. -/
theorem decodeBase58_bigEndian {bytes s : List UInt8} {bi : BigNumber} (hlen : bytes.length = 25)
    (hrun : cbDecodeBase58 (BigNumber.zeroed 0) s = some bi) (hbi : bi.length = 25)
    (hval : readLe bi.data 0 25 = beVal bytes) : decodeBase58 s 25 true = some (25, bytes) := by
  have hwin : window bi.data 0 25 = bytes.reverse := by
    have h1 := leBytes_leVal (window bi.data 0 25)
    have h2 := leBytes_leVal bytes.reverse
    rw [window_length] at h1
    rw [List.length_reverse, hlen] at h2
    rw [← h1, ← h2]
    exact congrArg (leBytes 25) hval
  unfold decodeBase58
  simp only [Option.bind_eq_bind, hrun, Option.bind_some, hbi, le_refl, if_true]
  rw [hwin, List.reverse_reverse]

theorem zero_not_mem_text (z n : Nat) :
    0 ∉ List.replicate z 49 ++ textOf (Nat.digits 58 n) := by
  intro h0
  rcases List.mem_append.mp h0 with h | h
  · exact absurd (List.mem_replicate.mp h).2 (by decide)
  · simp only [textOf, List.mem_map, List.mem_reverse] at h
    obtain ⟨d, hd, hchar⟩ := h
    exact digitChar_ne_zero d (digits_lt _ d hd) hchar

/-- 25 bytes that spell 58 or more come back from their text. -/
theorem base58_round_trip {bytes : List UInt8} (hlen : bytes.length = 25)
    (hval : 58 ≤ beVal bytes) :
    ∃ s, s.length ≤ 35 ∧ 0 ∉ s ∧ decodeBase58 s 25 true = some (25, bytes) ∧
      ∀ maxStrLen, 36 ≤ maxStrLen → encodeBase58 bytes 25 true maxStrLen = some (true, s ++ [0]) := by
  obtain ⟨n, hn⟩ : ∃ n, n = beVal bytes := ⟨_, rfl⟩
  obtain ⟨a, ha⟩ : ∃ a, a = BigNumber.ofBytes bytes.reverse 25 := ⟨_, rfl⟩
  have halen : a.length = 25 := by rw [ha, BigNumber.ofBytes]
  have haval : a.value = n := by
    have hwin := (holds_ofBytes bytes.reverse 25).window_eq (n := 25) (by simpa using hlen)
    rw [BigNumber.value, readLe, halen, ha, hwin, hn, beVal]
  rw [← hn] at hval
  obtain ⟨z, hz, hzeros, hcan⟩ := leadingZeros_spec a 25 []
  rw [List.nil_append] at hzeros
  have hread : readLe a.data 0 25 = n := by
    rw [← haval, BigNumber.value, halen]
  rw [hread] at hcan
  have hfit : n < 256 ^ (25 - z) := hcan.lt
  have htop : 0 < 25 - z → 256 ^ (25 - z - 1) ≤ n := hcan.top
  have hshort := digits_fit hz hfit
  obtain ⟨bi, hrun, hbilen, hbival⟩ :=
    decode_digits (n := n) (z := z) (k := 25 - z) (by omega) (by omega) hfit htop
  rw [Nat.sub_add_cancel hz] at hbilen hbival
  refine ⟨List.replicate z 49 ++ textOf (Nat.digits 58 n), ?_, zero_not_mem_text z n,
    decodeBase58_bigEndian hlen hrun hbilen (hbival.trans hn), ?_⟩
  · rw [List.length_append, List.length_replicate, textOf, List.length_map, List.length_reverse]
    exact hshort
  · intro maxStrLen hmax
    have hencode := encode_digits maxStrLen (by rw [halen]; exact hzeros)
      (by rw [haval]; exact hval) (by omega) (by omega) (by omega) (by rw [haval]; omega)
    rw [haval] at hencode
    rw [encodeBase58_bigEndian hlen, ← ha, hencode, textOf]

/-! ## Addresses -/

variable (H : Hashes)

/-- The addresses that the two functions from a hash make. -/
def IsAddress (address : Vector UInt8 25) : Prop :=
  ∃ ripeMD160, address = bitcoinRIPEMD160ToAddress H ripeMD160 ∨
    address = bitcoinRIPEMD160ToScriptAddress H ripeMD160

theorem leVal_pos {bytes : List UInt8} {b : UInt8} (hb : b ∈ bytes) (h0 : b ≠ 0) :
    0 < leVal bytes := by
  induction bytes with
  | nil => cases hb
  | cons x xs ih =>
    rw [leVal_cons]
    rcases List.mem_cons.mp hb with rfl | h
    · have : 0 < b.toNat := Nat.pos_of_ne_zero (fun h => h0 (UInt8.toNat_inj.mp h))
      omega
    · have := ih h
      omega

/-- Only 21 zero bytes leave the number to the checksum alone. -/
theorem toAddress_value (version : UInt8) (ripeMD160 : Vector UInt8 20)
    (hsum : 58 ≤ beVal (checksum H (Vector.replicate 21 0)).toList) :
    58 ≤ beVal (toAddress H version ripeMD160).toList := by
  have hsplit : beVal (toAddress H version ripeMD160).toList =
      beVal (checksum H (versioned version ripeMD160)).toList +
        256 ^ 4 * beVal (versioned version ripeMD160).toList := by
    simp only [toAddress, beVal, Vector.toList_append, List.reverse_append, leVal_append,
      List.length_reverse, Vector.length_toList]
  rw [hsplit]
  by_cases h : versioned version ripeMD160 = Vector.replicate 21 0
  · rw [h]
    omega
  · have hbyte : ∃ b ∈ (versioned version ripeMD160).toList, b ≠ 0 := by
      by_contra hall
      push Not at hall
      apply h
      apply Vector.toList_inj.mp
      rw [List.eq_replicate_of_mem hall]
      simp
    obtain ⟨b, hb, h0⟩ := hbyte
    have hpos : 0 < beVal (versioned version ripeMD160).toList :=
      leVal_pos (List.mem_reverse.mpr hb) h0
    omega

theorem stored_toList (address output : Vector UInt8 25) : stored address.toList output = address := by
  apply Vector.ext
  intro i hi
  simp [stored, List.getD_eq_getElem?_getD]

theorem toAddress_take (version : UInt8) (ripeMD160 : Vector UInt8 20) :
    (toAddress H version ripeMD160).toList.take 21 = (versioned version ripeMD160).toList := by
  rw [toAddress, Vector.toList_append, List.take_left' (Vector.length_toList)]

theorem toAddress_inj {version : UInt8} {a b : Vector UInt8 20} :
    toAddress H version a = toAddress H version b ↔ a = b := by
  constructor
  · intro h
    have hversioned := (Vector.append_inj h).1
    exact (Vector.append_inj hversioned).2
  · rintro rfl
    rfl

/-- The checksum of an address is its own. -/
theorem asciiToAddress_of_decode {version : UInt8} {ripeMD160 : Vector UInt8 20} {s : List UInt8}
    (h : decodeBase58 s 25 true = some (25, (toAddress H version ripeMD160).toList))
    (output : Vector UInt8 25) :
    bitcoinAsciiToAddress H s output = some (true, toAddress H version ripeMD160) := by
  have hchecksum : (toAddress H version ripeMD160)[21] =
      (H.doubleSHA256 (versioned version ripeMD160).toList)[0] := by
    rw [toAddress, Vector.getElem_append_right (by omega) (by omega)]
    rfl
  unfold bitcoinAsciiToAddress
  simp only [Option.bind_eq_bind, h, Option.bind_some, stored_toList, toAddress_take, hchecksum]
  simp

/-- Every address has one text of at most 35 characters, which the encoder
stores with its closing zero into any room of 36 or more. It reads back as the
address, so no other address has the same text. -/
theorem an_address_reads_back_from_its_text
    (hsum : 58 ≤ beVal (checksum H (Vector.replicate 21 0)).toList)
    (address : Vector UInt8 25) (h : IsAddress H address) :
    ∃ s, s.length ≤ 35 ∧ 0 ∉ s ∧
      (∀ maxOutputLen, 36 ≤ maxOutputLen →
        bitcoinAddressToAscii address maxOutputLen = some (true, s ++ [0])) ∧
      (∀ output, bitcoinAsciiToAddress H s output = some (true, address)) ∧
      ∀ address' maxOutputLen', IsAddress H address' → 36 ≤ maxOutputLen' →
        bitcoinAddressToAscii address' maxOutputLen' = some (true, s ++ [0]) →
        address' = address := by
  have hround : ∀ address, IsAddress H address → ∃ s, s.length ≤ 35 ∧ 0 ∉ s ∧
      (∀ maxOutputLen, 36 ≤ maxOutputLen →
        bitcoinAddressToAscii address maxOutputLen = some (true, s ++ [0])) ∧
      ∀ output, bitcoinAsciiToAddress H s output = some (true, address) := by
    intro address h
    obtain ⟨version, ripeMD160, rfl⟩ : ∃ version ripeMD160,
        address = toAddress H version ripeMD160 := by
      rcases h with ⟨ripeMD160, rfl | rfl⟩
      · exact ⟨0, ripeMD160, rfl⟩
      · exact ⟨5, ripeMD160, rfl⟩
    obtain ⟨s, hshort, hzero, hdecode, hencode⟩ :=
      base58_round_trip (Vector.length_toList) (toAddress_value H version ripeMD160 hsum)
    exact ⟨s, hshort, hzero, hencode, asciiToAddress_of_decode H hdecode⟩
  obtain ⟨s, hshort, hzero, hencode, hdecode⟩ := hround address h
  refine ⟨s, hshort, hzero, hencode, hdecode, ?_⟩
  intro address' maxOutputLen' h' hmax' hsame
  obtain ⟨s', -, -, hencode', hdecode'⟩ := hround address' h'
  have hs : s' ++ [0] = s ++ [0] := by
    have heq := (hencode' maxOutputLen' hmax').symm.trans hsame
    simpa using heq
  have hs' : s' = s := List.append_cancel_right hs
  have hboth := (hdecode' default).symm.trans (hs' ▸ hdecode default)
  simpa using hboth

/-- SHA-256 on the 21 zero bytes, and on the hash of these. -/
def zeroHashes : Hashes where
  computeSHA256 bytes :=
    if bytes = List.replicate 21 0 then
      #v[201, 2, 50, 88, 107, 128, 31, 149, 88, 167, 111, 47, 150, 62, 204, 216,
        49, 217, 254, 103, 117, 228, 200, 241, 68, 107, 35, 49, 170, 33, 50, 242]
    else
      #v[148, 160, 9, 17, 196, 218, 39, 249, 39, 23, 39, 255, 167, 161, 77, 141,
        85, 136, 252, 15, 255, 153, 100, 52, 14, 196, 6, 95, 56, 126, 98, 43]
  computeRIPEMD160 _ := Vector.replicate 20 0

theorem the_address_of_zeros_reads_back_from_its_text :
    58 ≤ beVal (checksum zeroHashes (Vector.replicate 21 0)).toList ∧
    ∃ s, s.length ≤ 35 ∧ 0 ∉ s ∧
      (∀ maxOutputLen, 36 ≤ maxOutputLen →
        bitcoinAddressToAscii (bitcoinRIPEMD160ToAddress zeroHashes (Vector.replicate 20 0))
          maxOutputLen = some (true, s ++ [0])) ∧
      (∀ output, bitcoinAsciiToAddress zeroHashes s output =
        some (true, bitcoinRIPEMD160ToAddress zeroHashes (Vector.replicate 20 0))) ∧
      ∀ address' maxOutputLen', IsAddress zeroHashes address' → 36 ≤ maxOutputLen' →
        bitcoinAddressToAscii address' maxOutputLen' = some (true, s ++ [0]) →
        address' = bitcoinRIPEMD160ToAddress zeroHashes (Vector.replicate 20 0) :=
  ⟨by decide, an_address_reads_back_from_its_text zeroHashes (by decide) _ ⟨_, Or.inl rfl⟩⟩

end bitcoinstats.bitcoin_address
