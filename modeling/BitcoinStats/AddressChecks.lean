-- Which texts `bitcoinAsciiToAddress` takes for an address, against the texts
-- that Base58Check allows.
import BitcoinStats.AddressRoundTrip

open byte_memory bitcoinstats.base58

namespace bitcoinstats.bitcoin_address

/-! ## The bytes that a text spells -/

/-- Highest byte first: a zero byte for each `1` at the start of the text, and
the bytes of the number. -/
def bytesOf (digit : UInt8 → Nat) (s : List UInt8) : List UInt8 :=
  List.replicate (ones s) 0 ++ ((Nat.digits 256 (spelled digit s)).map UInt8.ofNat).reverse

theorem leVal_digits (n : Nat) : leVal ((Nat.digits 256 n).map UInt8.ofNat) = n := by
  have hall : ∀ ds : List Nat, (∀ d ∈ ds, d < 256) →
      leVal (ds.map UInt8.ofNat) = Nat.ofDigits 256 ds := by
    intro ds h
    induction ds with
    | nil => rfl
    | cons d ds ih =>
      have hd : (UInt8.ofNat d).toNat = d := by
        have := h d (by simp)
        simp
        omega
      rw [List.map_cons, leVal_cons, ih (fun x hx => h x (by simp [hx])), hd, Nat.ofDigits_cons]
  rw [hall _ (fun d hd => Nat.digits_lt_base (by omega) hd), Nat.ofDigits_digits]

theorem leVal_zeros (z : Nat) : leVal (List.replicate z 0) = 0 := by
  induction z with
  | zero => rfl
  | succ z ih =>
    rw [List.replicate_succ, leVal_cons, ih]
    rfl

/-- The number of the bytes, and their count, are enough to know them. -/
theorem bytesOf_eq (digit : UInt8 → Nat) (s : List UInt8) :
    (bytesOf digit s).reverse = leBytes ((Nat.digits 256 (spelled digit s)).length + ones s)
      (spelled digit s) := by
  have hrev : (bytesOf digit s).reverse =
      (Nat.digits 256 (spelled digit s)).map UInt8.ofNat ++ List.replicate (ones s) 0 := by
    simp [bytesOf]
  have h := leBytes_leVal ((Nat.digits 256 (spelled digit s)).map UInt8.ofNat ++
    List.replicate (ones s) 0)
  rw [leVal_append, leVal_digits, leVal_zeros, Nat.mul_zero, Nat.add_zero, List.length_append,
    List.length_map, List.length_replicate] at h
  rw [hrev, h]

/-- The length of a number in bytes. -/
theorem digits_length {n k : Nat} (hfit : n < 256 ^ k) (htop : 0 < k → 256 ^ (k - 1) ≤ n) :
    (Nat.digits 256 n).length = k := by
  apply Nat.le_antisymm
  · exact (Nat.digits_length_le_iff (by omega) n).mpr hfit
  · exact length_le_of_top htop (Nat.lt_base_pow_length_digits (by omega))

/-- More bytes than the output has room for are not stored. -/
theorem decodeBase58_bytesOf {s : List UInt8} (hne : s ≠ []) (hlen : s.length ≤ 255)
    (maxOutputLength : Nat) (isBigEndian : Bool) :
    decodeBase58 s maxOutputLength isBigEndian =
      some (if (bytesOf charIndex s).length ≤ maxOutputLength then
          ((bytesOf charIndex s).length,
            if isBigEndian then bytesOf charIndex s else (bytesOf charIndex s).reverse)
        else (0, [])) := by
  obtain ⟨bi, k, hrun, hbi, hval, hfit, htop⟩ := cbDecodeBase58_spelled hne hlen
  have hrev := bytesOf_eq charIndex s
  rw [digits_length hfit htop] at hrev
  have hbytes : window bi.data 0 bi.length = (bytesOf charIndex s).reverse := by
    have h := leBytes_leVal (window bi.data 0 bi.length)
    rw [window_length] at h
    have hread : leVal (window bi.data 0 bi.length) = spelled charIndex s := by
      rw [hbi]
      exact hval
    rw [← h, hread, hbi, ← hrev]
  have hcount : (bytesOf charIndex s).length = bi.length := by
    rw [← List.length_reverse, ← hbytes, window_length]
  unfold decodeBase58
  simp only [Option.bind_eq_bind, hrun, Option.bind_some, hbytes, hcount, List.reverse_reverse]
  by_cases hfits : bi.length ≤ maxOutputLength
  · rw [if_pos hfits, if_pos hfits]
  · rw [if_neg hfits, if_neg hfits]

/-! ## Base58Check -/

variable (H : Hashes)

/-- The byte `i` of the checksum over the first 21 bytes. -/
def sumByte (address : Vector UInt8 25) (i : Fin 4) : UInt8 :=
  (H.doubleSHA256 (address.toList.take 21))[i]

/-- The byte of the address that `sumByte` is compared with. -/
def lastByte (address : Vector UInt8 25) (i : Fin 4) : UInt8 := address[21 + i.val]

/-- `s` is a Base58Check text of the address. -/
structure IsTextOf (s : List UInt8) (address : Vector UInt8 25) : Prop where
  characters : ∀ c ∈ s, c ∈ alphabet
  bytes : bytesOf alphabet.idxOf s = address.toList
  checksum : ∀ i, lastByte address i = sumByte H address i

/-- The text is taken for an address exactly when it is one, and then `output`
holds the address. -/
def ReadsAsBase58Check (s : List UInt8) (output : Vector UInt8 25) : Prop :=
  ∃ ret output', bitcoinAsciiToAddress H s output = some (ret, output') ∧
    (ret = true ↔ ∃ address, IsTextOf H s address) ∧
    ∀ address, IsTextOf H s address → output' = address

/-- Where the text spells 25 bytes, with the characters outside of the
alphabet as the decoder numbers them: none of the last four bytes is the one of
the checksum, or all four are and every character is in the alphabet. -/
def ChecksAgree (s : List UInt8) : Prop :=
  ∀ address : Vector UInt8 25, bytesOf charIndex s = address.toList →
    (∀ i, lastByte address i ≠ sumByte H address i) ∨
      (∀ c ∈ s, c ∈ alphabet) ∧ ∀ i, lastByte address i = sumByte H address i

theorem charIndex_of_mem {c : UInt8} (h : c ∈ alphabet) : charIndex c = alphabet.idxOf c := by
  have hall : ∀ c ∈ alphabet, charIndex c = alphabet.idxOf c := by decide +kernel
  exact hall c h

theorem bytesOf_alphabet {s : List UInt8} (h : ∀ c ∈ s, c ∈ alphabet) :
    bytesOf charIndex s = bytesOf alphabet.idxOf s := by
  have hmap : s.reverse.map charIndex = s.reverse.map alphabet.idxOf := by
    apply List.map_congr_left
    intro c hc
    exact charIndex_of_mem (h c (List.mem_reverse.mp hc))
  rw [bytesOf, bytesOf, spelled, spelled, hmap]

/-- The decoder finds the same bytes in a Base58Check text. -/
theorem IsTextOf.spells {s : List UInt8} {address : Vector UInt8 25} (h : IsTextOf H s address) :
    bytesOf charIndex s = address.toList := by
  rw [bytesOf_alphabet h.characters, h.bytes]

theorem IsTextOf.eq {s : List UInt8} {address a : Vector UInt8 25} (h : IsTextOf H s a)
    (hbytes : bytesOf charIndex s = address.toList) : address = a := by
  apply Vector.toList_inj.mp
  rw [← hbytes, h.spells]

/-- The text of 25 bytes, read over any `output`. -/
theorem asciiToAddress_of_bytes {s : List UInt8} (hne : s ≠ []) (hlen : s.length ≤ 255)
    {address : Vector UInt8 25} (h : bytesOf charIndex s = address.toList)
    (output : Vector UInt8 25) :
    bitcoinAsciiToAddress H s output =
      some (decide (∃ i, lastByte address i = sumByte H address i), address) := by
  have hdecode := decodeBase58_bytesOf hne hlen 25 true
  rw [h, Vector.length_toList, if_pos (le_refl 25)] at hdecode
  have hsome : (address[21] = (H.doubleSHA256 (address.toList.take 21))[0] ∨
      address[22] = (H.doubleSHA256 (address.toList.take 21))[1] ∨
      address[23] = (H.doubleSHA256 (address.toList.take 21))[2] ∨
      address[24] = (H.doubleSHA256 (address.toList.take 21))[3]) ↔
      ∃ i, lastByte address i = sumByte H address i := by
    simp only [Fin.exists_fin_succ, Fin.exists_fin_zero, lastByte, sumByte, or_false]
    rfl
  unfold bitcoinAsciiToAddress
  simp only [Option.bind_eq_bind, hdecode, Option.bind_some, stored_toList, if_true]
  rw [decide_eq_decide.mpr hsome]

/-- A text of another length is refused. -/
theorem asciiToAddress_of_length {s : List UInt8} (hne : s ≠ []) (hlen : s.length ≤ 255)
    (h : (bytesOf charIndex s).length ≠ 25) (output : Vector UInt8 25) :
    ∃ output', bitcoinAsciiToAddress H s output = some (false, output') := by
  have hdecode := decodeBase58_bytesOf hne hlen 25 true
  unfold bitcoinAsciiToAddress
  simp only [Option.bind_eq_bind, hdecode, Option.bind_some]
  by_cases h25 : (bytesOf charIndex s).length ≤ 25
  · rw [if_pos h25]
    simp [h]
  · rw [if_neg h25]
    simp

/-- A text of up to 255 characters is read as Base58Check allows exactly when
the checks on what it spells agree. -/
theorem a_text_reads_as_base58check_exactly_when_its_checks_agree (s : List UInt8)
    (output : Vector UInt8 25) (hne : s ≠ []) (hlen : s.length < 256) :
    ReadsAsBase58Check H s output ↔ ChecksAgree H s := by
  have hlen' : s.length ≤ 255 := by omega
  constructor
  · rintro ⟨ret, output', hrun, hret, -⟩ address hbytes
    rw [asciiToAddress_of_bytes H hne hlen' hbytes output] at hrun
    injection hrun with hpair
    injection hpair with hdec haddr
    by_cases hsome : ∃ i, lastByte address i = sumByte H address i
    · obtain ⟨a, ha⟩ := hret.mp (by rw [← hdec]; exact decide_eq_true hsome)
      obtain rfl := ha.eq H hbytes
      exact Or.inr ⟨ha.characters, ha.checksum⟩
    · exact Or.inl (fun i hi => hsome ⟨i, hi⟩)
  · intro hagree
    by_cases h25 : (bytesOf charIndex s).length = 25
    · obtain ⟨address, hbytes⟩ : ∃ address : Vector UInt8 25,
          bytesOf charIndex s = address.toList :=
        ⟨⟨(bytesOf charIndex s).toArray, by simpa using h25⟩, by simp⟩
      refine ⟨_, address, asciiToAddress_of_bytes H hne hlen' hbytes output, ?_,
        fun a ha => ha.eq H hbytes⟩
      rw [decide_eq_true_iff]
      constructor
      · rintro ⟨i, hi⟩
        rcases hagree address hbytes with hnone | ⟨hchars, hsum⟩
        · exact absurd hi (hnone i)
        · exact ⟨address, hchars, by rw [← bytesOf_alphabet hchars, hbytes], hsum⟩
      · rintro ⟨a, ha⟩
        obtain rfl := ha.eq H hbytes
        exact ⟨0, ha.checksum 0⟩
    · obtain ⟨output', hrun⟩ := asciiToAddress_of_length H hne hlen' h25 output
      have hnot : ∀ a, ¬ IsTextOf H s a := by
        intro a ha
        rw [ha.spells] at h25
        exact h25 Vector.length_toList
      exact ⟨false, output', hrun, ⟨nofun, fun ⟨a, ha⟩ => absurd ha (hnot a)⟩,
        fun a ha => absurd ha (hnot a)⟩

/-- The text of 21 zero bytes and the last four bytes given. -/
def textOfZeros (digits : List UInt8) : List UInt8 := List.replicate 21 49 ++ digits

theorem the_text_of_zeros_reads_as_base58check :
    textOfZeros [52, 111, 76, 118, 84, 50] ≠ [] ∧ (textOfZeros [52, 111, 76, 118, 84, 50]).length < 256 ∧
    (ReadsAsBase58Check zeroHashes (textOfZeros [52, 111, 76, 118, 84, 50]) default ↔
      ChecksAgree zeroHashes (textOfZeros [52, 111, 76, 118, 84, 50])) :=
  ⟨by decide, by decide,
    a_text_reads_as_base58check_exactly_when_its_checks_agree zeroHashes _ _ (by decide) (by decide)⟩

/-- The last four bytes are 148 0 0 0, and the checksum is 148 160 9 17. -/
theorem one_byte_of_the_checksum_is_enough :
    ¬ ReadsAsBase58Check zeroHashes (textOfZeros [52, 110, 82, 65, 105, 51]) default := by
  rintro ⟨ret, output', hrun, hret, hout⟩
  have hbytes : bitcoinAsciiToAddress zeroHashes (textOfZeros [52, 110, 82, 65, 105, 51]) default =
      some (true, (Vector.replicate 21 0 : Vector UInt8 21) ++ (#v[148, 0, 0, 0] : Vector UInt8 4)) := by
    decide +kernel
  rw [hbytes] at hrun
  injection hrun with hpair
  injection hpair with htrue hsame
  obtain ⟨address, h⟩ := hret.mp htrue.symm
  have hsum := h.checksum 1
  rw [← hout address h, ← hsame] at hsum
  exact absurd hsum (by decide)

end bitcoinstats.bitcoin_address
