-- What `decodeBase58` makes of every string: which strings it takes, what it
-- stores for them, and from which strings it comes back at all.
import BitcoinStats.AddressChecks
import Mathlib.Data.List.TakeWhile

open byte_memory

namespace bitcoinstats.base58

open bitcoinstats.bitcoin_address (bytesOf bytesOf_alphabet decodeBase58_bytesOf digits_length)

/-! ## The strings that are taken -/

/-- A string that is not empty spells one byte at least. -/
theorem bytesOf_length_pos {s : List UInt8} (hne : s ≠ []) : 0 < (bytesOf charIndex s).length := by
  cases s with
  | nil => exact absurd rfl hne
  | cons c s =>
    rw [bytesOf, List.length_append, List.length_replicate]
    by_cases hone : c = 49
    · rw [hone, ones_cons_one]
      omega
    · have hindex : 0 < charIndex c :=
        Nat.pos_of_ne_zero (fun h0 => hone ((charIndex_eq_zero c).mp h0))
      have hterm : 0 < 58 ^ s.length * charIndex c := Nat.mul_pos (Nat.pow_pos (by omega)) hindex
      have hdigits : Nat.digits 256 (spelled charIndex (c :: s)) ≠ [] := by
        rw [Nat.digits_ne_nil_iff_ne_zero, spelled_cons]
        omega
      have hpos := List.length_pos_of_ne_nil hdigits
      simp only [List.length_reverse, List.length_map]
      omega

/-- Exactly the strings over the alphabet whose bytes fit are taken, and what is
stored for them are these bytes. -/
def DecodesAsReference (s : List UInt8) (maxOutputLength : Nat) (isBigEndian : Bool) : Prop :=
  ∃ ret output, decodeBase58 s maxOutputLength isBigEndian = some (ret, output) ∧
    (ret ≠ 0 ↔ (∀ c ∈ s, c ∈ alphabet) ∧
      (bytesOf alphabet.idxOf s).length ≤ maxOutputLength) ∧
    (ret ≠ 0 → ret = (bytesOf alphabet.idxOf s).length ∧
      output = if isBigEndian then bytesOf alphabet.idxOf s
        else (bytesOf alphabet.idxOf s).reverse)

/-- A string that the decoder takes is taken as the reference does exactly when
its characters are in the alphabet. -/
theorem the_decoder_is_the_reference_exactly_on_its_alphabet (s : List UInt8)
    (maxOutputLength : Nat) (isBigEndian : Bool) (hne : s ≠ []) (hlen : s.length < 256) :
    DecodesAsReference s maxOutputLength isBigEndian ↔
      (∀ c ∈ s, c ∈ alphabet) ∨ maxOutputLength < (bytesOf charIndex s).length := by
  have hrun := decodeBase58_bytesOf hne (by omega) maxOutputLength isBigEndian
  have hpos := bytesOf_length_pos hne
  constructor
  · rintro ⟨ret, output, hret, htaken, -⟩
    by_contra hnot
    rw [not_or, Nat.not_lt] at hnot
    -- the bytes of a foreign string fit, so it is taken
    rw [hrun, if_pos hnot.2, Option.some.injEq] at hret
    have hret0 : ret ≠ 0 := by
      rw [← (Prod.mk.inj hret).1]
      omega
    exact hnot.1 (htaken.mp hret0).1
  · intro h
    rcases Nat.lt_or_ge maxOutputLength (bytesOf charIndex s).length with hlong | hfits
    · rw [if_neg (by omega)] at hrun
      refine ⟨0, [], hrun, ?_, fun h0 => absurd rfl h0⟩
      refine iff_of_false (fun h0 => h0 rfl) ?_
      rintro ⟨hchars, hshort⟩
      rw [← bytesOf_alphabet hchars] at hshort
      omega
    · have hchars : ∀ c ∈ s, c ∈ alphabet := by
        rcases h with hchars | hlong
        · exact hchars
        · omega
      rw [if_pos hfits, bytesOf_alphabet hchars] at hrun
      rw [bytesOf_alphabet hchars] at hfits hpos
      refine ⟨_, _, hrun, ?_, fun _ => ⟨rfl, rfl⟩⟩
      exact iff_of_true (by omega) ⟨hchars, hfits⟩

theorem the_decoder_is_the_reference_on_2g :
    DecodesAsReference [50, 103] 25 true ↔
      (∀ c ∈ [(50 : UInt8), 103], c ∈ alphabet) ∨ 25 < (bytesOf charIndex [50, 103]).length :=
  the_decoder_is_the_reference_exactly_on_its_alphabet [50, 103] 25 true (by decide) (by decide)

/-- The character `0` is taken for the digit 255. -/
theorem the_decoder_takes_a_zero_character :
    ¬ ∀ (s : List UInt8) (maxOutputLength : Nat) (isBigEndian : Bool), s ≠ [] → s.length < 256 →
      DecodesAsReference s maxOutputLength isBigEndian := by
  intro h
  obtain ⟨ret, output, hrun, htaken, -⟩ := h [48] 25 true (by decide) (by decide)
  have hread : decodeBase58 [48] 25 true = some (1, [255]) := by decide
  rw [hread, Option.some.injEq] at hrun
  have hret : ret ≠ 0 := by
    rw [← (Prod.mk.inj hrun).1]
    decide
  have hchars := (htaken.mp hret).1
  exact absurd hchars (by decide)

/-! ## The strings that it comes back from -/

/-- With 256 ones or more the `uint8_t` counter never meets another character. -/
theorem zerosLoop_forever {s : List UInt8} {slen : Nat} (h : 256 ≤ ones (s.take slen))
    (fuel : Nat) (x zeros : UInt8) : zerosLoop s slen fuel x zeros = none := by
  induction fuel generalizing x zeros with
  | zero => rfl
  | succ fuel ih =>
    obtain ⟨t, ht⟩ : ∃ t, t = s.take slen := ⟨_, rfl⟩
    rw [← ht] at h
    have hx := x.toNat_lt
    have hprefix := List.takeWhile_prefix (· = (49 : UInt8)) (l := t)
    have hlen : ones t ≤ t.length := ones_le t
    have htlen : t.length ≤ slen := by
      rw [ht, List.length_take]
      omega
    have hin : x.toNat < (t.takeWhile (· = 49)).length := by
      rw [← ones]
      omega
    have hone : (t.takeWhile (· = 49))[x.toNat] = 49 := by
      simpa using List.mem_takeWhile_imp (List.getElem_mem hin)
    have hget : s[x.toNat]? = some 49 := by
      have htake : t[x.toNat]? = s[x.toNat]? := by rw [ht, List.getElem?_take_of_lt (by omega)]
      rw [← htake, ← hone, hprefix.getElem hin, List.getElem?_eq_getElem]
    unfold zerosLoop
    rw [if_pos (by omega)]
    simp only [Option.bind_eq_bind, hget, Option.bind_some, if_true]
    exact ih _ _

/-- The conditions under which the decoder stays in the string and in its
blocks, and comes to an end. -/
structure StaysInBounds (s : List UInt8) : Prop where
  characters : s ≠ []
  count : ones (s.take (strlen32 s)) ≤ 255
  room : (Nat.digits 256 (wrappedNumber (s.take (lastIndex s + 1)))).length +
    ones (s.take (strlen32 s)) ≤ 256

theorem decodeBase58_isSome (s : List UInt8) (maxOutputLength : Nat) (isBigEndian : Bool) :
    (decodeBase58 s maxOutputLength isBigEndian).isSome =
      (cbDecodeBase58 (BigNumber.zeroed 0) s).isSome := by
  unfold decodeBase58
  cases cbDecodeBase58 (BigNumber.zeroed 0) s with
  | none => rfl
  | some bn =>
    simp only [Option.bind_eq_bind, Option.bind_some]
    split <;> rfl

theorem decodeLoop_nil (last x : Nat) (bi bi2 : BigNumber) :
    decodeLoop [] last (x + 1) bi bi2 = none := by
  simp [decodeLoop]

/-- The decoder comes back, from reads of the string and of its blocks alone,
exactly when these conditions are met. -/
theorem the_decoder_comes_back_exactly_in_bounds (s : List UInt8) (maxOutputLength : Nat)
    (isBigEndian : Bool) :
    (decodeBase58 s maxOutputLength isBigEndian).isSome ↔ StaysInBounds s := by
  rw [decodeBase58_isSome]
  by_cases hne : s = []
  · refine iff_of_false ?_ (fun h => h.characters hne)
    rw [hne, cbDecodeBase58, decodeLoop_nil]
    simp
  obtain ⟨bi, hloop, hcan⟩ := decodeLoop_whole hne
  have hlength := digits_length hcan.lt hcan.top
  unfold cbDecodeBase58
  rw [hloop]
  simp only [Option.bind_eq_bind, Option.bind_some]
  rcases Nat.lt_or_ge 255 (ones (s.take (strlen32 s))) with hmany | hfew
  · rw [zerosLoop_forever hmany]
    refine iff_of_false (by simp) (fun h => ?_)
    have hcount := h.count
    omega
  · have hcount := zerosLoop_ones (Nat.mod_le s.length (2 ^ 32)) 0 257
      (by rw [List.drop_zero, Nat.zero_add]; exact hfew)
      (by rw [List.drop_zero]; exact Nat.lt_of_le_of_lt hfew (by omega))
    rw [List.drop_zero, Nat.zero_add] at hcount
    have hz : (UInt8.ofNat (ones (s.take (strlen32 s)))).toNat = ones (s.take (strlen32 s)) := by
      simp
      omega
    have hshort : bi.length ≤ 254 := hcan.length_le (wrappedNumber_lt (by
      have h32 := lastIndex_lt_32 s
      rw [List.length_take]
      omega))
    rw [show (0 : UInt8) = UInt8.ofNat 0 from rfl, strlen32, hcount, ← strlen32, Option.bind_some]
    -- the room is asked for only where there are ones
    have hroom : StaysInBounds s ↔ bi.length + ones (s.take (strlen32 s)) ≤ 256 := by
      rw [← hlength]
      exact ⟨fun h => h.room, fun h => ⟨hne, hfew, h⟩⟩
    rw [hroom]
    split
    · rename_i h0
      rw [← hz, h0]
      simp
      omega
    · rw [hz, MAX_BIG_NUMBER]
      split
      · rename_i hfits
        simpa using hfits
      · rename_i hfull
        simpa using hfull

/-- An empty string is read at the index `2 ^ 32 - 1`. -/
theorem the_decoder_leaves_an_empty_string :
    ¬ ∀ (s : List UInt8) (maxOutputLength : Nat) (isBigEndian : Bool),
      (decodeBase58 s maxOutputLength isBigEndian).isSome := by
  intro h
  have hempty := h [] 25 true
  rw [decodeBase58_isSome, cbDecodeBase58, decodeLoop_nil] at hempty
  simp at hempty

end bitcoinstats.base58
