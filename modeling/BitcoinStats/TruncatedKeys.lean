-- The scripts that push a key without its first byte: what `readOutput` puts in
-- the place of this byte, and when the address is that of the completed key.
import BitcoinStats.OutputKeys

open byte_memory exec cursor bitcoinstats.bitcoin_address

namespace bitcoinstats.block_chain

variable (H : Hashes)

/-! ## The script and the completed key -/

def truncatedScript (x : Vector UInt8 32) : List UInt8 := 0x20 :: x.toList

/-- The 33 bytes that the first byte 2 makes of the 32. -/
def completedKey (x : Vector UInt8 32) : List UInt8 := 0x02 :: x.toList

/-- What is hashed instead: the 32 bytes are copied over the first byte of the
buffer, so its last byte is left as the stack had it. -/
def copiedKey (x : Vector UInt8 32) (stackByte : UInt8) : List UInt8 := x.toList ++ [stackByte]

/-- The first of the 32 bytes, which takes the place of the 2. -/
def firstByte (x : Vector UInt8 32) : UInt8 := scriptByte x.toList 0

/-- The output has the type of the script, and the address of the completed key. -/
structure Completed (x : Vector UInt8 32) (o : BlockOutput) : Prop where
  keyType : o.keyType = .KT_TRUNCATED_COMPRESSED_KEY
  address : o.addresses[0]? = some (bitcoinCompressedPublicKeyToAddress H
    (scriptByte (completedKey x)) (Vector.replicate 25 0)).2

/-- The copy over the first byte does no harm: all 33 bytes are 2 anyway, or the
hash functions make up for it. -/
inductive CopiedInPlace (x : Vector UInt8 32) (stackByte : UInt8) : Prop
  | twos (key : ∀ b ∈ x.toList, b = 0x02) (last : stackByte = 0x02)
  | collision (first : ¬ refusesCompressed (firstByte x))
      (other : copiedKey x stackByte ≠ completedKey x)
      (hash : keyHash H (copiedKey x stackByte) = keyHash H (completedKey x))
  | zeros (first : refusesCompressed (firstByte x))
      (address : toAddress H 0 (keyHash H (completedKey x)) = Vector.replicate 25 0)

instance (first : UInt8) : Decidable (refusesCompressed first) :=
  inferInstanceAs (Decidable (first ≠ 0x02 ∧ first ≠ 0x03))

/-! ## The two keys -/

/-- A list is the same with an element before it as with one behind it, only if
this element is all there is. -/
theorem append_eq_cons_iff (a b : UInt8) (l : List UInt8) :
    l ++ [b] = a :: l ↔ (∀ c ∈ l, c = a) ∧ b = a := by
  induction l with
  | nil => simp
  | cons c l ih =>
    simp only [List.cons_append, List.cons.injEq, List.mem_cons, forall_eq_or_imp]
    constructor
    · rintro ⟨rfl, h⟩
      have hrest := ih.mp h
      exact ⟨⟨rfl, hrest.1⟩, hrest.2⟩
    · rintro ⟨⟨rfl, hl⟩, rfl⟩
      exact ⟨rfl, ih.mpr ⟨hl, rfl⟩⟩

theorem copiedKey_eq_iff (x : Vector UInt8 32) (stackByte : UInt8) :
    copiedKey x stackByte = completedKey x ↔ (∀ b ∈ x.toList, b = 0x02) ∧ stackByte = 0x02 :=
  append_eq_cons_iff _ _ _

theorem firstByte_mem (x : Vector UInt8 32) : firstByte x ∈ x.toList := by
  have hpos : 0 < x.toList.length := by simp
  rw [firstByte, scriptByte, List.getD_eq_getElem?_getD, List.getElem?_eq_getElem hpos]
  exact List.getElem_mem hpos

theorem completedAddress (x : Vector UInt8 32) (output : Vector UInt8 25) :
    bitcoinCompressedPublicKeyToAddress H (scriptByte (completedKey x)) output =
      (true, toAddress H 0 (keyHash H (completedKey x))) := by
  have hlength : (completedKey x).length = 33 := by simp [completedKey]
  have hholds : Holds (scriptByte (completedKey x)) 0 (completedKey x) := by
    rw [holds_iff]
    intro i hi
    simp [scriptByte, hi]
  exact compressedPublicKeyToAddress_eq H hlength (Or.inl rfl) hholds output

/-- The buffer that is hashed. -/
theorem copiedAddress {key : Memory} {x : Vector UInt8 32} (h : Holds key 0 x.toList)
    (stackByte : UInt8) (output : Vector UInt8 25) :
    (bitcoinCompressedPublicKeyToAddress H (fun i => if i < 32 then key i else stackByte)
      output).2 = if refusesCompressed (firstByte x) then output else
        toAddress H 0 (keyHash H (copiedKey x stackByte)) := by
  have hbytes := holds_iff.mp h
  generalize hbuffer : (fun i => if i < 32 then key i else stackByte) = buffer
  have hfirst : buffer 0 = firstByte x := by
    have h0 := scriptByte_of_holds h 0 (by simp)
    rw [Nat.zero_add] at h0
    rw [← hbuffer, firstByte, ← h0]
    rfl
  have hholds : Holds buffer 0 (copiedKey x stackByte) := by
    rw [copiedKey, holds_append, Vector.length_toList, holds_iff, ← hbuffer]
    constructor
    · intro i hi
      have hi' : i < 32 := by simpa using hi
      rw [Nat.zero_add, ← hbytes i hi, Nat.zero_add]
      exact if_pos hi'
    · simp [Holds, window]
  have hlength : (copiedKey x stackByte).length = 33 := by simp [copiedKey]
  unfold bitcoinCompressedPublicKeyToAddress
  rw [hholds.window_eq hlength, hfirst]
  by_cases hrefused : refusesCompressed (firstByte x)
  · rw [if_pos hrefused, if_neg (by simpa [refusesCompressed] using hrefused)]
  · have hkept : firstByte x = 0x02 ∨ firstByte x = 0x03 := by
      unfold refusesCompressed at hrefused
      tauto
    rw [if_neg hrefused, if_pos hkept]
    rfl

/-! ## The output -/

theorem locateKeys_truncated {b : Memory} {script : Nat} {o : BlockOutput} (h0 : b 0 = 0x20) :
    (locateKeys b script 33 o).1 =
      o.setKey (.blockData (script + 1)) .KT_TRUNCATED_COMPRESSED_KEY := by
  simp [locateKeys, h0]

/-- The type of the script and the address that the buffer has. -/
theorem decodeScript_truncated {mBlockData : Memory} {w : OutputWire} {p : Nat}
    {x : Vector UInt8 32} (hscript : w.challengeScript = truncatedScript x)
    (h : Holds mBlockData p w.bytes) (stackByte : UInt8) :
    (decodeScript H mBlockData stackByte (w.output p)).output.keyType =
        .KT_TRUNCATED_COMPRESSED_KEY ∧
      (decodeScript H mBlockData stackByte (w.output p)).output.addresses[0]? =
        some (if refusesCompressed (firstByte x) then Vector.replicate 25 0 else
          toAddress H 0 (keyHash H (copiedKey x stackByte))) := by
  have hlocated := locatedOutput_wire mBlockData w p (by rw [hscript]; exact List.cons_ne_nil _ _)
  have hlength : w.challengeScript.length = 33 := by simp [hscript, truncatedScript]
  have hbytes := w.holds_script h
  rw [hscript, truncatedScript, holds_cons] at hbytes
  rw [hlength, locateKeys_truncated hbytes.1] at hlocated
  have hkeyed := keyedOutput_of_key hlocated (setKey_first _ _ _)
  have hsame := sameKeys_decodeScript H mBlockData stackByte (w.output p)
  rw [hkeyed] at hsame
  refine ⟨hsame.keyType, ?_⟩
  rw [addresses_decodeScript, hkeyed]
  have hfirst : ((w.output p).setKey (.blockData (w.scriptPlace p + 1))
      .KT_TRUNCATED_COMPRESSED_KEY).publicKey[0] = some (.blockData (w.scriptPlace p + 1)) :=
    Vector.getElem_set_self _
  unfold deriveAddresses
  rw [hfirst]
  refine (Vector.getElem?_eq_getElem first_lt_five).trans (congrArg some ?_)
  refine (Vector.getElem_set_self _).trans ?_
  exact copiedAddress H (holds_shift hbytes.2) stackByte _

theorem decodeScript_completed {mBlockData : Memory} {w : OutputWire} {p : Nat}
    {x : Vector UInt8 32} (hscript : w.challengeScript = truncatedScript x)
    (h : Holds mBlockData p w.bytes) (stackByte : UInt8) :
    Completed H x (decodeScript H mBlockData stackByte (w.output p)).output ↔
      CopiedInPlace H x stackByte := by
  obtain ⟨htype, haddress⟩ := decodeScript_truncated H hscript h stackByte
  have hcompleted : Completed H x (decodeScript H mBlockData stackByte (w.output p)).output ↔
      (if refusesCompressed (firstByte x) then Vector.replicate 25 0 else
        toAddress H 0 (keyHash H (copiedKey x stackByte))) =
          toAddress H 0 (keyHash H (completedKey x)) := by
    constructor
    · intro hc
      have heq := hc.address
      rw [haddress, completedAddress] at heq
      exact Option.some.inj heq
    · intro heq
      refine ⟨htype, ?_⟩
      rw [haddress, completedAddress, heq]
  rw [hcompleted]
  by_cases hrefused : refusesCompressed (firstByte x)
  · rw [if_pos hrefused]
    constructor
    · intro heq
      exact CopiedInPlace.zeros hrefused heq.symm
    · intro hplace
      cases hplace with
      | twos key last => exact absurd (key _ (firstByte_mem x)) hrefused.1
      | collision first other hash => exact absurd hrefused first
      | zeros first address => exact address.symm
  · rw [if_neg hrefused, toAddress_inj]
    constructor
    · intro hash
      by_cases hsame : copiedKey x stackByte = completedKey x
      · rw [copiedKey_eq_iff] at hsame
        exact CopiedInPlace.twos hsame.1 hsame.2
      · exact CopiedInPlace.collision hrefused hsame hash
    · intro hplace
      cases hplace with
      | twos key last => rw [(copiedKey_eq_iff x stackByte).mpr ⟨key, last⟩]
      | collision first other hash => exact hash
      | zeros first address => exact absurd first hrefused

/-- A truncated key is read with its type, and with the address of the completed
key exactly when the copy over the first byte does no harm. -/
theorem a_truncated_key_is_completed_exactly_when_the_copy_does_no_harm (s : ParseState) (k : Nat)
    (w : OutputWire) (x : Vector UInt8 32) (hscript : w.challengeScript = truncatedScript x)
    (h : Holds s.block.mBlockData s.block.mBlockRead w.bytes) :
    ∃ s', (readOutput H k).run s = .ok true s' ∧
      (Completed H x (s'.block.mOutputs k) ↔ CopiedInPlace H x (s.stack 0)) := by
  obtain ⟨s', hrun, hstored⟩ := readOutput_stores H k h
  refine ⟨s', hrun, ?_⟩
  rw [hstored]
  exact decodeScript_completed H hscript h (s.stack 0)

/-- The output that pushes 32 bytes. -/
def truncatedOutput (x : Vector UInt8 32) : OutputWire :=
  shortOutput (truncatedScript x) (by simp [truncatedScript])

theorem a_key_of_twos_is_completed :
    (truncatedOutput (Vector.replicate 32 2)).challengeScript =
      truncatedScript (Vector.replicate 32 2) ∧
    Holds (ParseState.ofBytes (truncatedOutput (Vector.replicate 32 2)).bytes).block.mBlockData 0
      (truncatedOutput (Vector.replicate 32 2)).bytes ∧
    ∃ s', (readOutput zeroHashes 0).run
        (ParseState.ofBytes (truncatedOutput (Vector.replicate 32 2)).bytes) = .ok true s' ∧
      (Completed zeroHashes (Vector.replicate 32 2) (s'.block.mOutputs 0) ↔
        CopiedInPlace zeroHashes (Vector.replicate 32 2)
          ((ParseState.ofBytes (truncatedOutput (Vector.replicate 32 2)).bytes).stack 0)) :=
  ⟨rfl, holds_overlay _ _,
    a_truncated_key_is_completed_exactly_when_the_copy_does_no_harm zeroHashes _ 0
      (truncatedOutput (Vector.replicate 32 2)) (Vector.replicate 32 2) rfl (holds_overlay _ _)⟩

/-- The helper refuses what the buffer has for a key of zeros. -/
theorem a_key_of_zeros_is_not_completed :
    ∃ s', (readOutput zeroHashes 0).run
        (ParseState.ofBytes (truncatedOutput (Vector.replicate 32 0)).bytes) = .ok true s' ∧
      ¬ Completed zeroHashes (Vector.replicate 32 0) (s'.block.mOutputs 0) := by
  have h : Holds
      (ParseState.ofBytes (truncatedOutput (Vector.replicate 32 0)).bytes).block.mBlockData 0
      (truncatedOutput (Vector.replicate 32 0)).bytes := holds_overlay _ _
  have hrefused : refusesCompressed (firstByte (Vector.replicate 32 0)) :=
    ⟨by decide, by decide⟩
  obtain ⟨s', hrun, hstored⟩ := readOutput_stores zeroHashes 0 h
  refine ⟨s', hrun, ?_⟩
  rw [hstored]
  intro hcompleted
  cases (decodeScript_completed zeroHashes rfl h _).mp hcompleted with
  | twos key last => exact absurd (key 0 (by decide)) (by decide)
  | collision first other hash => exact first hrefused
  | zeros first address => exact absurd address (by decide)

/-! ## Two runs -/

/-- Two runs on the same script agree exactly when no byte of the key is looked
at, or the stacks had the same byte, or its place in the hash does not matter. -/
theorem two_runs_agree_exactly_without_the_stack {s1 s2 : ParseState} (k1 k2 : Nat)
    {w1 w2 : OutputWire} {x : Vector UInt8 32} (hscript1 : w1.challengeScript = truncatedScript x)
    (hscript2 : w2.challengeScript = truncatedScript x)
    (h1 : Holds s1.block.mBlockData s1.block.mBlockRead w1.bytes)
    (h2 : Holds s2.block.mBlockData s2.block.mBlockRead w2.bytes) :
    ∃ s1' s2', (readOutput H k1).run s1 = .ok true s1' ∧ (readOutput H k2).run s2 = .ok true s2' ∧
      ((s1'.block.mOutputs k1).addresses[0]? = (s2'.block.mOutputs k2).addresses[0]? ↔
        (¬ refusesCompressed (firstByte x) →
          keyHash H (copiedKey x (s1.stack 0)) = keyHash H (copiedKey x (s2.stack 0)))) := by
  obtain ⟨s1', hrun1, hstored1⟩ := readOutput_stores H k1 h1
  obtain ⟨s2', hrun2, hstored2⟩ := readOutput_stores H k2 h2
  refine ⟨s1', s2', hrun1, hrun2, ?_⟩
  rw [hstored1, hstored2, (decodeScript_truncated H hscript1 h1 (s1.stack 0)).2,
    (decodeScript_truncated H hscript2 h2 (s2.stack 0)).2]
  by_cases hrefused : refusesCompressed (firstByte x)
  · simp [hrefused]
  · simp [hrefused, toAddress_inj]

end bitcoinstats.block_chain
