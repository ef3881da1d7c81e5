-- What the address and the text of a multi-signature output tell apart: the list
-- of its keys, and nothing of how many signatures it asks for.
import BitcoinStats.MultisigScripts
import BitcoinStats.Base58Encoder

open byte_memory exec cursor bitcoinstats.bitcoin_address bitcoinstats.base58

namespace bitcoinstats.block_chain

variable (H : Hashes)

/-! ## The count of the output -/

theorem signatureCount_keyedOutput (mBlockData : Memory) (o : BlockOutput) :
    (keyedOutput mBlockData o).signatureCount = o.signatureCount := by
  have hignores : IgnoresKeys (fun o' => o'.signatureCount = o.signatureCount) := fun _ _ _ _ h => h
  have hlocated : (locatedOutput mBlockData o).signatureCount = o.signatureCount := by
    unfold locatedOutput
    split
    · exact hignores.locateKeys _ _ _ rfl
    · rfl
  unfold keyedOutput
  split
  · exact hignores.setKey hlocated _ _
  · exact hlocated

theorem signatureCount_deriveAddresses (mBlockData : Memory) (stackByte : UInt8)
    (o : BlockOutput) :
    (deriveAddresses H mBlockData stackByte o).signatureCount = o.signatureCount := by
  have hignores : IgnoresAddresses (fun o' => o'.signatureCount = o.signatureCount) :=
    fun _ _ h => h
  exact hignores.deriveAddresses H mBlockData stackByte rfl

/-! ## The slots of the addresses -/

/-- The slots of keys that are not there are left as they were. -/
theorem multisigAddresses_unused (mBlockData : Memory) (left i : Nat) (o : BlockOutput) {j : Nat}
    (h : o.publicKey[j]? = some none) :
    (multisigAddresses H mBlockData left i o).addresses[j]? = o.addresses[j]? := by
  induction left generalizing i o with
  | zero => rfl
  | succ left ih =>
    unfold multisigAddresses
    split
    · rfl
    · rename_i key hkey
      have hij : i ≠ j := by
        rintro rfl
        rw [getD_of_get h] at hkey
        cases hkey
      refine (ih (i + 1) { o with addresses := o.addresses.setIfInBounds i _ } h).trans ?_
      exact Vector.getElem?_setIfInBounds_ne hij

theorem deriveAddresses_unused (mBlockData : Memory) (stackByte : UInt8) {o : BlockOutput}
    (htype : o.keyType = .KT_MULTISIG) {j : Nat} (h : o.publicKey[j]? = some none) :
    (deriveAddresses H mBlockData stackByte o).addresses[j]? = o.addresses[j]? := by
  unfold deriveAddresses
  split
  · rfl
  · rw [htype]
    exact multisigAddresses_unused H mBlockData MAX_MULTISIG 0 o h

namespace MultisigScript

/-- The five slots: the addresses of the keys, and zeros behind them. -/
def slots (script : MultisigScript) : List (Vector UInt8 25) :=
  script.keys.map (PublicKey.address H) ++
    List.replicate (MAX_MULTISIG - script.keys.length) (Vector.replicate 25 0)

/-- The 125 bytes that are hashed for the address of the output. -/
def slotBytes (script : MultisigScript) : List UInt8 := (script.slots H).flatMap Vector.toList

theorem slots_length (script : MultisigScript) : (script.slots H).length = 5 := by
  have hfive := script.five_keys
  simp [slots, MAX_MULTISIG]
  omega

end MultisigScript

/-- The addresses of the output are the slots of the script. -/
theorem decodeScript_slots {mBlockData : Memory} {w : OutputWire} {p : Nat}
    {script : MultisigScript} (hscript : w.challengeScript = script.bytes)
    (h : Holds mBlockData p w.bytes) (stackByte : UInt8) :
    (decodeScript H mBlockData stackByte (w.output p)).output.addresses.toList =
      script.slots H := by
  have hdecoded := decodeScript_multisig H hscript h stackByte
  have hholds := w.holds_script h
  rw [hscript] at hholds
  have hstored := (keyedOutput_multisig hscript hholds).1
  have hsame := sameKeys_decodeScript H mBlockData stackByte (w.output p)
  have htype := hsame.keyType.symm.trans hdecoded.keyType
  apply List.ext_getElem?
  intro i
  rw [Vector.getElem?_toList]
  rcases Nat.lt_or_ge i script.keys.length with hlt | hge
  · have hi : script.keys[i]? = some script.keys[i] := List.getElem?_eq_getElem hlt
    rw [hdecoded.addresses i _ hi, MultisigScript.slots,
      List.getElem?_append_left (by simpa using hlt), List.getElem?_map, hi]
    rfl
  · rcases Nat.lt_or_ge i 5 with h5 | h5
    · have hnone := hdecoded.unused i h5 hge
      rw [hsame.publicKey] at hnone
      rw [addresses_decodeScript, deriveAddresses_unused H mBlockData stackByte htype hnone,
        hstored.addresses, MultisigScript.slots, List.getElem?_append_right (by simpa using hge),
        List.length_map, List.getElem?_replicate, if_pos (by rw [MAX_MULTISIG]; omega)]
      exact (Vector.getElem?_replicate).trans (if_pos h5)
    · rw [Vector.getElem?_eq_none h5, List.getElem?_eq_none (by rw [script.slots_length]; exact h5)]

/-! ## The text -/

/-- What the text starts with. -/
def multisigLabel (signatureCount : UInt32) : List UInt8 :=
  asciiBytes "MultiSig[" ++ asciiBytes (toString signatureCount.toInt32) ++ asciiBytes "]"

theorem addressText_eq (address : Vector UInt8 25) :
    addressText address = writtenText address.toList := by
  have hshort := writtenText_length_le address
  have hne := writtenText_ne_zero address
  unfold addressText bitcoinAddressToAscii
  rw [encodeBase58_room address (by omega) (by omega)]
  simp only
  rw [List.takeWhile_append_of_pos]
  · simp
  · intro c hc
    simp only [decide_eq_true_eq]
    rintro rfl
    exact hne hc

/-- The colon that stands between two texts. -/
theorem asciiBytes_colon : asciiBytes ":" = [58] := by decide

theorem intercalate_colon (text : List UInt8) (texts : List (List UInt8)) :
    [58].intercalate (text :: texts) = text ++ texts.flatMap (58 :: ·) := by
  induction texts generalizing text with
  | nil => simp
  | cons next texts ih => simp [ih]

/-- The output has so many keys, and these are the texts of their addresses. -/
structure HasTexts (o : BlockOutput) (texts : List (List UInt8)) : Prop where
  keys : ∀ (j : Nat) (text : List UInt8), texts[j]? = some text →
    (∃ key, o.publicKey[j]? = some (some key)) ∧
      ∃ address, o.addresses[j]? = some address ∧ addressText address = text
  last : texts.length < 5 → o.publicKey[texts.length]? = some none

/-- The loop writes the texts of the addresses up to the first key that is missing. -/
theorem addressTexts_rest {o : BlockOutput} {texts : List (List UInt8)} (h : HasTexts o texts)
    (left i : Nat) (hi : i + left = 5) (hpos : 0 < i) (hle : i ≤ texts.length)
    (start : List UInt8) :
    addressTexts o left i start = start ++ (texts.drop i).flatMap (58 :: ·) := by
  induction left generalizing i start with
  | zero =>
    have hall : texts.length ≤ i := by
      by_contra hlt
      obtain ⟨⟨key, hkey⟩, -⟩ := h.keys i _ (List.getElem?_eq_getElem (by omega))
      rw [Vector.getElem?_eq_none (by omega)] at hkey
      cases hkey
    rw [List.drop_eq_nil_of_le hall]
    simp [addressTexts]
  | succ left ih =>
    unfold addressTexts
    rcases Nat.lt_or_ge i texts.length with hlt | hge
    · obtain ⟨⟨key, hkey⟩, address, haddress, htext⟩ :=
        h.keys i _ (List.getElem?_eq_getElem hlt)
      rw [getD_of_get hkey, getD_of_get haddress, List.drop_eq_getElem_cons hlt]
      simp only
      rw [htext, if_pos (by omega), ih (i + 1) (by omega) (by omega) hlt, asciiBytes_colon,
        List.flatMap_cons]
      simp only [List.append_assoc, List.cons_append, List.nil_append]
    · have hlength : texts.length = i := by omega
      have hnone := h.last (by omega)
      rw [hlength] at hnone
      rw [getD_of_get hnone, List.drop_eq_nil_of_le hge]
      simp

theorem addressTexts_all {o : BlockOutput} {texts : List (List UInt8)} (h : HasTexts o texts)
    (hne : texts ≠ []) (start : List UInt8) :
    addressTexts o MAX_MULTISIG 0 start = start ++ [58].intercalate texts := by
  obtain ⟨first, rest, rfl⟩ := List.exists_cons_of_ne_nil hne
  obtain ⟨⟨key, hkey⟩, address, haddress, htext⟩ := h.keys 0 first rfl
  have hrest := addressTexts_rest h 4 1 rfl (by omega) (by simp)
  rw [MAX_MULTISIG]
  unfold addressTexts
  rw [getD_of_get hkey, getD_of_get haddress, intercalate_colon]
  simp only
  rw [htext, if_neg (by omega), hrest]
  simp

theorem getAsciiAddress_multisig {o : BlockOutput} (h : o.keyType = .KT_MULTISIG) :
    (getAsciiAddress H o).asciiAddress =
        addressTexts o MAX_MULTISIG 0 (multisigLabel o.signatureCount) ∧
      (getAsciiAddress H o).multisig = bitcoinRIPEMD160ToAddress H
        (H.computeRIPEMD160 (o.addresses.toList.flatMap Vector.toList)) := by
  unfold getAsciiAddress
  simp only [h]
  exact ⟨rfl, rfl⟩

/-- The texts of the addresses of the keys. -/
def MultisigScript.keyTexts (script : MultisigScript) : List (List UInt8) :=
  script.keys.map fun key => writtenText (key.address H).toList

theorem MultisigScript.keyTexts_ne_nil (script : MultisigScript) : script.keyTexts H ≠ [] := by
  have hsome := script.some_signature
  have henough := script.enough_keys
  intro hnil
  have hlength := congrArg List.length hnil
  rw [keyTexts, List.length_map, List.length_nil] at hlength
  omega

/-- The address and the text of a multi-signature output. -/
theorem decodeScript_identity {mBlockData : Memory} {w : OutputWire} {p : Nat}
    {script : MultisigScript} (hscript : w.challengeScript = script.bytes)
    (h : Holds mBlockData p w.bytes) (stackByte : UInt8) :
    (decodeScript H mBlockData stackByte (w.output p)).output.multisig =
        bitcoinRIPEMD160ToAddress H (H.computeRIPEMD160 (script.slotBytes H)) ∧
      (decodeScript H mBlockData stackByte (w.output p)).output.asciiAddress =
        multisigLabel 1 ++ [58].intercalate (script.keyTexts H) := by
  have hdecoded := decodeScript_multisig H hscript h stackByte
  have hslots := decodeScript_slots H hscript h stackByte
  obtain ⟨derived, hderived⟩ : ∃ derived, derived = deriveAddresses H mBlockData stackByte
    (keyedOutput mBlockData (w.output p)) := ⟨_, rfl⟩
  have hcount : derived.signatureCount = 1 := by
    rw [hderived, signatureCount_deriveAddresses, signatureCount_keyedOutput]
    rfl
  have houtput := decodeScript_output H mBlockData stackByte (w.output p)
  simp only at houtput
  rw [← hderived] at houtput
  have hsame := sameKeys_getAsciiAddress H { derived with keyTypeName := getKeyType derived.keyType }
  have haddresses :=
    addresses_getAsciiAddress H { derived with keyTypeName := getKeyType derived.keyType }
  rw [← houtput] at hsame haddresses
  have htype : derived.keyType = .KT_MULTISIG := hsame.keyType.symm.trans hdecoded.keyType
  obtain ⟨htext, hmultisig⟩ := getAsciiAddress_multisig H
    (o := { derived with keyTypeName := getKeyType derived.keyType }) htype
  rw [← houtput] at htext hmultisig
  have htexts : HasTexts { derived with keyTypeName := getKeyType derived.keyType }
      (script.keyTexts H) := by
    constructor
    · intro j text hj
      rw [MultisigScript.keyTexts, List.getElem?_map, Option.map_eq_some_iff] at hj
      obtain ⟨key, hkey, rfl⟩ := hj
      refine ⟨⟨.blockData (w.scriptPlace p + script.keyOffset j), ?_⟩, key.address H, ?_,
        addressText_eq _⟩
      · rw [← hsame.publicKey]
        exact (hdecoded.publicKey j key hkey).1
      · rw [← haddresses]
        exact hdecoded.addresses j key hkey
    · intro hlt
      rw [← hsame.publicKey]
      rw [MultisigScript.keyTexts, List.length_map] at hlt ⊢
      exact hdecoded.unused _ hlt (le_refl _)
  constructor
  · rw [hmultisig, ← haddresses, hslots, MultisigScript.slotBytes]
  · rw [htext, addressTexts_all htexts (script.keyTexts_ne_nil H), hcount]

/-! ## What is known from them -/

/-- The hash functions tell apart what they hash for the two scripts, and no
address looks like an empty slot. -/
structure HashesApart (script1 script2 : MultisigScript) : Prop where
  keys : ∀ key1 ∈ script1.keys, ∀ key2 ∈ script2.keys,
    H.computeSHA256 key1.bytes = H.computeSHA256 key2.bytes → key1.bytes = key2.bytes
  hashes : ∀ key1 ∈ script1.keys, ∀ key2 ∈ script2.keys,
    keyHash H key1.bytes = keyHash H key2.bytes →
      H.computeSHA256 key1.bytes = H.computeSHA256 key2.bytes
  slots : H.computeRIPEMD160 (script1.slotBytes H) = H.computeRIPEMD160 (script2.slotBytes H) →
    script1.slotBytes H = script2.slotBytes H
  emptySlot : ¬ ZeroChecksum H

theorem PublicKey.bytes_inj {key1 key2 : PublicKey} (h : key1.bytes = key2.bytes) :
    key1 = key2 := by
  cases key1 with
  | compressed bytes1 length1 first1 =>
    cases key2 with
    | compressed bytes2 length2 first2 =>
      obtain rfl : bytes1 = bytes2 := h
      rfl
    | uncompressed bytes2 length2 first2 =>
      have hlength := congrArg List.length h
      simp [PublicKey.bytes, length1, length2] at hlength
  | uncompressed bytes1 length1 first1 =>
    cases key2 with
    | compressed bytes2 length2 first2 =>
      have hlength := congrArg List.length h
      simp [PublicKey.bytes, length1, length2] at hlength
    | uncompressed bytes2 length2 first2 =>
      obtain rfl : bytes1 = bytes2 := h
      rfl

theorem map_inj_of_mem {α β : Type} {f : α → β} {l1 l2 : List α}
    (h : ∀ a ∈ l1, ∀ b ∈ l2, f a = f b → a = b) (heq : l1.map f = l2.map f) : l1 = l2 := by
  induction l1 generalizing l2 with
  | nil => exact (List.map_eq_nil_iff.mp heq.symm).symm
  | cons a l1 ih =>
    cases l2 with
    | nil => cases heq
    | cons b l2 =>
      rw [List.map_cons, List.map_cons, List.cons.injEq] at heq
      have hfirst := h a List.mem_cons_self b List.mem_cons_self heq.1
      have hrest := ih (fun a ha b hb => h a (List.mem_cons_of_mem _ ha) b
        (List.mem_cons_of_mem _ hb)) heq.2
      rw [hfirst, hrest]

/-- Blocks of 25 bytes are known from their bytes one after the other. -/
theorem flatMap_toList_inj {l1 l2 : List (Vector UInt8 25)} (hlength : l1.length = l2.length)
    (h : l1.flatMap Vector.toList = l2.flatMap Vector.toList) : l1 = l2 := by
  induction l1 generalizing l2 with
  | nil => exact (List.length_eq_zero_iff.mp hlength.symm).symm
  | cons a l1 ih =>
    cases l2 with
    | nil => cases hlength
    | cons b l2 =>
      rw [List.flatMap_cons, List.flatMap_cons] at h
      obtain ⟨hfirst, hrest⟩ := List.append_inj h (by simp)
      rw [Vector.toList_inj.mp hfirst, ih (Nat.succ.inj hlength) hrest]

section Apart

variable {H} {script1 script2 : MultisigScript}

theorem address_ne_zeros (h : ¬ ZeroChecksum H) (key : PublicKey) :
    key.address H ≠ Vector.replicate 25 0 := by
  intro hzeros
  have hwellFormed := isWellFormed_toAddress H 0 (keyHash H key.bytes)
  rw [← key.address_eq, hzeros] at hwellFormed
  exact h ((isWellFormed_zeros H).mp hwellFormed)

theorem address_inj (happart : HashesApart H script1 script2) :
    ∀ key1 ∈ script1.keys, ∀ key2 ∈ script2.keys,
      key1.address H = key2.address H → key1 = key2 := by
  intro key1 h1 key2 h2 h
  rw [key1.address_eq, key2.address_eq, toAddress_inj] at h
  exact PublicKey.bytes_inj (happart.keys key1 h1 key2 h2 (happart.hashes key1 h1 key2 h2 h))

/-- The addresses of the keys are the slots up to the first that is empty. -/
theorem takeWhile_slots (h : ¬ ZeroChecksum H) (script : MultisigScript) :
    (script.slots H).takeWhile (· ≠ Vector.replicate 25 0) =
      script.keys.map (PublicKey.address H) := by
  rw [MultisigScript.slots, List.takeWhile_append_of_pos]
  · simp
  · intro address haddress
    obtain ⟨key, -, rfl⟩ := List.mem_map.mp haddress
    simpa using address_ne_zeros h key

theorem keys_eq_of_slotBytes (happart : HashesApart H script1 script2)
    (h : script1.slotBytes H = script2.slotBytes H) : script1.keys = script2.keys := by
  have hslots : script1.slots H = script2.slots H :=
    flatMap_toList_inj (by rw [script1.slots_length, script2.slots_length]) h
  have hmap := congrArg (List.takeWhile (· ≠ Vector.replicate 25 0)) hslots
  rw [takeWhile_slots happart.emptySlot, takeWhile_slots happart.emptySlot] at hmap
  exact map_inj_of_mem (address_inj happart) hmap

/-- No text of an address has a colon in it. -/
theorem colon_not_mem (script : MultisigScript) : ∀ text ∈ script.keyTexts H, 58 ∉ text := by
  have hdigits : ∀ d < 58, digitChar d ≠ 58 := by decide
  intro text htext hcolon
  obtain ⟨key, -, rfl⟩ := List.mem_map.mp htext
  obtain ⟨d, hd, hchar⟩ := mem_writtenText hcolon
  exact hdigits d hd hchar.symm

theorem keys_eq_of_texts (happart : HashesApart H script1 script2)
    (h : [58].intercalate (script1.keyTexts H) = [58].intercalate (script2.keyTexts H)) :
    script1.keys = script2.keys := by
  have htexts := congrArg (List.splitOn 58) h
  rw [List.splitOn_intercalate 58 (colon_not_mem script1) (script1.keyTexts_ne_nil H),
    List.splitOn_intercalate 58 (colon_not_mem script2) (script2.keyTexts_ne_nil H)] at htexts
  refine map_inj_of_mem ?_ htexts
  intro key1 h1 key2 h2 htext
  exact address_inj happart key1 h1 key2 h2 (writtenText_inj.mp htext)

end Apart

/-- The outputs of two scripts have the same address, and the same text, exactly
when the scripts have the same keys. -/
structure IdentifiedByKeys (script1 script2 : MultisigScript) (o1 o2 : BlockOutput) : Prop where
  multisig : o1.multisig = o2.multisig ↔ script1.keys = script2.keys
  asciiAddress : o1.asciiAddress = o2.asciiAddress ↔ script1.keys = script2.keys

theorem slotBytes_congr {script1 script2 : MultisigScript} (h : script1.keys = script2.keys) :
    script1.slotBytes H = script2.slotBytes H := by
  unfold MultisigScript.slotBytes MultisigScript.slots
  rw [h]

theorem keyTexts_congr {script1 script2 : MultisigScript} (h : script1.keys = script2.keys) :
    script1.keyTexts H = script2.keyTexts H := by
  unfold MultisigScript.keyTexts
  rw [h]

/-- The address and the text of a multi-signature output stand for the list of its
keys: they are the same for two scripts exactly when these are. -/
theorem multisig_outputs_are_identified_by_their_keys (s1 s2 : ParseState) (k1 k2 : Nat)
    (w1 w2 : OutputWire) (script1 script2 : MultisigScript)
    (hscript1 : w1.challengeScript = script1.bytes) (hscript2 : w2.challengeScript = script2.bytes)
    (h1 : Holds s1.block.mBlockData s1.block.mBlockRead w1.bytes)
    (h2 : Holds s2.block.mBlockData s2.block.mBlockRead w2.bytes)
    (happart : HashesApart H script1 script2) :
    ∃ s1' s2', (readOutput H k1).run s1 = .ok true s1' ∧ (readOutput H k2).run s2 = .ok true s2' ∧
      IdentifiedByKeys script1 script2 (s1'.block.mOutputs k1) (s2'.block.mOutputs k2) := by
  obtain ⟨s1', hrun1, hstored1⟩ := readOutput_stores H k1 h1
  obtain ⟨s2', hrun2, hstored2⟩ := readOutput_stores H k2 h2
  obtain ⟨hmultisig1, htext1⟩ := decodeScript_identity H hscript1 h1 (s1.stack 0)
  obtain ⟨hmultisig2, htext2⟩ := decodeScript_identity H hscript2 h2 (s2.stack 0)
  refine ⟨s1', s2', hrun1, hrun2, ?_, ?_⟩
  · rw [hstored1, hstored2, hmultisig1, hmultisig2, bitcoinRIPEMD160ToAddress,
      bitcoinRIPEMD160ToAddress, toAddress_inj]
    constructor
    · intro hhash
      exact keys_eq_of_slotBytes happart (happart.slots hhash)
    · intro hkeys
      rw [slotBytes_congr H hkeys]
  · rw [hstored1, hstored2, htext1, htext2, List.append_cancel_left_eq]
    constructor
    · intro htexts
      exact keys_eq_of_texts happart htexts
    · intro hkeys
      rw [keyTexts_congr H hkeys]

def fivesKey : PublicKey := .compressed (0x03 :: List.replicate 32 5) rfl (Or.inr rfl)

/-- So many signatures of two times the same key. -/
def sameKeyTwice (signatures : Nat) (some_signature : 1 ≤ signatures) (two_keys : signatures ≤ 2) :
    MultisigScript :=
  { signatures
    keys := [fivesKey, fivesKey]
    some_signature
    enough_keys := two_keys
    five_keys := by decide }

def oneOfTwo : MultisigScript := sameKeyTwice 1 (le_refl 1) (by decide)

def twoOfTwo : MultisigScript := sameKeyTwice 2 (by decide) (le_refl 2)

def oneOfTwoOutput : OutputWire := shortOutput oneOfTwo.bytes (by decide)

def twoOfTwoOutput : OutputWire := shortOutput twoOfTwo.bytes (by decide)

theorem hashesApart_sameKeyTwice : HashesApart zeroHashes oneOfTwo twoOfTwo := by
  have hkeys : ∀ key1 ∈ oneOfTwo.keys, ∀ key2 ∈ twoOfTwo.keys, key1 = key2 := by
    intro key1 h1 key2 h2
    have hfives : ∀ key ∈ [fivesKey, fivesKey], key = fivesKey := by simp
    exact (hfives key1 h1).trans (hfives key2 h2).symm
  refine ⟨?_, ?_, fun _ => rfl, fun hz => absurd (hz 0) (by decide)⟩
  · intro key1 h1 key2 h2 _
    rw [hkeys key1 h1 key2 h2]
  · intro key1 h1 key2 h2 _
    rw [hkeys key1 h1 key2 h2]

theorem one_and_two_of_the_same_keys_are_identified :
    oneOfTwoOutput.challengeScript = oneOfTwo.bytes ∧
    twoOfTwoOutput.challengeScript = twoOfTwo.bytes ∧
    Holds (ParseState.ofBytes oneOfTwoOutput.bytes).block.mBlockData 0 oneOfTwoOutput.bytes ∧
    Holds (ParseState.ofBytes twoOfTwoOutput.bytes).block.mBlockData 0 twoOfTwoOutput.bytes ∧
    HashesApart zeroHashes oneOfTwo twoOfTwo ∧
    ∃ s1' s2', (readOutput zeroHashes 0).run (ParseState.ofBytes oneOfTwoOutput.bytes) =
        .ok true s1' ∧
      (readOutput zeroHashes 0).run (ParseState.ofBytes twoOfTwoOutput.bytes) = .ok true s2' ∧
      IdentifiedByKeys oneOfTwo twoOfTwo (s1'.block.mOutputs 0) (s2'.block.mOutputs 0) :=
  ⟨rfl, rfl, holds_overlay _ _, holds_overlay _ _, hashesApart_sameKeyTwice,
    multisig_outputs_are_identified_by_their_keys zeroHashes _ _ 0 0 oneOfTwoOutput twoOfTwoOutput
      oneOfTwo twoOfTwo rfl rfl (holds_overlay _ _) (holds_overlay _ _) hashesApart_sameKeyTwice⟩

/-- One signature and two of the same keys give the same address and the same text. -/
theorem the_count_of_signatures_is_not_identified :
    HashesApart zeroHashes oneOfTwo twoOfTwo ∧
    ∃ s1' s2', (readOutput zeroHashes 0).run (ParseState.ofBytes oneOfTwoOutput.bytes) =
        .ok true s1' ∧
      (readOutput zeroHashes 0).run (ParseState.ofBytes twoOfTwoOutput.bytes) = .ok true s2' ∧
      (s1'.block.mOutputs 0).multisig = (s2'.block.mOutputs 0).multisig ∧
      (s1'.block.mOutputs 0).asciiAddress = (s2'.block.mOutputs 0).asciiAddress ∧
      oneOfTwo.signatures ≠ twoOfTwo.signatures := by
  have h1 : Holds (ParseState.ofBytes oneOfTwoOutput.bytes).block.mBlockData 0
      oneOfTwoOutput.bytes := holds_overlay _ _
  have h2 : Holds (ParseState.ofBytes twoOfTwoOutput.bytes).block.mBlockData 0
      twoOfTwoOutput.bytes := holds_overlay _ _
  obtain ⟨s1', hrun1, hstored1⟩ := readOutput_stores zeroHashes 0 h1
  obtain ⟨s2', hrun2, hstored2⟩ := readOutput_stores zeroHashes 0 h2
  obtain ⟨hmultisig1, htext1⟩ := @decodeScript_identity zeroHashes _ _ _ oneOfTwo rfl h1
    ((ParseState.ofBytes oneOfTwoOutput.bytes).stack 0)
  obtain ⟨hmultisig2, htext2⟩ := @decodeScript_identity zeroHashes _ _ _ twoOfTwo rfl h2
    ((ParseState.ofBytes twoOfTwoOutput.bytes).stack 0)
  refine ⟨hashesApart_sameKeyTwice, s1', s2', hrun1, hrun2, ?_, ?_, by decide⟩
  · rw [hstored1, hstored2]
    exact hmultisig1.trans hmultisig2.symm
  · rw [hstored1, hstored2]
    exact htext1.trans htext2.symm

end bitcoinstats.block_chain
