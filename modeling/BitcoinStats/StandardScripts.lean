-- The standard scripts for one key: `readOutput` finds the key and gives its address,
-- but for a push of a key that has the pattern of the fallback scan among its bytes.
import BitcoinStats.OutputKeys

open byte_memory exec cursor bitcoinstats.bitcoin_address

namespace bitcoinstats.block_chain

variable (H : Hashes)

/-! ## The scripts -/

inductive StandardScript
  | pubKeyHash (hash : Vector UInt8 20)
  | scriptHash (hash : Vector UInt8 20)
  | publicKey (key : PublicKey)

namespace StandardScript

/-- What stands before the key, the key, and what stands after it. -/
def before : StandardScript → List UInt8
  | pubKeyHash _ => [OP_DUP, OP_HASH160, 20]
  | scriptHash _ => [OP_HASH160, 20]
  | publicKey key => [key.push]

def key : StandardScript → List UInt8
  | pubKeyHash hash => hash.toList
  | scriptHash hash => hash.toList
  | publicKey key => key.bytes

def after : StandardScript → List UInt8
  | pubKeyHash _ => [OP_EQUALVERIFY, OP_CHECKSIG]
  | scriptHash _ => [OP_EQUAL]
  | publicKey _ => [OP_CHECKSIG]

def bytes (script : StandardScript) : List UInt8 := script.before ++ (script.key ++ script.after)

@[simp] theorem bytes_pubKeyHash (hash : Vector UInt8 20) : (pubKeyHash hash).bytes =
    OP_DUP :: OP_HASH160 :: 20 :: (hash.toList ++ [OP_EQUALVERIFY, OP_CHECKSIG]) := rfl

@[simp] theorem bytes_scriptHash (hash : Vector UInt8 20) : (scriptHash hash).bytes =
    OP_HASH160 :: 20 :: (hash.toList ++ [OP_EQUAL]) := rfl

@[simp] theorem bytes_publicKey (key : PublicKey) : (publicKey key).bytes =
    key.push :: (key.bytes ++ [OP_CHECKSIG]) := rfl

theorem bytes_ne_nil (script : StandardScript) : script.bytes ≠ [] := by
  cases script <;> simp

def keyType : StandardScript → KeyType
  | pubKeyHash _ => .KT_RIPEMD160
  | scriptHash _ => .KT_SCRIPT_HASH
  | publicKey key => if key.isCompressed then .KT_COMPRESSED_PUBLIC_KEY else .KT_UNCOMPRESSED_PUBLIC_KEY

def address : StandardScript → Vector UInt8 25
  | pubKeyHash hash => bitcoinRIPEMD160ToAddress H hash
  | scriptHash hash => bitcoinRIPEMD160ToScriptAddress H hash
  | publicKey key => key.address H

/-- The script pushes an uncompressed key, and the 25 bytes that the fallback scan
looks for stand somewhere in this key. -/
def HidesPattern (script : StandardScript) : Prop :=
  script.keyType = .KT_UNCOMPRESSED_PUBLIC_KEY ∧
    ∃ i, i + 25 ≤ script.key.length ∧ PatternAt (scriptByte script.key) i

end StandardScript

/-- The output of a script that starts at `place` has the key of the script, its
type and its address. -/
structure Classified (script : StandardScript) (place : Nat) (o : BlockOutput) : Prop where
  keyType : o.keyType = script.keyType
  publicKey : o.publicKey[0]? = some (some (.blockData (place + script.before.length)))
  address : o.addresses[0]? = some (script.address H)

/-! ## Where the key is found -/

theorem locateKeys_pubKeyHash {b : Memory} {script : Nat} {o : BlockOutput} (h0 : b 0 = OP_DUP)
    (h1 : b 1 = OP_HASH160) (h2 : b 2 = 20) :
    (locateKeys b script 25 o).1 = o.setKey (.blockData (script + 3)) .KT_RIPEMD160 := by
  simp [locateKeys, h0, h1, h2]

theorem locateKeys_scriptHash {b : Memory} {script : Nat} {o : BlockOutput} (h0 : b 0 = OP_HASH160)
    (h1 : b 1 = 20) (h22 : b 22 = OP_EQUAL) :
    (locateKeys b script 23 o).1 = o.setKey (.blockData (script + 2)) .KT_SCRIPT_HASH := by
  simp [locateKeys, h0, h1, h22]

theorem locateKeys_compressed {b : Memory} {script : Nat} {o : BlockOutput}
    (h34 : b 34 = OP_CHECKSIG) :
    (locateKeys b script 35 o).1 =
      o.setKey (.blockData (script + 1)) .KT_COMPRESSED_PUBLIC_KEY := by
  simp [locateKeys, h34]

/-- The scan of a pushed key finds a pattern in the key, or none. -/
theorem patternScan_pushed {b : Memory} {key : List UInt8} (hlength : key.length = 65)
    (h : Holds b 0 (0x41 :: key)) :
    patternScan b 42 0 = none ↔ ¬ ∃ i, i + 25 ≤ key.length ∧ PatternAt (scriptByte key) i := by
  rw [holds_cons, holds_iff] at h
  have hbyte : ∀ i < 65, b (i + 1) = scriptByte key i := by
    intro i hi
    have hi' := h.2 i (by omega)
    rw [Nat.zero_add, Nat.add_comm] at hi'
    rw [hi', scriptByte, List.getD_eq_getElem?_getD, List.getElem?_eq_getElem (by omega)]
    rfl
  have hpattern : ∀ i, i + 25 ≤ 65 → (PatternAt b (i + 1) ↔ PatternAt (scriptByte key) i) := by
    intro i hi
    unfold PatternAt
    rw [← hbyte i (by omega), ← hbyte (i + 1) (by omega), ← hbyte (i + 2) (by omega),
      ← hbyte (i + 23) (by omega), ← hbyte (i + 24) (by omega)]
  constructor
  · rintro hnone ⟨i, hi, hat⟩
    refine patternScan_none hnone (i + 1) (by omega) (by omega) ?_
    rwa [hpattern i (by omega)]
  · intro hno
    cases hscan : patternScan b 42 0 with
    | none => rfl
    | some j =>
      rcases patternScan_some hscan with ⟨-, hj, hat⟩
      cases j with
      | zero =>
        -- the push instruction is no `OP_DUP`
        have hdup := hat.1
        rw [h.1] at hdup
        exact absurd hdup (by decide)
      | succ i => exact absurd ⟨i, by omega, (hpattern i (by omega)).mp hat⟩ hno

/-! ## What the output has -/

theorem first_set (o : BlockOutput) (address : Vector UInt8 25) :
    (o.addresses.set 0 address first_lt_five)[0]? = some address := by
  rw [Vector.getElem?_eq_getElem first_lt_five, Vector.getElem_set_self]

/-- The address of a key that was set. -/
theorem deriveAddresses_setKey {mBlockData : Memory} {stackByte : UInt8} {o : BlockOutput}
    {place : Nat} {script : StandardScript} (hkey : Holds mBlockData place script.key) :
    (deriveAddresses H mBlockData stackByte
      (o.setKey (.blockData place) script.keyType)).addresses[0]? = some (script.address H) := by
  have hinput := holds_shift hkey
  have hfirst : (o.setKey (.blockData place) script.keyType).publicKey[0] =
      some (.blockData place) := Vector.getElem_set_self _
  unfold deriveAddresses
  rw [hfirst]
  cases script with
  | pubKeyHash hash =>
    refine (first_set _ _).trans (congrArg some ?_)
    exact congrArg (bitcoinRIPEMD160ToAddress H) (bytesAt_of_holds hinput)
  | scriptHash hash =>
    refine (first_set _ _).trans (congrArg some ?_)
    exact congrArg (bitcoinRIPEMD160ToScriptAddress H) (bytesAt_of_holds hinput)
  | publicKey key =>
    cases key with
    | compressed key length first =>
      have haddress := compressedPublicKeyToAddress_eq H length first hinput
      exact (first_set _ _).trans (congrArg some (congrArg Prod.snd (haddress _)))
    | uncompressed key length first =>
      have haddress := publicKeyToAddress_eq H length first hinput
      exact (first_set _ _).trans (congrArg some (congrArg Prod.snd (haddress _)))

/-- A key that was located, and nothing else, makes the output what it should be. -/
theorem classified_of_located {mBlockData : Memory} {w : OutputWire} {p : Nat}
    {script : StandardScript} (hscript : w.challengeScript = script.bytes)
    (h : Holds mBlockData p w.bytes) (stackByte : UInt8)
    (hlocated : locatedOutput mBlockData (w.output p) = (w.output p).setKey
      (.blockData (w.scriptPlace p + script.before.length)) script.keyType) :
    Classified H script (w.scriptPlace p)
      (decodeScript H mBlockData stackByte (w.output p)).output := by
  have hkey : Holds mBlockData (w.scriptPlace p + script.before.length) script.key := by
    have hholds := w.holds_script h
    rw [hscript, StandardScript.bytes, holds_append, holds_append] at hholds
    exact hholds.2.1
  have hkeyed := keyedOutput_of_key hlocated (setKey_first _ _ _)
  have hsame := sameKeys_decodeScript H mBlockData stackByte (w.output p)
  rw [hkeyed] at hsame
  refine ⟨hsame.keyType, ?_, ?_⟩
  · rw [hsame.publicKey]
    exact setKey_first _ _ _
  · rw [addresses_decodeScript, hkeyed]
    exact deriveAddresses_setKey H hkey

/-- What the scan finds in a pushed key takes its place. -/
theorem not_classified_of_pattern {mBlockData : Memory} {w : OutputWire} {p place : Nat}
    {script : StandardScript} (stackByte : UInt8)
    (htype : script.keyType = .KT_UNCOMPRESSED_PUBLIC_KEY) {o : BlockOutput}
    (hlocated : locatedOutput mBlockData (w.output p) = o.setKey (.blockData place) .KT_RIPEMD160) :
    ¬ Classified H script (w.scriptPlace p)
      (decodeScript H mBlockData stackByte (w.output p)).output := by
  intro hclassified
  have hkeyed := keyedOutput_of_key hlocated (setKey_first _ _ _)
  have hsame := (sameKeys_decodeScript H mBlockData stackByte (w.output p)).keyType
  rw [hkeyed, hclassified.keyType, htype] at hsame
  exact KeyType.noConfusion hsame

/-- The script is classified, whatever its key is, or its key hides a pattern. -/
theorem decodeScript_classified {mBlockData : Memory} {w : OutputWire} {p : Nat}
    {script : StandardScript} (hscript : w.challengeScript = script.bytes)
    (h : Holds mBlockData p w.bytes) (stackByte : UInt8) :
    Classified H script (w.scriptPlace p)
      (decodeScript H mBlockData stackByte (w.output p)).output ↔ ¬ script.HidesPattern := by
  have hlocated := locatedOutput_wire mBlockData w p (by rw [hscript]; exact script.bytes_ne_nil)
  have hbytes := holds_shift (w.holds_script h)
  rw [hscript] at hlocated hbytes
  cases script with
  | pubKeyHash hash =>
    have htype : (StandardScript.pubKeyHash hash).keyType ≠ .KT_UNCOMPRESSED_PUBLIC_KEY := by
      simp [StandardScript.keyType]
    have hlength : (StandardScript.pubKeyHash hash).bytes.length = 25 := by simp
    simp at hbytes
    rw [hlength, locateKeys_pubKeyHash hbytes.1 hbytes.2.1 hbytes.2.2.1] at hlocated
    exact iff_of_true (classified_of_located H hscript h stackByte hlocated) (fun hp => htype hp.1)
  | scriptHash hash =>
    have htype : (StandardScript.scriptHash hash).keyType ≠ .KT_UNCOMPRESSED_PUBLIC_KEY := by
      simp [StandardScript.keyType]
    have hlength : (StandardScript.scriptHash hash).bytes.length = 23 := by simp
    simp at hbytes
    rw [hlength, locateKeys_scriptHash hbytes.1 hbytes.2.1 hbytes.2.2.2] at hlocated
    exact iff_of_true (classified_of_located H hscript h stackByte hlocated) (fun hp => htype hp.1)
  | publicKey key =>
    cases key with
    | compressed key length first =>
      have htype : (StandardScript.publicKey (.compressed key length first)).keyType ≠
          .KT_UNCOMPRESSED_PUBLIC_KEY := by
        simp [StandardScript.keyType, PublicKey.isCompressed]
      have hlength : (StandardScript.publicKey (.compressed key length first)).bytes.length = 35 := by
        simp [PublicKey.bytes, length]
      simp [PublicKey.bytes, length] at hbytes
      rw [hlength, locateKeys_compressed hbytes.2.2] at hlocated
      exact iff_of_true (classified_of_located H hscript h stackByte hlocated) (fun hp => htype hp.1)
    | uncompressed key length first =>
      have hlength : (StandardScript.publicKey (.uncompressed key length first)).bytes.length = 67 := by
        simp [PublicKey.bytes, length]
      simp [PublicKey.bytes, length, PublicKey.push, PublicKey.isCompressed] at hbytes
      have hscan := patternScan_pushed length (by simpa using ⟨hbytes.1, hbytes.2.1⟩)
      rw [hlength, locateKeys_pushed_eq hbytes.1 hbytes.2.2] at hlocated
      cases hfound : patternScan (fun i => mBlockData (w.scriptPlace p + i)) 42 0 with
      | none =>
        rw [hfound] at hlocated
        exact iff_of_true (classified_of_located H hscript h stackByte hlocated)
          (fun hp => hscan.mp hfound hp.2)
      | some i =>
        rw [hfound] at hlocated
        refine iff_of_false (not_classified_of_pattern H stackByte rfl hlocated) (fun hp => ?_)
        have hnone := hscan.mpr (fun hpattern => hp ⟨rfl, hpattern⟩)
        rw [hnone] at hfound
        cases hfound

/-- A standard script is read with its key and the address of this, exactly when
it does not push a key that has the pattern of the fallback scan among its bytes. -/
theorem a_standard_script_is_classified_exactly_without_a_hidden_pattern (s : ParseState) (k : Nat)
    (w : OutputWire) (script : StandardScript) (hscript : w.challengeScript = script.bytes)
    (h : Holds s.block.mBlockData s.block.mBlockRead w.bytes) :
    ∃ s', (readOutput H k).run s = .ok true s' ∧
      (Classified H script (w.scriptPlace s.block.mBlockRead) (s'.block.mOutputs k) ↔
        ¬ script.HidesPattern) := by
  rcases readOutput_stores H k h with ⟨s', hrun, hstored⟩
  refine ⟨s', hrun, ?_⟩
  rw [hstored]
  exact decodeScript_classified H hscript h (s.stack 0)

/-- A hash of 20 zeros. -/
def zeroHashOutput : OutputWire :=
  shortOutput (StandardScript.pubKeyHash (Vector.replicate 20 0)).bytes (by decide)

theorem a_hash_of_zeros_is_classified :
    zeroHashOutput.challengeScript = (StandardScript.pubKeyHash (Vector.replicate 20 0)).bytes ∧
    Holds (ParseState.ofBytes zeroHashOutput.bytes).block.mBlockData 0 zeroHashOutput.bytes ∧
    ∃ s', (readOutput zeroHashes 0).run (ParseState.ofBytes zeroHashOutput.bytes) = .ok true s' ∧
      (Classified zeroHashes (.pubKeyHash (Vector.replicate 20 0)) (zeroHashOutput.scriptPlace 0)
          (s'.block.mOutputs 0) ↔
        ¬ (StandardScript.pubKeyHash (Vector.replicate 20 0)).HidesPattern) :=
  ⟨rfl, holds_overlay _ _,
    a_standard_script_is_classified_exactly_without_a_hidden_pattern zeroHashes _ 0 zeroHashOutput
      (.pubKeyHash (Vector.replicate 20 0)) rfl (holds_overlay _ _)⟩

/-- An uncompressed key with the pattern right behind its first byte. -/
def patternKey : PublicKey :=
  .uncompressed (0x04 :: ([OP_DUP, OP_HASH160, 20] ++ List.replicate 20 0 ++
    [OP_EQUALVERIFY, OP_CHECKSIG] ++ List.replicate 39 0)) (by decide) rfl

def patternKeyOutput : OutputWire :=
  shortOutput (StandardScript.publicKey patternKey).bytes (by decide)

theorem a_key_with_a_hidden_pattern_is_not_classified :
    ∃ s', (readOutput zeroHashes 0).run (ParseState.ofBytes patternKeyOutput.bytes) = .ok true s' ∧
      ¬ Classified zeroHashes (.publicKey patternKey) (patternKeyOutput.scriptPlace 0)
        (s'.block.mOutputs 0) := by
  have h : Holds (ParseState.ofBytes patternKeyOutput.bytes).block.mBlockData 0
      patternKeyOutput.bytes := holds_overlay _ _
  have hides : (StandardScript.publicKey patternKey).HidesPattern :=
    ⟨rfl, 1, by decide, by unfold PatternAt; decide⟩
  rcases readOutput_stores zeroHashes 0 h with ⟨s', hrun, hstored⟩
  refine ⟨s', hrun, ?_⟩
  rw [hstored]
  exact fun hc => (decodeScript_classified zeroHashes rfl h _).mp hc hides

end bitcoinstats.block_chain
