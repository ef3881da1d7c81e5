-- The keys that an output has once `readOutput` is through with it: the ones that
-- the tests on the script located, or a built-in key where they found none.
import BitcoinStats.AddressDerivation

open byte_memory exec cursor bitcoinstats.bitcoin_address

namespace bitcoinstats.block_chain

variable (H : Hashes)

/-! ## Public keys -/

/-- The two forms of a public key, each with its first byte. -/
inductive PublicKey
  | compressed (key : List UInt8) (length : key.length = 33)
      (first : key.head? = some 0x02 ∨ key.head? = some 0x03)
  | uncompressed (key : List UInt8) (length : key.length = 65) (first : key.head? = some 0x04)

def PublicKey.bytes : PublicKey → List UInt8
  | .compressed key _ _ => key
  | .uncompressed key _ _ => key

def PublicKey.isCompressed : PublicKey → Bool
  | .compressed _ _ _ => true
  | .uncompressed _ _ _ => false

def PublicKey.address (key : PublicKey) : Vector UInt8 25 :=
  toAddress H 0 (H.computeRIPEMD160 (H.computeSHA256 key.bytes).toList)

/-- The 20 bytes that the address of a key is made of. -/
def keyHash (key : List UInt8) : Vector UInt8 20 :=
  H.computeRIPEMD160 (H.computeSHA256 key).toList

theorem PublicKey.address_eq (key : PublicKey) :
    key.address H = toAddress H 0 (keyHash H key.bytes) := rfl

/-- The instruction that pushes the key. -/
def PublicKey.push (key : PublicKey) : UInt8 := if key.isCompressed then 0x21 else 0x41

theorem PublicKey.push_toNat (key : PublicKey) : key.push.toNat = key.bytes.length := by
  cases key with
  | compressed key length first => exact length.symm
  | uncompressed key length first => exact length.symm

theorem head_of_holds {input : Memory} {bytes : List UInt8} {b : UInt8} (h : Holds input 0 bytes)
    (hb : bytes.head? = some b) : input 0 = b := by
  cases bytes with
  | nil => cases hb
  | cons c bytes =>
    rw [List.head?_cons] at hb
    rw [← Option.some.inj hb]
    exact ((holds_cons _ _ _ _).mp h).1

theorem compressedPublicKeyToAddress_eq {input : Memory} {key : List UInt8}
    (hlength : key.length = 33) (hfirst : key.head? = some 0x02 ∨ key.head? = some 0x03)
    (h : Holds input 0 key) (output : Vector UInt8 25) :
    bitcoinCompressedPublicKeyToAddress H input output =
      (true, (PublicKey.compressed key hlength hfirst).address H) := by
  have hinput : input 0 = 0x02 ∨ input 0 = 0x03 := hfirst.imp (head_of_holds h) (head_of_holds h)
  unfold bitcoinCompressedPublicKeyToAddress
  rw [if_pos hinput, h.window_eq hlength]
  rfl

theorem publicKeyToAddress_eq {input : Memory} {key : List UInt8} (hlength : key.length = 65)
    (hfirst : key.head? = some 0x04) (h : Holds input 0 key) (output : Vector UInt8 25) :
    bitcoinPublicKeyToAddress H input output =
      (true, (PublicKey.uncompressed key hlength hfirst).address H) := by
  unfold bitcoinPublicKeyToAddress
  rw [if_pos (head_of_holds h hfirst), h.window_eq hlength]
  rfl

theorem keyAddress_eq {input : Memory} {key : PublicKey} {compressed : Prop}
    [Decidable compressed] (h : Holds input 0 key.bytes) (hform : compressed ↔ key.isCompressed) :
    keyAddress H compressed input = key.address H := by
  unfold keyAddress
  cases key with
  | compressed key length first =>
    rw [if_pos (hform.mpr rfl), compressedPublicKeyToAddress_eq H length first h]
  | uncompressed key length first =>
    rw [if_neg (fun hc => Bool.false_ne_true (hform.mp hc)), publicKeyToAddress_eq H length first h]

/-! ## The keys of an output -/

/-- The output once the tests on its script are through. -/
def locatedOutput (mBlockData : Memory) (output : BlockOutput) : BlockOutput :=
  match output.challengeScript with
  | some script =>
    (locateKeys (fun i => mBlockData (script + i)) script output.challengeScriptLength.toNat
      output).1
  | none => output

/-- A built-in key stands for the one that was not found. -/
def keyedOutput (mBlockData : Memory) (output : BlockOutput) : BlockOutput :=
  if (getElem (locatedOutput mBlockData output).publicKey 0 first_lt_five).isNone then
    (locatedOutput mBlockData output).setKey
      (if output.challengeScriptLength.toNat = 0 then .zeroByteKey else .dummyKey) .KT_RIPEMD160
  else locatedOutput mBlockData output

/-- The keys of two outputs and their types are the same. -/
structure SameKeys (o o' : BlockOutput) : Prop where
  keyType : o'.keyType = o.keyType
  multiSigFormat : o'.multiSigFormat = o.multiSigFormat
  publicKey : o'.publicKey = o.publicKey

theorem SameKeys.refl (o : BlockOutput) : SameKeys o o := ⟨rfl, rfl, rfl⟩

theorem SameKeys.trans {o1 o2 o3 : BlockOutput} (h1 : SameKeys o1 o2) (h2 : SameKeys o2 o3) :
    SameKeys o1 o3 :=
  ⟨h2.keyType.trans h1.keyType, h2.multiSigFormat.trans h1.multiSigFormat,
    h2.publicKey.trans h1.publicKey⟩

theorem sameKeys_deriveAddresses (mBlockData : Memory) (stackByte : UInt8) (o : BlockOutput) :
    SameKeys o (deriveAddresses H mBlockData stackByte o) := by
  have hignores : IgnoresAddresses (SameKeys o) :=
    fun _ _ h => ⟨h.keyType, h.multiSigFormat, h.publicKey⟩
  exact hignores.deriveAddresses H mBlockData stackByte (SameKeys.refl o)

theorem sameKeys_getAsciiAddress (o : BlockOutput) : SameKeys o (getAsciiAddress H o) := by
  unfold getAsciiAddress
  extract_lets start output
  split
  · exact ⟨rfl, rfl, rfl⟩
  · exact ⟨rfl, rfl, rfl⟩

theorem addresses_getAsciiAddress (o : BlockOutput) :
    (getAsciiAddress H o).addresses = o.addresses := by
  unfold getAsciiAddress
  extract_lets start output
  split
  · rfl
  · rfl

/-- The stages of the decoding: the keys, their addresses, and the texts. -/
theorem decodeScript_output (mBlockData : Memory) (stackByte : UInt8) (o : BlockOutput) :
    (decodeScript H mBlockData stackByte o).output =
      let derived := deriveAddresses H mBlockData stackByte (keyedOutput mBlockData o)
      getAsciiAddress H { derived with keyTypeName := getKeyType derived.keyType } := by
  unfold decodeScript keyedOutput locatedOutput
  cases o.challengeScript with
  | some script => rfl
  | none => rfl

/-- The output as stored has the keys that were located for it. -/
theorem sameKeys_decodeScript (mBlockData : Memory) (stackByte : UInt8) (o : BlockOutput) :
    SameKeys (keyedOutput mBlockData o) (decodeScript H mBlockData stackByte o).output := by
  rw [decodeScript_output]
  refine (sameKeys_deriveAddresses H mBlockData stackByte _).trans ?_
  refine SameKeys.trans ?_ (sameKeys_getAsciiAddress H _)
  exact ⟨rfl, rfl, rfl⟩

theorem addresses_decodeScript (mBlockData : Memory) (stackByte : UInt8) (o : BlockOutput) :
    (decodeScript H mBlockData stackByte o).output.addresses =
      (deriveAddresses H mBlockData stackByte (keyedOutput mBlockData o)).addresses := by
  rw [decodeScript_output]
  exact addresses_getAsciiAddress H _

theorem first_getElem? (o : BlockOutput) :
    o.publicKey[0]? = some (getElem o.publicKey 0 first_lt_five) :=
  Vector.getElem?_eq_getElem first_lt_five

/-- A key that was located stays. -/
theorem keyedOutput_of_key {mBlockData : Memory} {o r : BlockOutput} {key : KeyPointer}
    (hr : locatedOutput mBlockData o = r) (hkey : r.publicKey[0]? = some (some key)) :
    keyedOutput mBlockData o = r := by
  rw [first_getElem?] at hkey
  unfold keyedOutput
  rw [hr, Option.some.inj hkey]
  rfl

theorem keyedOutput_builtIn {mBlockData : Memory} {o : BlockOutput}
    (hnone : getElem (locatedOutput mBlockData o).publicKey 0 first_lt_five = none) :
    keyedOutput mBlockData o = (locatedOutput mBlockData o).setKey
      (if o.challengeScriptLength.toNat = 0 then .zeroByteKey else .dummyKey) .KT_RIPEMD160 := by
  unfold keyedOutput
  rw [hnone]
  rfl

theorem setKey_first (o : BlockOutput) (key : KeyPointer) (keyType : KeyType) :
    (o.setKey key keyType).publicKey[0]? = some (some key) := by
  rw [first_getElem?]
  exact congrArg some (Vector.getElem_set_self _)

/-! ## The output that is read -/

/-- Where the script of an output starts that starts at `p`. -/
def OutputWire.scriptPlace (w : OutputWire) (p : Nat) : Nat :=
  p + 8 + w.challengeScriptLength.bytes.length

theorem OutputWire.holds_script {w : OutputWire} {mem : Memory} {p : Nat} (h : Holds mem p w.bytes) :
    Holds mem (w.scriptPlace p) w.challengeScript := by
  rw [OutputWire.bytes, holds_append, holds_append, leBytes_length] at h
  exact h.2.2

theorem holds_shift {mem : Memory} {p : Nat} {bytes : List UInt8} (h : Holds mem p bytes) :
    Holds (fun i => mem (p + i)) 0 bytes := by
  rw [holds_iff] at h ⊢
  intro i hi
  rw [Nat.zero_add]
  exact h i hi

/-- The output of a script that is not empty, before its addresses. -/
theorem locatedOutput_wire (mBlockData : Memory) (w : OutputWire) (p : Nat)
    (hne : w.challengeScript ≠ []) :
    locatedOutput mBlockData (w.output p) =
      (locateKeys (fun i => mBlockData (w.scriptPlace p + i)) (w.scriptPlace p)
        w.challengeScript.length (w.output p)).1 := by
  have hlength : w.challengeScriptLength.value ≠ 0 := by
    intro h0
    have hlen := w.script_length
    rw [h0] at hlen
    exact hne (List.length_eq_zero_iff.mp hlen)
  have hscript : (w.output p).challengeScript = some (w.scriptPlace p) := if_pos hlength
  unfold locatedOutput
  rw [hscript, w.script_length]
  rfl

theorem locatedOutput_empty (mBlockData : Memory) (w : OutputWire) (p : Nat)
    (hempty : w.challengeScript = []) : locatedOutput mBlockData (w.output p) = w.output p := by
  have hlength : w.challengeScriptLength.value = 0 := by
    have hlen := w.script_length
    rw [hempty, List.length_nil] at hlen
    exact UInt32.toNat_inj.mp hlen.symm
  have hscript : (w.output p).challengeScript = none := if_neg (not_not.mpr hlength)
  unfold locatedOutput
  rw [hscript]

theorem unset_wire (w : OutputWire) (p : Nat) : Unset (w.output p) :=
  ⟨fun i _ => Vector.getElem_replicate i.isLt, rfl⟩

end bitcoinstats.block_chain
