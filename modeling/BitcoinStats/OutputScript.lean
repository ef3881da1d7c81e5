-- What `readOutput` makes of a challenge script: the type and the places of its
-- public keys, their addresses, and the text of the output.
import BitcoinStats.BlockChainTypes

open byte_memory bitcoinstats.base58 bitcoinstats.bitcoin_address

namespace bitcoinstats.block_chain

/-! ## The built-in keys -/

def asciiBytes (text : String) : List UInt8 := text.toList.map (fun c => UInt8.ofNat c.toNat)

def gDummyKeyAscii : List UInt8 := asciiBytes "1BadkEyPaj5oW2Uw4nY5BkYbPRYyTyqs9A"

def gZeroByteAscii : List UInt8 := asciiBytes "1zeroBTYRExUcufrTkwg27LsAvrhehtCJ"

variable (H : Hashes)

/-- What the constructor of `BlockChainImpl` stores in a zeroed key. -/
def builtInKey (text : List UInt8) : Vector UInt8 25 :=
  match bitcoinAsciiToAddress H text (Vector.replicate 25 0) with
  | some (_, output) => output
  | none => Vector.replicate 25 0

def gDummyKey : Vector UInt8 25 := builtInKey H gDummyKeyAscii

def gZeroByte : Vector UInt8 25 := builtInKey H gZeroByteAscii

/-- The bytes that a key pointer points at. -/
def KeyPointer.bytes (mBlockData : Memory) : KeyPointer → Memory
  | .blockData position => fun i => mBlockData (position + i)
  | .zeroByteKey => fun i => (gZeroByte H).getD (i + 1) 0
  | .dummyKey => fun i => (gDummyKey H).getD (i + 1) 0

/-! ## Where the keys are

`b i` is the byte `i` of the script, which starts at the position `script`. -/

/-- `output.publicKey[0] = key` and `output.keyType = keyType`. -/
def BlockOutput.setKey (output : BlockOutput) (key : KeyPointer) (keyType : KeyType) :
    BlockOutput :=
  { output with publicKey := output.publicKey.set 0 (some key), keyType := keyType }

/-- The loop over the keys of a multi-signature script. -/
def multisigLoop (b : Memory) (script scanEnd : Nat) :
    Nat → Nat → Nat → BlockOutput → BlockOutput
  | 0, _, _, output => output
  | left + 1, keyIndex, scan, output =>
    if scan < scanEnd then
      if b scan = 0x21 then
        multisigLoop b script scanEnd left (keyIndex + 1) (scan + 1 + 0x21)
          { output with
            keyType := .KT_MULTISIG
            publicKey := output.publicKey.setIfInBounds keyIndex
              (some (.blockData (script + (scan + 1))))
            multiSigFormat := output.multiSigFormat ||| (1 <<< UInt32.ofNat keyIndex) }
      else if b scan = 0x41 then
        multisigLoop b script scanEnd left (keyIndex + 1) (scan + 1 + 0x41)
          { output with
            keyType := .KT_MULTISIG
            publicKey := output.publicKey.setIfInBounds keyIndex
              (some (.blockData (script + (scan + 1)))) }
      else output
    else output

/-- The branch for a script that ends with `OP_CHECKMULTISIG`. -/
def multisigKeys (b : Memory) (script length : Nat) (output : BlockOutput) : BlockOutput :=
  let scanEnd := length - 2
  let expectedPrefix := b 0 ∈ [OP_0, OP_1, OP_2, OP_3, OP_4, OP_5]
  let expectedPostfix := b scanEnd ∈ [OP_1, OP_2, OP_3, OP_4, OP_5]
  if expectedPrefix ∧ expectedPostfix then multisigLoop b script scanEnd 5 0 1 output
  else output

/-- The fallback scan: the first of the next `left` places from `i` on with
the pattern of 25 bytes. -/
def patternScan (b : Memory) : Nat → Nat → Option Nat
  | 0, _ => none
  | left + 1, i =>
    if b i = OP_DUP ∧ b (i + 1) = OP_HASH160 ∧ b (i + 2) = 20 ∧
        b (i + 23) = OP_EQUALVERIFY ∧ b (i + 24) = OP_CHECKSIG then some i
    else patternScan b left (i + 1)

/-- The chain of tests on a script that is not empty. It gives the output, and
whether it issued a warning. -/
def locateKeys (b : Memory) (script length : Nat) (output : BlockOutput) : BlockOutput × Bool :=
  let lastInstruction := b (length - 1)
  let output :=
    if length = 67 ∧ b 0 = 65 ∧ b 66 = OP_CHECKSIG then
      output.setKey (.blockData (script + 1)) .KT_UNCOMPRESSED_PUBLIC_KEY
    else output
  -- a second chain of tests: it also runs after the one above
  if length = 40 ∧ b 0 = OP_RETURN then
    (output.setKey (.blockData (script + 1)) .KT_STEALTH, false)
  else if length = 66 ∧ b 65 = OP_CHECKSIG then
    (output.setKey (.blockData script) .KT_UNCOMPRESSED_PUBLIC_KEY, false)
  else if length = 35 ∧ b 34 = OP_CHECKSIG then
    (output.setKey (.blockData (script + 1)) .KT_COMPRESSED_PUBLIC_KEY, false)
  else if length = 33 ∧ b 0 = 0x20 then
    (output.setKey (.blockData (script + 1)) .KT_TRUNCATED_COMPRESSED_KEY, false)
  else if length = 23 ∧ b 0 = OP_HASH160 ∧ b 1 = 20 ∧ b 22 = OP_EQUAL then
    (output.setKey (.blockData (script + 2)) .KT_SCRIPT_HASH, false)
  else if 25 ≤ length ∧ b 0 = OP_DUP ∧ b 1 = OP_HASH160 ∧ b 2 = 20 then
    (output.setKey (.blockData (script + 3)) .KT_RIPEMD160, false)
  else if length = 5 ∧ b 0 = OP_DUP ∧ b 1 = OP_HASH160 ∧ b 2 = OP_0 ∧
      b 3 = OP_EQUALVERIFY ∧ b 4 = OP_CHECKSIG then
    (output, true)
  else if lastInstruction = OP_CHECKMULTISIG ∧ 25 < length then
    let output := multisigKeys b script length output
    (output, output.publicKey[0].isNone)
  else if 25 < length then
    match patternScan b (length - 25) 0 with
    | some i => (output.setKey (.blockData (script + (i + 3))) .KT_RIPEMD160, true)
    | none => (output, false)
  else (output, false)

/-! ## The addresses and the text -/

/-- The addresses of the keys of a multi-signature output, up to the first
that is missing. -/
def multisigAddresses (mBlockData : Memory) : Nat → Nat → BlockOutput → BlockOutput
  | 0, _, output => output
  | left + 1, i, output =>
    match output.publicKey.getD i none with
    | none => output
    | some key =>
      let input := key.bytes H mBlockData
      let address := output.addresses.getD i (Vector.replicate 25 0)
      let (_, address) :=
        if output.multiSigFormat &&& (1 <<< UInt32.ofNat i) ≠ 0 then
          bitcoinCompressedPublicKeyToAddress H input address
        else bitcoinPublicKeyToAddress H input address
      multisigAddresses mBlockData left (i + 1)
        { output with addresses := output.addresses.setIfInBounds i address }

/-- The switch on the key type. `stackByte` is what `key[32]` holds: the copy
of the 32 bytes starts at `key[0]`. -/
def deriveAddresses (mBlockData : Memory) (stackByte : UInt8) (output : BlockOutput) :
    BlockOutput :=
  match output.publicKey[0] with
  | none => output
  | some key0 =>
    let key := key0.bytes H mBlockData
    let store (address : Vector UInt8 25) : BlockOutput :=
      { output with addresses := output.addresses.set 0 address }
    match output.keyType with
    | .KT_RIPEMD160 => store (bitcoinRIPEMD160ToAddress H (bytesAt key 0 20))
    | .KT_SCRIPT_HASH => store (bitcoinRIPEMD160ToScriptAddress H (bytesAt key 0 20))
    | .KT_STEALTH => store (bitcoinRIPEMD160ToAddress H (bytesAt key 0 20))
    | .KT_UNCOMPRESSED_PUBLIC_KEY =>
      store (bitcoinPublicKeyToAddress H key output.addresses[0]).2
    | .KT_COMPRESSED_PUBLIC_KEY =>
      store (bitcoinCompressedPublicKeyToAddress H key output.addresses[0]).2
    | .KT_TRUNCATED_COMPRESSED_KEY =>
      let key33 : Memory := fun i => if i < 32 then key i else stackByte
      store (bitcoinCompressedPublicKeyToAddress H key33 output.addresses[0]).2
    | .KT_MULTISIG => multisigAddresses H mBlockData MAX_MULTISIG 0 output
    | _ => output

def getKeyType : KeyType → String
  | .KT_RIPEMD160 => "RIPEMD160"
  | .KT_UNCOMPRESSED_PUBLIC_KEY => "UNCOMPRESSED_PUBLIC_KEY"
  | .KT_COMPRESSED_PUBLIC_KEY => "COMPRESSED_PUBLIC_KEY"
  | .KT_TRUNCATED_COMPRESSED_KEY => "TRUNCATED_COMPRESSED_KEY"
  | .KT_MULTISIG => "MULTISIG"
  | .KT_STEALTH => "STEALTH"
  | .KT_ZERO_LENGTH => "ZERO_LENGTH"
  | .KT_SCRIPT_HASH => "SCRIPT_HASH"
  | .KT_UNKNOWN => "UNKNOWN"

/-- The text of an address, in a buffer of 256 characters, up to its zero. -/
def addressText (address : Vector UInt8 25) : List UInt8 :=
  match bitcoinAddressToAscii address 256 with
  | some (_, temp) => temp.takeWhile (fun c => c ≠ 0)
  | none => []

/-- The loop of `getAsciiAddress`: the texts, with a colon between them. -/
def addressTexts (output : BlockOutput) : Nat → Nat → List UInt8 → List UInt8
  | 0, _, text => text
  | left + 1, i, text =>
    match output.publicKey.getD i none with
    | none => text
    | some _ =>
      let text := if i ≠ 0 then text ++ asciiBytes ":" else text
      let address := output.addresses.getD i (Vector.replicate 25 0)
      addressTexts output left (i + 1) (text ++ addressText address)

def getAsciiAddress (output : BlockOutput) : BlockOutput :=
  let start :=
    match output.keyType with
    | .KT_MULTISIG =>
      asciiBytes "MultiSig[" ++ asciiBytes (toString output.signatureCount.toInt32) ++
        asciiBytes "]"
    | .KT_STEALTH => asciiBytes "*STEALTH*"
    | .KT_SCRIPT_HASH => asciiBytes "*SCRIPT_HASH*"
    | _ => []
  let output := { output with asciiAddress := addressTexts output MAX_MULTISIG 0 start }
  if output.keyType = .KT_MULTISIG then
    let hash := H.computeRIPEMD160 (output.addresses.toList.flatMap Vector.toList)
    { output with multisig := bitcoinRIPEMD160ToAddress H hash }
  else output

/-! ## The whole of it -/

/-- An output as decoded, and the two flags that the decoding raises. -/
structure DecodedOutput where
  output : BlockOutput
  isWarning : Bool
  reportTransactionHash : Bool

/-- `readOutput` from where it has the script on. -/
def decodeScript (mBlockData : Memory) (stackByte : UInt8) (output : BlockOutput) :
    DecodedOutput :=
  let length := output.challengeScriptLength.toNat
  let located :=
    match output.challengeScript with
    | some script => locateKeys (fun i => mBlockData (script + i)) script length output
    | none => (output, false)
  let output := located.1
  let reportZeroLength := output.challengeScript.isNone
  let failed := output.publicKey[0].isNone
  let output :=
    if failed then
      output.setKey (if length = 0 then .zeroByteKey else .dummyKey) .KT_RIPEMD160
    else output
  let output := deriveAddresses H mBlockData stackByte output
  let output := { output with keyTypeName := getKeyType output.keyType }
  { output := getAsciiAddress H output
    isWarning := located.2 || failed
    reportTransactionHash := reportZeroLength || failed }

/-! ## What the decoding keeps -/

/-- What does not depend on the fields that the tests on the script set. -/
def IgnoresKeys (P : BlockOutput → Prop) : Prop :=
  ∀ (o : BlockOutput) keyType publicKey multiSigFormat, P o →
    P { o with keyType, publicKey, multiSigFormat }

/-- What does not depend on the addresses. -/
def IgnoresAddresses (P : BlockOutput → Prop) : Prop :=
  ∀ (o : BlockOutput) addresses, P o → P { o with addresses }

section Kept

variable {P : BlockOutput → Prop} {o : BlockOutput}

theorem IgnoresKeys.setKey (hP : IgnoresKeys P) (h : P o) (key : KeyPointer) (keyType : KeyType) :
    P (o.setKey key keyType) :=
  hP o keyType _ o.multiSigFormat h

theorem IgnoresKeys.multisigLoop (hP : IgnoresKeys P) (b : Memory)
    (script scanEnd left keyIndex scan : Nat) (h : P o) :
    P (multisigLoop b script scanEnd left keyIndex scan o) := by
  induction left generalizing keyIndex scan o with
  | zero => exact h
  | succ left ih =>
    unfold block_chain.multisigLoop
    split
    · split
      · exact ih _ _ (hP o _ _ _ h)
      · split
        · exact ih _ _ (hP o _ _ o.multiSigFormat h)
        · exact h
    · exact h

theorem IgnoresKeys.multisigKeys (hP : IgnoresKeys P) (b : Memory) (script length : Nat) (h : P o) :
    P (multisigKeys b script length o) := by
  unfold block_chain.multisigKeys
  extract_lets scanEnd expectedPrefix expectedPostfix
  split
  · exact hP.multisigLoop b script _ 5 0 1 h
  · exact h

theorem IgnoresKeys.locateKeys (hP : IgnoresKeys P) (b : Memory) (script length : Nat) (h : P o) :
    P (locateKeys b script length o).1 := by
  unfold block_chain.locateKeys
  extract_lets lastInstruction first output
  have hfirst : P first := by
    unfold first
    split
    · exact hP.setKey h _ _
    · exact h
  have houtput : P output := hP.multisigKeys b script length hfirst
  repeat' split
  all_goals first
    | exact hfirst
    | exact houtput
    | exact hP.setKey hfirst _ _

theorem IgnoresAddresses.multisigAddresses (hP : IgnoresAddresses P) (mBlockData : Memory)
    (left i : Nat) (h : P o) : P (multisigAddresses H mBlockData left i o) := by
  induction left generalizing i o with
  | zero => exact h
  | succ left ih =>
    unfold block_chain.multisigAddresses
    split
    · exact h
    · exact ih _ (hP o _ h)

theorem IgnoresAddresses.deriveAddresses (hP : IgnoresAddresses P) (mBlockData : Memory)
    (stackByte : UInt8) (h : P o) : P (deriveAddresses H mBlockData stackByte o) := by
  unfold block_chain.deriveAddresses
  split
  · exact h
  · extract_lets key store
    split
    all_goals first
      | exact h
      | exact hP.multisigAddresses H mBlockData _ _ h
      | exact hP o _ h

end Kept

/-- The fields that were read are the same. -/
structure SameScript (o o' : BlockOutput) : Prop where
  value : o'.value = o.value
  challengeScriptLength : o'.challengeScriptLength = o.challengeScriptLength
  challengeScript : o'.challengeScript = o.challengeScript

theorem SameScript.refl (o : BlockOutput) : SameScript o o := ⟨rfl, rfl, rfl⟩

theorem SameScript.trans {o1 o2 o3 : BlockOutput} (h1 : SameScript o1 o2)
    (h2 : SameScript o2 o3) : SameScript o1 o3 :=
  ⟨h2.value.trans h1.value, h2.challengeScriptLength.trans h1.challengeScriptLength,
    h2.challengeScript.trans h1.challengeScript⟩

theorem sameScript_setKey (o : BlockOutput) (key : KeyPointer) (keyType : KeyType) :
    SameScript o (o.setKey key keyType) := ⟨rfl, rfl, rfl⟩

theorem sameScript_locateKeys (b : Memory) (script length : Nat) (o : BlockOutput) :
    SameScript o (locateKeys b script length o).1 := by
  have hignores : IgnoresKeys (SameScript o) :=
    fun _ _ _ _ h => ⟨h.value, h.challengeScriptLength, h.challengeScript⟩
  exact hignores.locateKeys b script length (SameScript.refl o)

theorem sameScript_deriveAddresses (mBlockData : Memory) (stackByte : UInt8) (o : BlockOutput) :
    SameScript o (deriveAddresses H mBlockData stackByte o) := by
  have hignores : IgnoresAddresses (SameScript o) :=
    fun _ _ h => ⟨h.value, h.challengeScriptLength, h.challengeScript⟩
  exact hignores.deriveAddresses H mBlockData stackByte (SameScript.refl o)

theorem sameScript_getAsciiAddress (o : BlockOutput) : SameScript o (getAsciiAddress H o) := by
  unfold getAsciiAddress
  extract_lets start output
  split
  · exact ⟨rfl, rfl, rfl⟩
  · exact ⟨rfl, rfl, rfl⟩

/-- Decoding an output leaves its value and its script as they were read. -/
theorem sameScript_decodeScript (mBlockData : Memory) (stackByte : UInt8) (o : BlockOutput) :
    SameScript o (decodeScript H mBlockData stackByte o).output := by
  unfold decodeScript
  extract_lets length located first reportZeroLength failed second third fourth
  have hlocated : SameScript o first := by
    unfold first located
    split
    · exact sameScript_locateKeys _ _ _ o
    · exact SameScript.refl o
  have hkey : SameScript first second := by
    unfold second
    split
    · exact sameScript_setKey _ _ _
    · exact SameScript.refl first
  have haddresses : SameScript second third := sameScript_deriveAddresses H mBlockData stackByte second
  have htype : SameScript third fourth := ⟨rfl, rfl, rfl⟩
  exact hlocated.trans (hkey.trans (haddresses.trans (htype.trans
    (sameScript_getAsciiAddress H fourth))))

end bitcoinstats.block_chain
