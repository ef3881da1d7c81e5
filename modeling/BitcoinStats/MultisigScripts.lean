-- The bare multi-signature scripts: every key of up to five is found, with its form
-- and its address, whatever mix of forms the keys have.
import BitcoinStats.OutputKeys

open byte_memory exec cursor bitcoinstats.bitcoin_address

namespace bitcoinstats.block_chain

variable (H : Hashes)

/-! ## The scripts -/

/-- So many signatures of so many keys. -/
structure MultisigScript where
  signatures : Nat
  keys : List PublicKey
  some_signature : 1 ≤ signatures
  enough_keys : signatures ≤ keys.length
  five_keys : keys.length ≤ 5

/-- The opcode for a small number. -/
def countOpcode (n : Nat) : UInt8 := [OP_0, OP_1, OP_2, OP_3, OP_4, OP_5].getD n OP_0

def PublicKey.pushed (key : PublicKey) : List UInt8 := key.push :: key.bytes

namespace MultisigScript

def bytes (script : MultisigScript) : List UInt8 :=
  countOpcode script.signatures :: (script.keys.flatMap PublicKey.pushed ++
    [countOpcode script.keys.length, OP_CHECKMULTISIG])

/-- Where the key `i` starts in the script. -/
def keyOffset (script : MultisigScript) (i : Nat) : Nat :=
  1 + ((script.keys.take i).flatMap PublicKey.pushed).length + 1

end MultisigScript

/-- The output of a script that starts at `place` has the keys of the script, each
with its form and its address, and no other. -/
structure MultisigDecoded (script : MultisigScript) (mBlockData : Memory) (place : Nat)
    (o : BlockOutput) : Prop where
  keyType : o.keyType = .KT_MULTISIG
  publicKey : ∀ i key, script.keys[i]? = some key →
    o.publicKey[i]? = some (some (.blockData (place + script.keyOffset i))) ∧
      Holds mBlockData (place + script.keyOffset i) key.bytes
  unused : ∀ i < 5, script.keys.length ≤ i → o.publicKey[i]? = some none
  multiSigFormat : ∀ i, o.multiSigFormat.toNat.testBit i ↔
    ∃ key, script.keys[i]? = some key ∧ key.isCompressed
  addresses : ∀ (i : Nat) (key : PublicKey), script.keys[i]? = some key →
    o.addresses[i]? = some (key.address H)

/-! ## The pushes of the keys -/

/-- Where the pushes of the keys are when the first is at `scan`. -/
def pushPlaces : Nat → List PublicKey → List Nat
  | _, [] => []
  | scan, key :: keys => scan :: pushPlaces (scan + key.pushed.length) keys

@[simp] theorem pushPlaces_length (scan : Nat) (keys : List PublicKey) :
    (pushPlaces scan keys).length = keys.length := by
  induction keys generalizing scan with
  | nil => rfl
  | cons key keys ih => simp [pushPlaces, ih]

theorem pushPlaces_getElem? {keys : List PublicKey} {i : Nat} {key : PublicKey}
    (h : keys[i]? = some key) (scan : Nat) :
    (pushPlaces scan keys)[i]? =
      some (scan + ((keys.take i).flatMap PublicKey.pushed).length) := by
  induction keys generalizing scan i with
  | nil => cases h
  | cons first keys ih =>
    cases i with
    | zero => simp [pushPlaces]
    | succ i =>
      rw [List.getElem?_cons_succ] at h
      simp [pushPlaces, ih h, Nat.add_assoc]

theorem PublicKey.push_isKey (key : PublicKey) : key.push = 0x21 ∨ key.push = 0x41 := by
  cases key with
  | compressed key length first => exact Or.inl rfl
  | uncompressed key length first => exact Or.inr rfl

theorem PublicKey.push_eq_0x21 (key : PublicKey) : key.push = 0x21 ↔ key.isCompressed := by
  cases key with
  | compressed key length first => simp [push, isCompressed]
  | uncompressed key length first => simp [push, isCompressed]

/-- The walk over the pushes finds one for each key. -/
theorem keyPushes_of_keys {b : Memory} {keys : List PublicKey} {scan scanEnd left : Nat}
    (h : Holds b scan (keys.flatMap PublicKey.pushed))
    (hend : scanEnd = scan + (keys.flatMap PublicKey.pushed).length) (hleft : keys.length ≤ left) :
    keyPushes b scanEnd left scan = pushPlaces scan keys := by
  induction keys generalizing scan left with
  | nil =>
    cases left with
    | zero => rfl
    | succ left =>
      unfold keyPushes
      rw [List.flatMap_nil, List.length_nil] at hend
      rw [if_neg (by omega)]
      rfl
  | cons key keys ih =>
    cases left with
    | zero => exact absurd hleft (Nat.not_succ_le_zero _)
    | succ left =>
      rw [List.flatMap_cons, holds_append] at h
      rw [List.flatMap_cons, List.length_append] at hend
      have hpush : b scan = key.push := by
        have hkey := h.1
        rw [PublicKey.pushed, holds_cons] at hkey
        exact hkey.1
      have hlength : key.pushed.length = 1 + key.push.toNat := by
        rw [PublicKey.pushed, List.length_cons, key.push_toNat, Nat.add_comm]
      have hnext : scan + 1 + key.push.toNat = scan + key.pushed.length := by omega
      have hrest := ih h.2 (by omega) (Nat.le_of_succ_le_succ hleft)
      unfold keyPushes
      rw [if_pos ⟨by omega, by rw [hpush]; exact key.push_isKey⟩, hpush, hnext, hrest]
      rfl

/-! ## The bits of the format -/

/-- The loop sets no bit behind those of the keys that it stores. -/
theorem multisigLoop_format_lt (b : Memory) (script scanEnd left k scan : Nat) (o : BlockOutput)
    (hk : k + left = 5) (h : o.multiSigFormat.toNat < 2 ^ k) :
    (multisigLoop b script scanEnd left k scan o).multiSigFormat.toNat <
      2 ^ (k + (keyPushes b scanEnd left scan).length) := by
  have hmasks : ∀ k < 5, ((1 : UInt32) <<< UInt32.ofNat k).toNat < 2 ^ (k + 1) := by decide
  induction left generalizing k scan o with
  | zero => exact h
  | succ left ih =>
    have hnext : o.multiSigFormat.toNat < 2 ^ (k + 1) :=
      lt_trans h (Nat.pow_lt_pow_right (by decide) (Nat.lt_succ_self k))
    have hlength : ∀ ps : List Nat, k + (scan :: ps).length = k + 1 + ps.length := by
      intro ps
      rw [List.length_cons]
      omega
    unfold multisigLoop keyPushes
    by_cases hscan : scan < scanEnd
    · rw [if_pos hscan]
      by_cases h21 : b scan = 0x21
      · rw [if_pos h21, if_pos ⟨hscan, Or.inl h21⟩, h21, hlength]
        apply ih _ _ _ (by omega)
        rw [UInt32.toNat_or]
        exact Nat.or_lt_two_pow hnext (hmasks k (by omega))
      · rw [if_neg h21]
        by_cases h41 : b scan = 0x41
        · rw [if_pos h41, if_pos ⟨hscan, Or.inr h41⟩, h41, hlength]
          exact ih _ _ _ (by omega) hnext
        · rw [if_neg h41, if_neg (fun hc => hc.2.elim h21 h41)]
          exact h
    · rw [if_neg hscan, if_neg (fun hc => hscan hc.1)]
      exact h

theorem and_two_pow_eq_zero (n i : Nat) : n &&& 2 ^ i = 0 ↔ n.testBit i = false := by
  constructor
  · intro h
    have hbit := congrArg (Nat.testBit · i) h
    simpa using hbit
  · intro h
    apply Nat.eq_of_testBit_eq
    intro j
    rw [Nat.testBit_and, Nat.testBit_two_pow, Nat.zero_testBit]
    by_cases hij : i = j
    · rw [← hij, h, Bool.false_and]
    · rw [decide_eq_false hij, Bool.and_false]

theorem isCompressed_iff_testBit {o : BlockOutput} {i : Nat} (hi : i < 5) :
    IsCompressed o i ↔ o.multiSigFormat.toNat.testBit i := by
  have hmask : ∀ i < 5, ((1 : UInt32) <<< UInt32.ofNat i).toNat = 2 ^ i := by decide
  unfold IsCompressed
  rw [ne_eq, ← UInt32.toNat_inj, UInt32.toNat_and, hmask i hi, UInt32.toNat_zero,
    and_two_pow_eq_zero, Bool.not_eq_false]

/-! ## The output of a multi-signature script -/

theorem countOpcode_prefix : ∀ n ≤ 5, countOpcode n ∈ [OP_0, OP_1, OP_2, OP_3, OP_4, OP_5] := by
  decide

theorem countOpcode_postfix : ∀ n ≤ 5, 1 ≤ n →
    countOpcode n ∈ [OP_1, OP_2, OP_3, OP_4, OP_5] := by
  decide

/-- No test before the one for a multi-signature script applies to it. -/
theorem locateKeys_multisig_eq {b : Memory} {script length : Nat} {o : BlockOutput}
    (last : b (length - 1) = OP_CHECKMULTISIG) (h25 : 25 < length)
    (signatures : b 0 ∈ [OP_0, OP_1, OP_2, OP_3, OP_4, OP_5])
    (keys : b (length - 2) ∈ [OP_1, OP_2, OP_3, OP_4, OP_5]) :
    (locateKeys b script length o).1 = multisigLoop b script (length - 2) 5 0 1 o := by
  have hfirst : ∀ opcode ∈ [OP_0, OP_1, OP_2, OP_3, OP_4, OP_5], opcode ≠ 65 ∧
      opcode ≠ OP_RETURN ∧ opcode ≠ 0x20 ∧ opcode ≠ OP_HASH160 ∧ opcode ≠ OP_DUP := by
    decide +kernel
  have hsig : OP_CHECKMULTISIG ≠ OP_CHECKSIG := by decide
  rcases hfirst (b 0) signatures with ⟨h65, hreturn, h20, hhash, hdup⟩
  unfold locateKeys
  extract_lets lastInstruction first output
  have hlast : lastInstruction = OP_CHECKMULTISIG := last
  have hsame : first = o := if_neg (fun h => h65 h.2.1)
  have h66 : ¬(length = 66 ∧ b 65 = OP_CHECKSIG) := by
    rintro ⟨rfl, h⟩
    exact hsig (last.symm.trans h)
  have h35 : ¬(length = 35 ∧ b 34 = OP_CHECKSIG) := by
    rintro ⟨rfl, h⟩
    exact hsig (last.symm.trans h)
  rw [if_neg (fun h => hreturn h.2), if_neg h66, if_neg h35, if_neg (fun h => h20 h.2),
    if_neg (fun h => hhash h.2.1), if_neg (fun h => hdup h.2.1), if_neg (fun h => hdup h.2.1),
    if_pos ⟨hlast, h25⟩]
  unfold output
  rw [hsame, multisigKeys]
  exact if_pos ⟨signatures, keys⟩

/-- What the memory holds when the script starts at `0`: the walk goes over its keys. -/
theorem keyPushes_multisig {b : Memory} {script : MultisigScript} (h : Holds b 0 script.bytes) :
    keyPushes b (script.bytes.length - 2) 5 1 = pushPlaces 1 script.keys := by
  rw [MultisigScript.bytes, holds_cons, holds_append] at h
  refine keyPushes_of_keys h.2.1 ?_ script.five_keys
  simp [MultisigScript.bytes]
  omega

theorem locateKeys_multisigScript {b : Memory} {script : MultisigScript} (h : Holds b 0 script.bytes)
    (place : Nat) (o : BlockOutput) :
    (locateKeys b place script.bytes.length o).1 =
      multisigLoop b place (script.bytes.length - 2) 5 0 1 o := by
  have hsome := script.some_signature
  have henough := script.enough_keys
  have hlength : script.bytes.length = 1 + (script.keys.flatMap PublicKey.pushed).length + 2 := by
    simp [MultisigScript.bytes]
    omega
  have hkey : 34 ≤ (script.keys.flatMap PublicKey.pushed).length := by
    cases hkeys : script.keys with
    | nil =>
      rw [hkeys, List.length_nil] at henough
      omega
    | cons key keys =>
      have hbytes : 33 ≤ key.bytes.length := by
        cases key with
        | compressed key length first => exact le_of_eq length.symm
        | uncompressed key length first => exact le_trans (by decide) (le_of_eq length.symm)
      simp [PublicKey.pushed]
      omega
  rw [hlength]
  rw [MultisigScript.bytes, holds_cons, holds_append, holds_cons, holds_cons] at h
  rcases h with ⟨hfirst, -, hcount, hlast, -⟩
  refine locateKeys_multisig_eq ?_ (by omega) ?_ ?_
  · rw [← hlast]
    congr 1
  · rw [hfirst]
    exact countOpcode_prefix _ (by have := script.five_keys; omega)
  · have hplace : 1 + (script.keys.flatMap PublicKey.pushed).length + 2 - 2 =
        0 + 1 + (script.keys.flatMap PublicKey.pushed).length := by omega
    rw [hplace, hcount]
    exact countOpcode_postfix _ script.five_keys (by omega)

/-- The memory has the push of each key where the walk finds it. -/
theorem MultisigScript.holds_pushed {script : MultisigScript} {mem : Memory} {place : Nat}
    (h : Holds mem place script.bytes) {i : Nat} {key : PublicKey}
    (hi : script.keys[i]? = some key) :
    Holds mem (place + 1 + ((script.keys.take i).flatMap PublicKey.pushed).length) key.pushed := by
  rw [MultisigScript.bytes, holds_cons, holds_append] at h
  rcases List.getElem?_eq_some_iff.mp hi with ⟨hlt, hget⟩
  rw [← hget]
  exact h.2.1.flatMap_getElem i hlt

theorem MultisigScript.holds_key {script : MultisigScript} {mem : Memory} {place : Nat}
    (h : Holds mem place script.bytes) {i : Nat} {key : PublicKey}
    (hi : script.keys[i]? = some key) : Holds mem (place + script.keyOffset i) key.bytes := by
  have hpushed := script.holds_pushed h hi
  rw [PublicKey.pushed, holds_cons] at hpushed
  unfold keyOffset
  rw [← Nat.add_assoc, ← Nat.add_assoc]
  exact hpushed.2

/-- What the loop stores for one key. -/
theorem keysStored_key {b : Memory} {place : Nat} {script : MultisigScript} {o r : BlockOutput}
    (hb : Holds b 0 script.bytes)
    (h : KeysStored b place 0 (pushPlaces 1 script.keys) o r) {i : Nat} {key : PublicKey}
    (hi : script.keys[i]? = some key) :
    r.publicKey[i]? = some (some (.blockData (place + script.keyOffset i))) ∧
      (IsCompressed r i ↔ key.isCompressed) := by
  have hstored := h.keys i _ (pushPlaces_getElem? hi 1)
  have hpushed := script.holds_pushed hb hi
  rw [PublicKey.pushed, holds_cons, Nat.zero_add] at hpushed
  rw [Nat.zero_add, hpushed.1, key.push_eq_0x21] at hstored
  exact hstored

theorem getElem?_lt_five {script : MultisigScript} {i : Nat} {key : PublicKey}
    (hi : script.keys[i]? = some key) : i < 5 := by
  rcases List.getElem?_eq_some_iff.mp hi with ⟨hlt, -⟩
  exact Nat.lt_of_lt_of_le hlt script.five_keys

/-- The bits of the format are the forms of the keys. -/
theorem keysStored_format {b : Memory} {place : Nat} {script : MultisigScript} {o r : BlockOutput}
    (hb : Holds b 0 script.bytes) (h : KeysStored b place 0 (pushPlaces 1 script.keys) o r)
    (hrange : r.multiSigFormat.toNat < 2 ^ script.keys.length) (i : Nat) :
    r.multiSigFormat.toNat.testBit i ↔ ∃ key, script.keys[i]? = some key ∧ key.isCompressed := by
  rcases Nat.lt_or_ge i script.keys.length with hlt | hge
  · have hi : script.keys[i]? = some script.keys[i] := List.getElem?_eq_getElem hlt
    rw [← isCompressed_iff_testBit (getElem?_lt_five hi), (keysStored_key hb h hi).2, hi]
    simp
  · have hpow : r.multiSigFormat.toNat < 2 ^ i :=
      lt_of_lt_of_le hrange (Nat.pow_le_pow_right Nat.two_pos hge)
    rw [Nat.testBit_lt_two_pow hpow, List.getElem?_eq_none hge]
    simp

theorem pushPlaces_ne_nil (script : MultisigScript) (scan : Nat) : pushPlaces scan script.keys ≠ [] := by
  intro hnil
  have hlen := congrArg List.length hnil
  rw [pushPlaces_length, List.length_nil] at hlen
  exact absurd (Nat.lt_of_lt_of_le script.some_signature script.enough_keys) (by omega)

/-- What the loop stores for the script: its keys, no other, and a bit for each of them at most. -/
theorem keyedOutput_multisig {mBlockData : Memory} {w : OutputWire} {p : Nat}
    {script : MultisigScript} (hscript : w.challengeScript = script.bytes)
    (hholds : Holds mBlockData (w.scriptPlace p) script.bytes) :
    KeysStored (fun i => mBlockData (w.scriptPlace p + i)) (w.scriptPlace p) 0
        (pushPlaces 1 script.keys) (w.output p) (keyedOutput mBlockData (w.output p)) ∧
      (keyedOutput mBlockData (w.output p)).multiSigFormat.toNat < 2 ^ script.keys.length := by
  have hbytes := holds_shift hholds
  have hlocated := locatedOutput_wire mBlockData w p (by rw [hscript]; exact List.cons_ne_nil _ _)
  rw [hscript, locateKeys_multisigScript hbytes] at hlocated
  have hclear : ∀ j < 5, 0 ≤ j → ¬ IsCompressed (w.output p) j := by
    intro j hj _
    rw [isCompressed_iff_testBit hj]
    simp [OutputWire.output, BlockOutput.new]
  have hstored := multisigLoop_keysStored (fun i => mBlockData (w.scriptPlace p + i))
    (w.scriptPlace p) (script.bytes.length - 2) 5 0 1 (w.output p) rfl hclear
  have hrange := multisigLoop_format_lt (fun i => mBlockData (w.scriptPlace p + i))
    (w.scriptPlace p) (script.bytes.length - 2) 5 0 1 (w.output p) rfl
    (by simp [OutputWire.output, BlockOutput.new])
  rw [keyPushes_multisig hbytes] at hstored hrange
  rw [pushPlaces_length, Nat.zero_add] at hrange
  have hsome : 0 < script.keys.length := Nat.lt_of_lt_of_le script.some_signature script.enough_keys
  have hkeyed := keyedOutput_of_key hlocated
    (keysStored_key hbytes hstored (List.getElem?_eq_getElem hsome)).1
  rw [hkeyed]
  exact ⟨hstored, hrange⟩

/-- The loop stores the keys of the script and nothing else. -/
theorem decodeScript_multisig {mBlockData : Memory} {w : OutputWire} {p : Nat}
    {script : MultisigScript} (hscript : w.challengeScript = script.bytes)
    (h : Holds mBlockData p w.bytes) (stackByte : UInt8) :
    MultisigDecoded H script mBlockData (w.scriptPlace p)
      (decodeScript H mBlockData stackByte (w.output p)).output := by
  have hholds := w.holds_script h
  rw [hscript] at hholds
  have hbytes := holds_shift hholds
  obtain ⟨hstored, hrange⟩ := keyedOutput_multisig hscript hholds
  have hsame := sameKeys_decodeScript H mBlockData stackByte (w.output p)
  have hnone : getElem (w.output p).publicKey 0 first_lt_five = none := rfl
  have hunset := unset_wire w p
  have hne := pushPlaces_ne_nil script 1
  rcases deriveAddresses_keysStored H mBlockData hunset hnone hne hstored stackByte
    with ⟨o', hderive, -, -, haddresses⟩
  refine ⟨?_, ?_, ?_, ?_, ?_⟩
  · rw [hsame.keyType, hstored.type, if_neg hne]
  · intro i key hi
    rw [hsame.publicKey]
    exact ⟨(keysStored_key hbytes hstored hi).1, script.holds_key hholds hi⟩
  · intro i hi hle
    rw [hsame.publicKey]
    exact keysStored_unused hunset hnone hstored i hi (by rwa [pushPlaces_length])
  · rw [hsame.multiSigFormat]
    exact keysStored_format hbytes hstored hrange
  · intro i key hi
    rw [addresses_decodeScript, hderive,
      haddresses i (getElem?_lt_five hi) _ (pushPlaces_getElem? hi 1)]
    have hkey := holds_shift (script.holds_key hholds hi)
    exact congrArg some (keyAddress_eq H hkey (keysStored_key hbytes hstored hi).2)

/-- Every bare multi-signature script is decoded: each key in its place, with its
form and its address. -/
theorem a_multisig_script_is_decoded (s : ParseState) (k : Nat) (w : OutputWire)
    (script : MultisigScript) (hscript : w.challengeScript = script.bytes)
    (h : Holds s.block.mBlockData s.block.mBlockRead w.bytes) :
    ∃ s', (readOutput H k).run s = .ok true s' ∧
      MultisigDecoded H script s.block.mBlockData (w.scriptPlace s.block.mBlockRead)
        (s'.block.mOutputs k) := by
  rcases readOutput_stores H k h with ⟨s', hrun, hstored⟩
  refine ⟨s', hrun, ?_⟩
  rw [hstored]
  exact decodeScript_multisig H hscript h (s.stack 0)

/-- One signature of a compressed and an uncompressed key. -/
def twoKeysScript : MultisigScript :=
  { signatures := 1
    keys := [.compressed (0x02 :: List.replicate 32 7) rfl (Or.inl rfl),
      .uncompressed (0x04 :: List.replicate 64 9) rfl rfl]
    some_signature := by decide
    enough_keys := by decide
    five_keys := by decide }

def twoKeysOutput : OutputWire := shortOutput twoKeysScript.bytes (by decide)

theorem a_script_of_two_keys_is_decoded :
    twoKeysOutput.challengeScript = twoKeysScript.bytes ∧
    Holds (ParseState.ofBytes twoKeysOutput.bytes).block.mBlockData 0 twoKeysOutput.bytes ∧
    ∃ s', (readOutput zeroHashes 0).run (ParseState.ofBytes twoKeysOutput.bytes) = .ok true s' ∧
      MultisigDecoded zeroHashes twoKeysScript
        (ParseState.ofBytes twoKeysOutput.bytes).block.mBlockData (twoKeysOutput.scriptPlace 0)
        (s'.block.mOutputs 0) :=
  ⟨rfl, holds_overlay _ _, a_multisig_script_is_decoded zeroHashes _ 0 twoKeysOutput twoKeysScript rfl
    (holds_overlay _ _)⟩

end bitcoinstats.block_chain
