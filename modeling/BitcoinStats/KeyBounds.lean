-- Where the keys of an output lie: inside of its script, unless the last push of a
-- multi-signature script is longer than what is left of it.
import BitcoinStats.MultisigScripts

open byte_memory exec cursor bitcoinstats.bitcoin_address

namespace bitcoinstats.block_chain

variable (H : Hashes)

/-! ## Keys inside of a script -/

/-- So many bytes of a key are read for its address. -/
def KeyType.bytesRead (compressed : Prop) [Decidable compressed] : KeyType → Nat
  | .KT_RIPEMD160 => 20
  | .KT_SCRIPT_HASH => 20
  | .KT_STEALTH => 20
  | .KT_TRUNCATED_COMPRESSED_KEY => 32
  | .KT_COMPRESSED_PUBLIC_KEY => 33
  | .KT_UNCOMPRESSED_PUBLIC_KEY => 65
  | .KT_MULTISIG => if compressed then 33 else 65
  | _ => 0

def BlockOutput.bytesRead (o : BlockOutput) (i : Nat) : Nat :=
  o.keyType.bytesRead (o.multiSigFormat &&& (1 <<< UInt32.ofNat i) ≠ 0)

/-- What is read of the keys, but for the built-in ones, is in the `length` bytes
of the script at `script`. -/
def KeysInside (script length : Nat) (o : BlockOutput) : Prop :=
  ∀ i position, o.publicKey[i]? = some (some (KeyPointer.blockData position)) →
    script ≤ position ∧ position + o.bytesRead i ≤ script + length

/-- A multi-signature script with a push of a key that goes on behind the end of
the script. -/
structure PushOverrun (b : Memory) (length : Nat) : Prop where
  long : 25 < length
  last : b (length - 1) = OP_CHECKMULTISIG
  signatures : b 0 ∈ [OP_0, OP_1, OP_2, OP_3, OP_4, OP_5]
  keys : b (length - 2) ∈ [OP_1, OP_2, OP_3, OP_4, OP_5]
  overrun : ∃ scan ∈ keyPushes b (length - 2) 5 1, length < scan + 1 + (b scan).toNat

/-! ## One key -/

/-- No key is inside of the block data. -/
theorem keysInside_of_none {script length : Nat} {o : BlockOutput} (h : Unset o)
    (hfirst : ∀ position,
      getElem o.publicKey 0 first_lt_five ≠ some (KeyPointer.blockData position)) :
    KeysInside script length o := by
  intro i position hi
  rcases Nat.lt_or_ge i 5 with hlt | hge
  · rw [Vector.getElem?_eq_getElem hlt] at hi
    by_cases h0 : i = 0
    · subst h0
      exact absurd (Option.some.inj hi) (hfirst position)
    · have hother := h.others ⟨i, hlt⟩ (fun he => h0 (Fin.ext_iff.mp he))
      rw [Fin.getElem_fin, Option.some.inj hi] at hother
      cases hother
  · rw [Vector.getElem?_eq_none hge] at hi
    cases hi

theorem keysInside_setKey {script length : Nat} {o : BlockOutput} (h : Unset o) {place : Nat}
    {keyType : KeyType} (hsingle : keyType.Single)
    (hinside : place + keyType.bytesRead True ≤ length) :
    KeysInside script length (o.setKey (.blockData (script + place)) keyType) := by
  have hone := oneKey_setKey h (.blockData (script + place)) keyType
  intro i position hi
  by_cases h0 : i = 0
  · subst h0
    rw [setKey_first] at hi
    obtain rfl : script + place = position := by simpa using hi
    have hread : (o.setKey (.blockData (script + place)) keyType).bytesRead 0 =
        keyType.bytesRead True := by
      rcases hsingle with ⟨hmultisig, -, -⟩
      unfold BlockOutput.bytesRead
      rw [hone.type]
      cases keyType <;> first | rfl | exact absurd rfl hmultisig
    omega
  · rcases Nat.lt_or_ge i 5 with hlt | hge
    · rw [Vector.getElem?_eq_getElem hlt] at hi
      have hother := hone.others ⟨i, hlt⟩ (fun he => h0 (Fin.ext_iff.mp he))
      rw [Fin.getElem_fin, Option.some.inj hi] at hother
      cases hother
    · rw [Vector.getElem?_eq_none hge] at hi
      cases hi

/-! ## The keys of a multi-signature script -/

theorem keyPushes_isKey {b : Memory} {scanEnd left scan p : Nat}
    (h : p ∈ keyPushes b scanEnd left scan) : b p = 0x21 ∨ b p = 0x41 := by
  induction left generalizing scan with
  | zero => cases h
  | succ left ih =>
    unfold keyPushes at h
    split at h
    · rename_i hscan
      rcases List.mem_cons.mp h with rfl | h
      · exact hscan.2
      · exact ih h
    · cases h

theorem keysInside_keysStored {b : Memory} {script length : Nat} {ps : List Nat}
    {o r : BlockOutput} (hunset : Unset o) (hnone : getElem o.publicKey 0 first_lt_five = none)
    (hpushes : ∀ p ∈ ps, b p = 0x21 ∨ b p = 0x41) (h : KeysStored b script 0 ps o r) :
    KeysInside script length r ↔ ∀ p ∈ ps, p + 1 + (b p).toNat ≤ length := by
  have hkey : ∀ i p, ps[i]? = some p →
      r.publicKey[i]? = some (some (.blockData (script + (p + 1)))) ∧
        r.bytesRead i = (b p).toNat := by
    intro i p hp
    have hstored := h.keys i p hp
    rw [Nat.zero_add] at hstored
    refine ⟨hstored.1, ?_⟩
    have hne : ps ≠ [] := by
      rintro rfl
      cases hp
    have hbit := hstored.2
    unfold IsCompressed at hbit
    unfold BlockOutput.bytesRead
    rw [h.type, if_neg hne, KeyType.bytesRead]
    rcases hpushes p (List.mem_of_getElem? hp) with h21 | h41
    · rw [if_pos (hbit.mpr h21), h21]
      rfl
    · rw [if_neg (fun hc => absurd (h41.symm.trans (hbit.mp hc)) (by decide)), h41]
      rfl
  constructor
  · intro hinside p hp
    rcases List.mem_iff_getElem?.mp hp with ⟨i, hi⟩
    rcases hkey i p hi with ⟨hget, hread⟩
    have hbound := (hinside i _ hget).2
    rw [hread] at hbound
    omega
  · intro hall i position hi
    rcases Nat.lt_or_ge i ps.length with hlt | hge
    · have hp : ps[i]? = some ps[i] := List.getElem?_eq_getElem hlt
      rcases hkey i _ hp with ⟨hget, hread⟩
      have hbound := hall _ (List.getElem_mem hlt)
      rw [hget] at hi
      obtain rfl : script + (ps[i] + 1) = position := by simpa using hi
      omega
    · rcases Nat.lt_or_ge i 5 with hlt | hge5
      · rw [keysStored_unused hunset hnone h i hlt hge] at hi
        cases hi
      · rw [Vector.getElem?_eq_none hge5] at hi
        cases hi

/-! ## The chain of tests -/

theorem multisigKeys_skip {b : Memory} {script length : Nat} {o : BlockOutput}
    (h : ¬(b 0 ∈ [OP_0, OP_1, OP_2, OP_3, OP_4, OP_5] ∧
      b (length - 2) ∈ [OP_1, OP_2, OP_3, OP_4, OP_5])) :
    multisigKeys b script length o = o := by
  unfold multisigKeys
  exact if_neg h

/-- Where no keys of a multi-signature script are stored, the one key is inside. -/
theorem keysInside_single {b : Memory} {script length : Nat} {o : BlockOutput} (hunset : Unset o)
    (hnone : getElem o.publicKey 0 first_lt_five = none)
    (hmulti : ¬(25 < length ∧ b (length - 1) = OP_CHECKMULTISIG ∧
      b 0 ∈ [OP_0, OP_1, OP_2, OP_3, OP_4, OP_5] ∧
      b (length - 2) ∈ [OP_1, OP_2, OP_3, OP_4, OP_5])) :
    KeysInside script length (locateKeys b script length o).1 := by
  unfold locateKeys
  extract_lets lastInstruction first output
  have hfirst : KeysInside script length first ∧ Unset first := by
    unfold first
    split
    · rename_i h67
      exact ⟨keysInside_setKey hunset (by simp [KeyType.Single]) (by simp [KeyType.bytesRead, h67.1]),
        (oneKey_setKey hunset _ _).toUnset⟩
    · refine ⟨keysInside_of_none hunset ?_, hunset⟩
      intro position h
      rw [hnone] at h
      cases h
  have hset : ∀ (place : Nat) (keyType : KeyType), keyType.Single →
      place + keyType.bytesRead True ≤ length →
        KeysInside script length (first.setKey (.blockData (script + place)) keyType) :=
    fun _ _ hsingle hinside => keysInside_setKey hfirst.2 hsingle hinside
  by_cases h40 : length = 40 ∧ b 0 = OP_RETURN
  · rw [if_pos h40]
    exact hset 1 _ (by simp [KeyType.Single]) (by simp [KeyType.bytesRead, h40.1])
  rw [if_neg h40]
  by_cases h66 : length = 66 ∧ b 65 = OP_CHECKSIG
  · rw [if_pos h66]
    exact hset 0 _ (by simp [KeyType.Single]) (by simp [KeyType.bytesRead, h66.1])
  rw [if_neg h66]
  by_cases h35 : length = 35 ∧ b 34 = OP_CHECKSIG
  · rw [if_pos h35]
    exact hset 1 _ (by simp [KeyType.Single]) (by simp [KeyType.bytesRead, h35.1])
  rw [if_neg h35]
  by_cases h33 : length = 33 ∧ b 0 = 0x20
  · rw [if_pos h33]
    exact hset 1 _ (by simp [KeyType.Single]) (by simp [KeyType.bytesRead, h33.1])
  rw [if_neg h33]
  by_cases h23 : length = 23 ∧ b 0 = OP_HASH160 ∧ b 1 = 20 ∧ b 22 = OP_EQUAL
  · rw [if_pos h23]
    exact hset 2 _ (by simp [KeyType.Single]) (by simp [KeyType.bytesRead, h23.1])
  rw [if_neg h23]
  by_cases hdup : 25 ≤ length ∧ b 0 = OP_DUP ∧ b 1 = OP_HASH160 ∧ b 2 = 20
  · rw [if_pos hdup]
    exact hset 3 _ (by simp [KeyType.Single]) (by simp [KeyType.bytesRead]; omega)
  rw [if_neg hdup]
  by_cases h5 : length = 5 ∧ b 0 = OP_DUP ∧ b 1 = OP_HASH160 ∧ b 2 = OP_0 ∧
      b 3 = OP_EQUALVERIFY ∧ b 4 = OP_CHECKSIG
  · rw [if_pos h5]
    exact hfirst.1
  rw [if_neg h5]
  by_cases hlast : lastInstruction = OP_CHECKMULTISIG ∧ 25 < length
  · rw [if_pos hlast]
    have hskip : output = first :=
      multisigKeys_skip (fun h => hmulti ⟨hlast.2, hlast.1, h.1, h.2⟩)
    rw [hskip]
    exact hfirst.1
  rw [if_neg hlast]
  by_cases h25 : 25 < length
  · rw [if_pos h25]
    cases hscan : patternScan b (length - 25) 0 with
    | none => exact hfirst.1
    | some i =>
      rcases patternScan_some hscan with ⟨-, hi, -⟩
      exact hset (i + 3) _ (by simp [KeyType.Single]) (by simp [KeyType.bytesRead]; omega)
  · rw [if_neg h25]
    exact hfirst.1

theorem keysInside_locateKeys {b : Memory} {script length : Nat} {o : BlockOutput}
    (hunset : Unset o) (hnone : getElem o.publicKey 0 first_lt_five = none)
    (hclear : ∀ j < 5, 0 ≤ j → ¬ IsCompressed o j) :
    KeysInside script length (locateKeys b script length o).1 ↔ ¬ PushOverrun b length := by
  by_cases hmulti : 25 < length ∧ b (length - 1) = OP_CHECKMULTISIG ∧
      b 0 ∈ [OP_0, OP_1, OP_2, OP_3, OP_4, OP_5] ∧ b (length - 2) ∈ [OP_1, OP_2, OP_3, OP_4, OP_5]
  · rcases hmulti with ⟨long, last, signatures, keys⟩
    have hstored := multisigLoop_keysStored b script (length - 2) 5 0 1 o rfl hclear
    rw [locateKeys_multisig_eq last long signatures keys,
      keysInside_keysStored hunset hnone (fun p => keyPushes_isKey) hstored]
    constructor
    · rintro hall ⟨-, -, -, -, p, hp, hover⟩
      exact absurd (hall p hp) (by omega)
    · intro hno p hp
      by_contra hover
      exact hno ⟨long, last, signatures, keys, p, hp, by omega⟩
  · refine iff_of_true (keysInside_single hunset hnone hmulti) ?_
    rintro ⟨long, last, signatures, keys, -⟩
    exact hmulti ⟨long, last, signatures, keys⟩

/-! ## The output as stored -/

theorem KeysInside.sameKeys {script length : Nat} {o o' : BlockOutput} (hsame : SameKeys o o') :
    KeysInside script length o' ↔ KeysInside script length o := by
  unfold KeysInside BlockOutput.bytesRead
  rw [hsame.publicKey, hsame.keyType, hsame.multiSigFormat]

/-- A built-in key is not in the script at all. -/
theorem keysInside_builtIn {mBlockData : Memory} {script length : Nat} {o : BlockOutput}
    (hunset : Unset (locatedOutput mBlockData o))
    (hnone : getElem (locatedOutput mBlockData o).publicKey 0 first_lt_five = none) :
    KeysInside script length (keyedOutput mBlockData o) ↔
      KeysInside script length (locatedOutput mBlockData o) := by
  refine iff_of_true ?_ (keysInside_of_none hunset ?_)
  · rw [keyedOutput_builtIn hnone]
    refine keysInside_of_none (oneKey_setKey hunset _ _).toUnset ?_
    intro position h
    rw [(oneKey_setKey hunset _ _).first] at h
    split at h <;> cases h
  · intro position h
    rw [hnone] at h
    cases h

theorem keysInside_keyed {mBlockData b : Memory} {script length place : Nat} {o : BlockOutput}
    (hlocated : Located b place length o (locatedOutput mBlockData o)) :
    KeysInside script length (keyedOutput mBlockData o) ↔
      KeysInside script length (locatedOutput mBlockData o) := by
  cases hlocated with
  | one key single refused =>
    have hfirst := (first_getElem? (locatedOutput mBlockData o)).trans (congrArg some key.first)
    rw [keyedOutput_of_key rfl hfirst]
  | none unset first refused => exact keysInside_builtIn unset first
  | multisig some_key stored refused =>
    rcases List.exists_mem_of_ne_nil _ some_key with ⟨p, hp⟩
    have hlt : 0 < (keyPushes b (length - 2) 5 1).length := List.length_pos_of_mem hp
    have hfirst := (stored.keys 0 _ (List.getElem?_eq_getElem hlt)).1
    rw [Nat.zero_add] at hfirst
    rw [keyedOutput_of_key rfl hfirst]

theorem PushOverrun.congr {b b' : Memory} {length : Nat} (h : ∀ i < length, b i = b' i)
    (hb : PushOverrun b length) : PushOverrun b' length := by
  rcases hb with ⟨long, last, signatures, keys, p, hp, hover⟩
  have hscan := mem_keyPushes hp
  rw [h _ (by omega)] at last signatures keys
  rw [h p (by omega)] at hover
  rw [keyPushes_congr (fun i hi => h i (by omega))] at hp
  exact ⟨long, last, signatures, keys, p, hp, hover⟩

/-- The keys of the stored output lie in its script, or a push goes on behind it. -/
theorem decodeScript_keysInside {mBlockData : Memory} {w : OutputWire} {p : Nat}
    (h : Holds mBlockData p w.bytes) (stackByte : UInt8) :
    KeysInside (w.scriptPlace p) w.challengeScript.length
        (decodeScript H mBlockData stackByte (w.output p)).output ↔
      ¬ PushOverrun (scriptByte w.challengeScript) w.challengeScript.length := by
  have hunset := unset_wire w p
  have hnone : getElem (w.output p).publicKey 0 first_lt_five = none := rfl
  rw [KeysInside.sameKeys (sameKeys_decodeScript H mBlockData stackByte (w.output p))]
  by_cases hne : w.challengeScript = []
  · have hlocated := locatedOutput_empty mBlockData w p hne
    rw [keysInside_builtIn (by rwa [hlocated]) (by rw [hlocated]; exact hnone), hlocated, hne]
    refine iff_of_true (keysInside_of_none hunset ?_) (fun hover => absurd hover.long (by simp))
    intro position hfirst
    rw [hnone] at hfirst
    cases hfirst
  · have hlocated := locatedOutput_wire mBlockData w p hne
    have hclear : ∀ j < 5, 0 ≤ j → ¬ IsCompressed (w.output p) j := by
      intro j hj _
      rw [isCompressed_iff_testBit hj]
      simp [OutputWire.output, BlockOutput.new]
    have hbytes := scriptByte_of_holds (w.holds_script h)
    have hchain : Located (fun i => mBlockData (w.scriptPlace p + i)) (w.scriptPlace p)
        w.challengeScript.length (w.output p) _ := locateKeys_located hunset hnone rfl
    rw [← hlocated] at hchain
    rw [keysInside_keyed hchain, hlocated, keysInside_locateKeys hunset hnone hclear]
    exact not_congr ⟨PushOverrun.congr hbytes, PushOverrun.congr (fun i hi => (hbytes i hi).symm)⟩

/-- What is read of the keys of an output is in its script, exactly when the script
has no push of a key that goes on behind its end. -/
theorem the_keys_are_inside_of_the_script_exactly_without_a_push_overrun (s : ParseState) (k : Nat)
    (w : OutputWire) (h : Holds s.block.mBlockData s.block.mBlockRead w.bytes) :
    ∃ s', (readOutput H k).run s = .ok true s' ∧
      (KeysInside (w.scriptPlace s.block.mBlockRead) w.challengeScript.length (s'.block.mOutputs k) ↔
        ¬ PushOverrun (scriptByte w.challengeScript) w.challengeScript.length) := by
  rcases readOutput_stores H k h with ⟨s', hrun, hstored⟩
  refine ⟨s', hrun, ?_⟩
  rw [hstored]
  exact decodeScript_keysInside H h (s.stack 0)

theorem the_keys_of_a_two_key_script_are_inside :
    Holds (ParseState.ofBytes twoKeysOutput.bytes).block.mBlockData 0 twoKeysOutput.bytes ∧
    ∃ s', (readOutput zeroHashes 0).run (ParseState.ofBytes twoKeysOutput.bytes) = .ok true s' ∧
      (KeysInside (twoKeysOutput.scriptPlace 0) twoKeysScript.bytes.length (s'.block.mOutputs 0) ↔
        ¬ PushOverrun (scriptByte twoKeysScript.bytes) twoKeysScript.bytes.length) :=
  ⟨holds_overlay _ _, the_keys_are_inside_of_the_script_exactly_without_a_push_overrun zeroHashes _ 0
    twoKeysOutput (holds_overlay _ _)⟩

/-- A push of 33 bytes when 26 are left, the last two of them `OP_1` and
`OP_CHECKMULTISIG`. -/
def cutKeyScript : List UInt8 :=
  OP_1 :: 0x21 :: 0x02 :: List.replicate 23 0 ++ [OP_1, OP_CHECKMULTISIG]

def cutKeyOutput : OutputWire := shortOutput cutKeyScript (by decide)

theorem the_key_of_a_cut_push_is_not_inside :
    ∃ s', (readOutput zeroHashes 0).run (ParseState.ofBytes cutKeyOutput.bytes) = .ok true s' ∧
      ¬ KeysInside (cutKeyOutput.scriptPlace 0) cutKeyScript.length (s'.block.mOutputs 0) := by
  have h : Holds (ParseState.ofBytes cutKeyOutput.bytes).block.mBlockData 0 cutKeyOutput.bytes :=
    holds_overlay _ _
  have hover : PushOverrun (scriptByte cutKeyScript) cutKeyScript.length :=
    ⟨by decide, by decide, by decide, by decide, 1, by decide, by decide⟩
  rcases readOutput_stores zeroHashes 0 h with ⟨s', hrun, hstored⟩
  refine ⟨s', hrun, ?_⟩
  rw [hstored]
  exact fun hinside => (decodeScript_keysInside zeroHashes h _).mp hinside hover

end bitcoinstats.block_chain
