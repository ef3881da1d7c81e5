-- The addresses that `readOutput` derives from the keys it located: which of
-- them are well formed, whatever the script is.
import BitcoinStats.WireReader
import BitcoinStats.AddressChecks

open byte_memory exec cursor bitcoinstats.bitcoin_address

namespace bitcoinstats.block_chain

variable (H : Hashes)

/-! ## Well formed addresses -/

structure IsWellFormed (version : UInt8) (address : Vector UInt8 25) : Prop where
  version : address[0] = version
  checksum : ∀ i, lastByte address i = sumByte H address i

theorem isWellFormed_toAddress (version : UInt8) (ripeMD160 : Vector UInt8 20) :
    IsWellFormed H version (toAddress H version ripeMD160) := by
  constructor
  · rw [toAddress, Vector.getElem_append_left (by omega), versioned,
      Vector.getElem_append_left (by omega)]
    rfl
  · intro i
    rw [sumByte, toAddress_take, lastByte, toAddress,
      Vector.getElem_append_right (by omega) (by omega)]
    simp only [Nat.add_sub_cancel_left, checksum]
    fin_cases i <;> rfl

/-- The hash functions give 21 zero bytes a checksum of four zeros. -/
def ZeroChecksum : Prop := ∀ i, sumByte H (Vector.replicate 25 0) i = 0

/-- The address of a key that was refused stays at its 25 zeros. -/
theorem isWellFormed_zeros : IsWellFormed H 0 (Vector.replicate 25 0) ↔ ZeroChecksum H := by
  have hlast : ∀ i, lastByte (Vector.replicate 25 0) i = 0 := by decide
  constructor
  · intro h i
    rw [← h.checksum i, hlast i]
  · intro h
    refine ⟨rfl, fun i => ?_⟩
    rw [h i, hlast i]

/-- The addresses of an output, as far as it has keys. -/
def AddressesWellFormed (output : BlockOutput) : Prop :=
  ∀ i : Fin 5, output.publicKey[i].isSome →
    IsWellFormed H (if output.keyType = .KT_SCRIPT_HASH then 5 else 0) output.addresses[i]

/-! ## The keys that are refused -/

/-- The pattern that the fallback scan looks for, at the place `i`. -/
def PatternAt (b : Memory) (i : Nat) : Prop :=
  b i = OP_DUP ∧ b (i + 1) = OP_HASH160 ∧ b (i + 2) = 20 ∧ b (i + 23) = OP_EQUALVERIFY ∧
    b (i + 24) = OP_CHECKSIG

/-- The pushes of 33 or 65 bytes that follow each other from `scan` on. -/
def keyPushes (b : Memory) (scanEnd : Nat) : Nat → Nat → List Nat
  | 0, _ => []
  | left + 1, scan =>
    if scan < scanEnd ∧ (b scan = 0x21 ∨ b scan = 0x41) then
      scan :: keyPushes b scanEnd left (scan + 1 + (b scan).toNat)
    else []

/-- The first byte of a key, against the one that its length calls for. -/
def refusesCompressed (first : UInt8) : Prop := first ≠ 0x02 ∧ first ≠ 0x03

def refusesPush (push first : UInt8) : Prop :=
  if push = 0x21 then refusesCompressed first else first ≠ 0x04

/-- The scripts whose length and opcodes stand for a key that does not start
with 2, 3 or 4 as it should. -/
inductive RefusedKey (b : Memory) (length : Nat) : Prop
  | raw (h66 : length = 66) (sig : b 65 = OP_CHECKSIG) (first : b 0 ≠ 0x04)
  | pushed (h67 : length = 67) (push : b 0 = 65) (sig : b 66 = OP_CHECKSIG) (first : b 1 ≠ 0x04)
      (noPattern : ∀ i < 42, ¬ PatternAt b i)
  | compressed (h35 : length = 35) (sig : b 34 = OP_CHECKSIG) (first : refusesCompressed (b 1))
  | truncated (h33 : length = 33) (push : b 0 = 0x20) (first : refusesCompressed (b 1))
  | multisig (h25 : 25 < length) (last : b (length - 1) = OP_CHECKMULTISIG)
      (signatures : b 0 ∈ [OP_0, OP_1, OP_2, OP_3, OP_4, OP_5])
      (keys : b (length - 2) ∈ [OP_1, OP_2, OP_3, OP_4, OP_5]) {scan : Nat}
      (key : scan ∈ keyPushes b (length - 2) 5 1) (first : refusesPush (b scan) (b (scan + 1)))

/-! ## One key -/

/-- The key type asks for another first byte. -/
def refusesKey : KeyType → UInt8 → Prop
  | .KT_UNCOMPRESSED_PUBLIC_KEY, first => first ≠ 0x04
  | .KT_COMPRESSED_PUBLIC_KEY, first => refusesCompressed first
  | .KT_TRUNCATED_COMPRESSED_KEY, first => refusesCompressed first
  | _, _ => False

/-- The key types that `readOutput` gives to an output of one key. -/
def KeyType.Single (keyType : KeyType) : Prop :=
  keyType ≠ .KT_MULTISIG ∧ keyType ≠ .KT_UNKNOWN ∧ keyType ≠ .KT_ZERO_LENGTH

/-- An output that can take one key: nothing is stored behind the first. -/
structure Unset (o : BlockOutput) : Prop where
  others : ∀ i : Fin 5, i ≠ 0 → o.publicKey[i] = none
  zeros : o.addresses = Vector.replicate 5 (Vector.replicate 25 0)

structure OneKey (o : BlockOutput) (key : KeyPointer) (keyType : KeyType) : Prop extends Unset o where
  first : getElem o.publicKey 0 first_lt_five = some key
  type : o.keyType = keyType

theorem oneKey_setKey {o : BlockOutput} (h : Unset o) (key : KeyPointer) (keyType : KeyType) :
    OneKey (o.setKey key keyType) key keyType := by
  refine { others := ?_, zeros := h.zeros, first := Vector.getElem_set_self _, type := rfl }
  intro i hi
  have hset : (o.setKey key keyType).publicKey[i] = o.publicKey[i] :=
    Vector.getElem_set_ne (by omega) i.isLt (fun h0 => hi (Fin.ext h0.symm))
  rw [hset]
  exact h.others i hi

theorem publicKeyToAddress_wellFormed (input : Memory) :
    IsWellFormed H 0 (bitcoinPublicKeyToAddress H input (Vector.replicate 25 0)).2 ↔
      (input 0 ≠ 0x04 → ZeroChecksum H) := by
  unfold bitcoinPublicKeyToAddress
  by_cases h : input 0 = 0x04
  · rw [if_pos h]
    exact iff_of_true (isWellFormed_toAddress H _ _) (fun hne => absurd h hne)
  · rw [if_neg h, isWellFormed_zeros]
    exact ⟨fun hz _ => hz, fun hz => hz h⟩

theorem compressedPublicKeyToAddress_wellFormed (input : Memory) :
    IsWellFormed H 0 (bitcoinCompressedPublicKeyToAddress H input (Vector.replicate 25 0)).2 ↔
      (refusesCompressed (input 0) → ZeroChecksum H) := by
  unfold bitcoinCompressedPublicKeyToAddress
  by_cases h : input 0 = 0x02 ∨ input 0 = 0x03
  · rw [if_pos h]
    exact iff_of_true (isWellFormed_toAddress H _ _) (fun hne => absurd h (not_or.mpr hne))
  · rw [if_neg h, isWellFormed_zeros]
    exact ⟨fun hz _ => hz, fun hz => hz (not_or.mp h)⟩

/-- The address of an output of one key is its first. -/
theorem addressesWellFormed_of_first {o : BlockOutput}
    (hothers : ∀ i : Fin 5, i ≠ 0 → o.publicKey[i] = none)
    (hfirst : (getElem o.publicKey 0 first_lt_five).isSome) :
    AddressesWellFormed H o ↔
      IsWellFormed H (if o.keyType = .KT_SCRIPT_HASH then 5 else 0)
        (getElem o.addresses 0 first_lt_five) := by
  constructor
  · intro h
    exact h 0 hfirst
  · intro h i hi
    by_cases h0 : i = 0
    · rw [h0]
      exact h
    · rw [hothers i h0] at hi
      cases hi

theorem deriveAddresses_oneKey {o : BlockOutput} {key : KeyPointer} {keyType : KeyType}
    (h : OneKey o key keyType) (hsingle : keyType.Single) (mBlockData : Memory)
    (stackByte : UInt8) :
    AddressesWellFormed H (deriveAddresses H mBlockData stackByte o) ↔
      (refusesKey keyType (key.bytes H mBlockData 0) → ZeroChecksum H) := by
  obtain ⟨hothers, hzeros⟩ := h.toUnset
  obtain ⟨hmulti, hunknown, hzero⟩ := hsingle
  have hfirst : o.publicKey[0].isSome := by
    rw [h.first]
    rfl
  have hzero0 : o.addresses[0] = Vector.replicate 25 0 := by
    rw [hzeros]
    rfl
  have htype := h.type
  have hstored : ∀ address, AddressesWellFormed H { o with addresses := o.addresses.set 0 address } ↔
      IsWellFormed H (if keyType = .KT_SCRIPT_HASH then 5 else 0) address := by
    intro address
    rw [← htype]
    have h0 := addressesWellFormed_of_first H
      (o := { o with addresses := o.addresses.set 0 address }) hothers hfirst
    rwa [Vector.getElem_set_self] at h0
  unfold deriveAddresses
  split
  · rename_i hnone
    rw [hnone] at hfirst
    cases hfirst
  · rename_i key0 hkey0
    obtain rfl : key = key0 := Option.some.inj (h.first.symm.trans hkey0)
    extract_lets input store
    have hstore : ∀ address, AddressesWellFormed H (store address) ↔
      IsWellFormed H (if keyType = .KT_SCRIPT_HASH then 5 else 0) address := hstored
    split
    all_goals
      rename_i hk
      rw [htype] at hk
    · rw [hstore, hk]
      exact iff_of_true (isWellFormed_toAddress H _ _) (fun hrefused => False.elim hrefused)
    · rw [hstore, hk]
      exact iff_of_true (isWellFormed_toAddress H _ _) (fun hrefused => False.elim hrefused)
    · rw [hstore, hk]
      exact iff_of_true (isWellFormed_toAddress H _ _) (fun hrefused => False.elim hrefused)
    · rw [hstore, hk, hzero0]
      exact publicKeyToAddress_wellFormed H input
    · rw [hstore, hk, hzero0]
      exact compressedPublicKeyToAddress_wellFormed H input
    · rw [hstore, hk, hzero0]
      exact compressedPublicKeyToAddress_wellFormed H _
    · exact absurd hk hmulti
    · rename_i h1 h2 h3 h4 h5 h6 h7
      cases keyType <;> simp_all

/-! ## The keys of a multi-signature script -/

/-- The key `j` is on record as a compressed one. -/
def IsCompressed (o : BlockOutput) (j : Nat) : Prop :=
  o.multiSigFormat &&& (1 <<< UInt32.ofNat j) ≠ 0

theorem isCompressed_or (format : UInt32) {j k : Nat} (hj : j < 5) (hk : k < 5) :
    (format ||| (1 <<< UInt32.ofNat k)) &&& (1 <<< UInt32.ofNat j) ≠ 0 ↔
      format &&& (1 <<< UInt32.ofNat j) ≠ 0 ∨ j = k := by
  have hmasks : ∀ j < 5, ∀ k < 5,
      ((1 : UInt32) <<< UInt32.ofNat k) &&& (1 <<< UInt32.ofNat j) ≠ 0 ↔ j = k := by
    decide
  have hsplit : (format ||| (1 <<< UInt32.ofNat k)) &&& (1 <<< UInt32.ofNat j) =
      (format &&& (1 <<< UInt32.ofNat j)) |||
        ((1 <<< UInt32.ofNat k) &&& (1 <<< UInt32.ofNat j)) := by
    apply UInt32.toNat_inj.mp
    simp only [UInt32.toNat_and, UInt32.toNat_or, Nat.and_or_distrib_right]
  rw [hsplit, ne_eq, UInt32.or_eq_zero_iff, not_and_or]
  exact or_congr Iff.rfl (hmasks j hj k hk)

/-- The pushes at the places `ps` are stored as the keys from `k` on. -/
structure KeysStored (b : Memory) (script k : Nat) (ps : List Nat) (o o' : BlockOutput) : Prop where
  before : ∀ j < k, o'.publicKey[j]? = o.publicKey[j]? ∧ (IsCompressed o' j ↔ IsCompressed o j)
  keys : ∀ i p, ps[i]? = some p →
    o'.publicKey[k + i]? = some (some (.blockData (script + (p + 1)))) ∧
      (IsCompressed o' (k + i) ↔ b p = 0x21)
  after : ∀ j, k + ps.length ≤ j → o'.publicKey[j]? = o.publicKey[j]?
  addresses : o'.addresses = o.addresses
  type : o'.keyType = if ps = [] then o.keyType else .KT_MULTISIG

theorem keysStored_nil (b : Memory) (script k : Nat) (o : BlockOutput) :
    KeysStored b script k [] o o :=
  ⟨fun _ _ => ⟨rfl, Iff.rfl⟩, nofun, fun _ _ => rfl, rfl, rfl⟩

/-- One turn of the loop, and the turns behind it. -/
theorem keysStored_cons {b : Memory} {script k p : Nat} {ps : List Nat} {o o1 o' : BlockOutput}
    (hk : k < 5) (h : KeysStored b script (k + 1) ps o1 o')
    (hkeys : ∀ j < 5, o1.publicKey[j]? =
      if j = k then some (some (.blockData (script + (p + 1)))) else o.publicKey[j]?)
    (hbits : ∀ j < 5, IsCompressed o1 j ↔ IsCompressed o j ∨ j = k ∧ b p = 0x21)
    (hclear : ¬ IsCompressed o k) (haddresses : o1.addresses = o.addresses)
    (htype : o1.keyType = .KT_MULTISIG) :
    KeysStored b script k (p :: ps) o o' where
  before j hj := by
    obtain ⟨h1, h2⟩ := h.before j (by omega)
    rw [h1, h2, hkeys j (by omega), hbits j (by omega), if_neg (by omega)]
    exact ⟨rfl, or_iff_left (fun hjk => by omega)⟩
  keys i q hq := by
    cases i with
    | zero =>
      obtain rfl : p = q := by simpa using hq
      obtain ⟨h1, h2⟩ := h.before k (by omega)
      rw [Nat.add_zero, h1, h2, hkeys k hk, hbits k hk, if_pos rfl]
      refine ⟨rfl, ?_⟩
      rw [or_iff_right hclear]
      exact and_iff_right rfl
    | succ i =>
      have hi := h.keys i q (by simpa using hq)
      rwa [show k + (i + 1) = k + 1 + i by omega]
  after j hj := by
    rw [List.length_cons] at hj
    rw [h.after j (by omega)]
    rcases Nat.lt_or_ge j 5 with h5 | h5
    · rw [hkeys j h5, if_neg (by omega)]
    · rw [Vector.getElem?_eq_none (by omega), Vector.getElem?_eq_none (by omega)]
  addresses := h.addresses.trans haddresses
  type := by
    rw [h.type, htype, ite_self, if_neg (List.cons_ne_nil p ps)]

theorem multisigLoop_keysStored (b : Memory) (script scanEnd left k scan : Nat) (o : BlockOutput)
    (hk : k + left = 5) (hclear : ∀ j < 5, k ≤ j → ¬ IsCompressed o j) :
    KeysStored b script k (keyPushes b scanEnd left scan) o
      (multisigLoop b script scanEnd left k scan o) := by
  induction left generalizing k scan o with
  | zero => exact keysStored_nil b script k o
  | succ left ih =>
    have hk5 : k < 5 := by omega
    have hset : ∀ j < 5, (o.publicKey.setIfInBounds k (some (.blockData (script + (scan + 1)))))[j]? =
        if j = k then some (some (.blockData (script + (scan + 1)))) else o.publicKey[j]? := by
      intro j hj
      rw [Vector.getElem?_setIfInBounds]
      by_cases hjk : k = j
      · rw [if_pos hjk, if_pos hjk.symm, if_pos hk5]
      · rw [if_neg hjk, if_neg (Ne.symm hjk)]
    unfold multisigLoop keyPushes
    by_cases hscan : scan < scanEnd
    · rw [if_pos hscan]
      by_cases h21 : b scan = 0x21
      · rw [if_pos h21, if_pos ⟨hscan, Or.inl h21⟩, h21]
        have hbits := fun j (hj : j < 5) => isCompressed_or o.multiSigFormat hj hk5
        have hnext := ih (k + 1) (scan + 1 + 0x21)
          { o with
            keyType := .KT_MULTISIG
            publicKey := o.publicKey.setIfInBounds k (some (.blockData (script + (scan + 1))))
            multiSigFormat := o.multiSigFormat ||| (1 <<< UInt32.ofNat k) } (by omega) (by
          intro j hj hkj hbit
          rcases (hbits j hj).mp hbit with h | h
          · exact hclear j hj (by omega) h
          · omega)
        refine keysStored_cons hk5 hnext hset ?_ (hclear k hk5 (le_refl k)) rfl rfl
        intro j hj
        rw [and_iff_left h21]
        exact hbits j hj
      · rw [if_neg h21]
        by_cases h41 : b scan = 0x41
        · rw [if_pos h41, if_pos ⟨hscan, Or.inr h41⟩, h41]
          have hnext := ih (k + 1) (scan + 1 + 0x41)
            { o with
              keyType := .KT_MULTISIG
              publicKey := o.publicKey.setIfInBounds k (some (.blockData (script + (scan + 1)))) }
            (by omega) (fun j hj hkj => hclear j hj (by omega))
          refine keysStored_cons hk5 hnext hset ?_ (hclear k hk5 (le_refl k)) rfl rfl
          intro j _
          exact (or_iff_left (fun h => h21 h.2)).symm
        · rw [if_neg h41, if_neg (fun h => h.2.elim h21 h41)]
          exact keysStored_nil b script k o
    · rw [if_neg hscan, if_neg (fun h => hscan h.1)]
      exact keysStored_nil b script k o

theorem getD_of_get {α : Type} {n i : Nat} {v : Vector α n} {x : α} (h : v[i]? = some x) (d : α) :
    v.getD i d = x := by
  rw [Vector.getD, Array.getD_eq_getD_getElem?, Vector.getElem?_toArray, h]
  rfl

/-- The address that the function for the form of the key stores over 25 zeros. -/
def keyAddress (compressed : Prop) [Decidable compressed] (input : Memory) : Vector UInt8 25 :=
  (if compressed then bitcoinCompressedPublicKeyToAddress H input (Vector.replicate 25 0)
    else bitcoinPublicKeyToAddress H input (Vector.replicate 25 0)).2

theorem keyAddress_wellFormed {compressed : Prop} [Decidable compressed] (input : Memory)
    {push : UInt8} (hbit : compressed ↔ push = 0x21) :
    IsWellFormed H 0 (keyAddress H compressed input) ↔
      (refusesPush push (input 0) → ZeroChecksum H) := by
  unfold keyAddress refusesPush
  by_cases h : push = 0x21
  · rw [if_pos h, if_pos (hbit.mpr h)]
    exact compressedPublicKeyToAddress_wellFormed H input
  · rw [if_neg h, if_neg (fun hc => h (hbit.mp hc))]
    exact publicKeyToAddress_wellFormed H input

/-- The loop over the keys from `i` on. -/
theorem multisigAddresses_spec (mBlockData : Memory) {script : Nat} {ps : List Nat}
    {o : BlockOutput} (left i : Nat) (hi : i + left = 5)
    (hkeys : ∀ (j p : Nat), ps[j]? = some p →
      o.publicKey[j]? = some (some (KeyPointer.blockData (script + (p + 1)))))
    (hend : ps.length < 5 → o.publicKey[ps.length]? = some none) (hle : i ≤ ps.length)
    (hzeros : ∀ j < 5, i ≤ j → o.addresses[j]? = some (Vector.replicate 25 0)) :
    ∃ o', multisigAddresses H mBlockData left i o = o' ∧ o'.publicKey = o.publicKey ∧
      o'.keyType = o.keyType ∧ (∀ j < i, o'.addresses[j]? = o.addresses[j]?) ∧
      ∀ j < 5, i ≤ j → ∀ p, ps[j]? = some p → o'.addresses[j]? =
        some (keyAddress H (o.multiSigFormat &&& (1 <<< UInt32.ofNat j) ≠ 0)
          (KeyPointer.bytes H mBlockData (.blockData (script + (p + 1))))) := by
  induction left generalizing i o with
  | zero =>
    refine ⟨o, rfl, rfl, rfl, fun _ _ => rfl, ?_⟩
    intro j hj hij
    omega
  | succ left ih =>
    unfold multisigAddresses
    rcases Nat.lt_or_ge i ps.length with hlt | hge
    · obtain ⟨p, hp⟩ : ∃ p, ps[i]? = some p := ⟨_, List.getElem?_eq_getElem hlt⟩
      have hget : o.publicKey.getD i none = some (.blockData (script + (p + 1))) :=
        getD_of_get (hkeys i p hp) none
      have hold : o.addresses.getD i (Vector.replicate 25 0) = Vector.replicate 25 0 :=
        getD_of_get (hzeros i (by omega) (le_refl i)) _
      simp only [hget, hold]
      obtain ⟨address, haddress⟩ : ∃ address, address =
          keyAddress H (o.multiSigFormat &&& (1 <<< UInt32.ofNat i) ≠ 0)
            (KeyPointer.bytes H mBlockData (.blockData (script + (p + 1)))) := ⟨_, rfl⟩
      obtain ⟨o', hrun, hpub, htype, hbefore, hafter⟩ := ih (i + 1) (by omega)
        (o := { o with addresses := o.addresses.setIfInBounds i address }) hkeys hend hlt (by
          intro j hj hij
          rw [Vector.getElem?_setIfInBounds, if_neg (by omega)]
          exact hzeros j hj (by omega))
      have hown : o'.addresses[i]? = some address := by
        rw [hbefore i (by omega), Vector.getElem?_setIfInBounds, if_pos rfl, if_pos (by omega)]
      rw [haddress] at hrun
      refine ⟨o', hrun, hpub, htype, ?_, ?_⟩
      · intro j hj
        rw [hbefore j (by omega), Vector.getElem?_setIfInBounds, if_neg (by omega)]
      · intro j hj hij q hq
        by_cases hji : j = i
        · subst hji
          obtain rfl : p = q := Option.some.inj (hp.symm.trans hq)
          rw [hown, haddress]
        · exact hafter j hj (by omega) q hq
    · obtain rfl : i = ps.length := Nat.le_antisymm hle hge
      have hget : o.publicKey.getD ps.length none = none :=
        getD_of_get (hend (by omega)) none
      simp only [hget]
      refine ⟨o, rfl, rfl, rfl, fun _ _ => rfl, ?_⟩
      intro j hj hij p hp
      rw [List.getElem?_eq_none hij] at hp
      cases hp

/-! ## What the chain of tests leaves -/

/-- The keys that the chain of tests located, and when one of them is refused. -/
inductive Located (b : Memory) (script length : Nat) (o r : BlockOutput) : Prop
  | one {place : Nat} {keyType : KeyType} (key : OneKey r (.blockData (script + place)) keyType)
      (single : keyType.Single) (refused : RefusedKey b length ↔ refusesKey keyType (b place))
  | none (unset : Unset r) (first : getElem r.publicKey 0 first_lt_five = none)
      (refused : ¬ RefusedKey b length)
  | multisig (some_key : keyPushes b (length - 2) 5 1 ≠ [])
      (stored : KeysStored b script 0 (keyPushes b (length - 2) 5 1) o r)
      (refused : RefusedKey b length ↔
        ∃ p ∈ keyPushes b (length - 2) 5 1, refusesPush (b p) (b (p + 1)))

/-- What is left of the refused keys when no test on a single one applies. -/
theorem refusedKey_iff_multisig {b : Memory} {length : Nat}
    (h67 : ¬(length = 67 ∧ b 0 = 65 ∧ b 66 = OP_CHECKSIG))
    (h66 : ¬(length = 66 ∧ b 65 = OP_CHECKSIG)) (h35 : ¬(length = 35 ∧ b 34 = OP_CHECKSIG))
    (h33 : ¬(length = 33 ∧ b 0 = 0x20)) :
    RefusedKey b length ↔ (b (length - 1) = OP_CHECKMULTISIG ∧ 25 < length) ∧
      (b 0 ∈ [OP_0, OP_1, OP_2, OP_3, OP_4, OP_5] ∧
        b (length - 2) ∈ [OP_1, OP_2, OP_3, OP_4, OP_5]) ∧
      ∃ p ∈ keyPushes b (length - 2) 5 1, refusesPush (b p) (b (p + 1)) := by
  constructor
  · intro h
    cases h with
    | raw h sig => exact absurd ⟨h, sig⟩ h66
    | pushed h push sig => exact absurd ⟨h, push, sig⟩ h67
    | compressed h sig => exact absurd ⟨h, sig⟩ h35
    | truncated h push => exact absurd ⟨h, push⟩ h33
    | multisig h25 last signatures keys key first =>
      exact ⟨⟨last, h25⟩, ⟨signatures, keys⟩, _, key, first⟩
  · rintro ⟨⟨last, h25⟩, ⟨signatures, keys⟩, p, key, first⟩
    exact RefusedKey.multisig h25 last signatures keys key first

theorem patternScan_some {b : Memory} {left i j : Nat} (h : patternScan b left i = some j) :
    i ≤ j ∧ j < i + left ∧ PatternAt b j := by
  induction left generalizing i with
  | zero => cases h
  | succ left ih =>
    unfold patternScan at h
    split at h
    · rename_i hpattern
      obtain rfl : i = j := by simpa using h
      exact ⟨le_refl i, by omega, hpattern⟩
    · obtain ⟨h1, h2, h3⟩ := ih h
      exact ⟨by omega, by omega, h3⟩

theorem patternScan_none {b : Memory} {left i : Nat} (h : patternScan b left i = none) :
    ∀ j, i ≤ j → j < i + left → ¬ PatternAt b j := by
  induction left generalizing i with
  | zero =>
    intro j h1 h2
    omega
  | succ left ih =>
    unfold patternScan at h
    split at h
    · cases h
    · rename_i hpattern
      intro j h1 h2
      rcases Nat.eq_or_lt_of_le h1 with rfl | hlt
      · exact hpattern
      · exact ih h j hlt (by omega)

/-- Outside of the push, a script of 67 bytes gives no key but the one that the scan finds. -/
theorem refusedKey_pushed {b : Memory} (push : b 0 = 65) (sig : b 66 = OP_CHECKSIG) :
    RefusedKey b 67 ↔ b 1 ≠ 0x04 ∧ patternScan b 42 0 = none := by
  constructor
  · intro h
    cases h with
    | raw h => omega
    | compressed h => omega
    | truncated h => omega
    | multisig h25 last =>
      rw [show 67 - 1 = 66 from rfl, sig] at last
      exact absurd last (by decide)
    | pushed h67 push sig first noPattern =>
      refine ⟨first, ?_⟩
      cases hscan : patternScan b 42 0 with
      | none => rfl
      | some i =>
        obtain ⟨-, hi, hpattern⟩ := patternScan_some hscan
        exact absurd hpattern (noPattern i (by omega))
  · rintro ⟨first, hscan⟩
    exact RefusedKey.pushed rfl push sig first
      (fun i hi => patternScan_none hscan i (Nat.zero_le i) (by omega))

/-- 66 bytes before `OP_CHECKSIG` are a key without its push. -/
theorem refusedKey_raw {b : Memory} (sig : b 65 = OP_CHECKSIG) :
    RefusedKey b 66 ↔ b 0 ≠ 0x04 := by
  refine ⟨?_, RefusedKey.raw rfl sig⟩
  intro h
  cases h with
  | raw _ _ first => exact first
  | multisig h25 last =>
    rw [show 66 - 1 = 65 from rfl, sig] at last
    exact absurd last (by decide)
  | _ => omega

theorem refusedKey_compressed {b : Memory} (sig : b 34 = OP_CHECKSIG) :
    RefusedKey b 35 ↔ refusesCompressed (b 1) := by
  refine ⟨?_, RefusedKey.compressed rfl sig⟩
  intro h
  cases h with
  | compressed _ _ first => exact first
  | multisig h25 last =>
    rw [show 35 - 1 = 34 from rfl, sig] at last
    exact absurd last (by decide)
  | _ => omega

theorem refusedKey_truncated {b : Memory} (push : b 0 = 0x20) :
    RefusedKey b 33 ↔ refusesCompressed (b 1) := by
  refine ⟨?_, RefusedKey.truncated rfl push⟩
  intro h
  cases h with
  | truncated _ _ first => exact first
  | multisig h25 last signatures =>
    rw [push] at signatures
    exact absurd signatures (by decide)
  | _ => omega

theorem not_refusedKey_empty (b : Memory) : ¬ RefusedKey b 0 := by
  intro h
  cases h <;> omega

/-- A script of 67 bytes with a push of 65 bytes before `OP_CHECKSIG`: what the scan
finds in it takes the place of the key. -/
theorem locateKeys_pushed_eq {b : Memory} {script : Nat} {o : BlockOutput}
    (push : b 0 = 65) (sig : b 66 = OP_CHECKSIG) :
    (locateKeys b script 67 o).1 =
      (patternScan b 42 0).elim (o.setKey (.blockData (script + 1)) .KT_UNCOMPRESSED_PUBLIC_KEY)
        fun i => (o.setKey (.blockData (script + 1)) .KT_UNCOMPRESSED_PUBLIC_KEY).setKey
          (.blockData (script + (i + 3))) .KT_RIPEMD160 := by
  have hdup : b 0 ≠ OP_DUP := by rw [push]; decide
  have hmulti : b 66 ≠ OP_CHECKMULTISIG := by rw [sig]; decide
  unfold locateKeys
  extract_lets lastInstruction first
  have hset : first = o.setKey (.blockData (script + 1)) .KT_UNCOMPRESSED_PUBLIC_KEY :=
    if_pos ⟨rfl, push, sig⟩
  rw [if_neg (by omega), if_neg (by omega), if_neg (by omega), if_neg (by omega), if_neg (by omega),
    if_neg (fun h => hdup h.2.1), if_neg (by omega), if_neg (fun h => hmulti h.1),
    if_pos (by omega), hset]
  cases patternScan b (67 - 25) 0 with
  | some i => rfl
  | none => rfl

theorem locateKeys_pushed {b : Memory} {script : Nat} {o : BlockOutput} (hunset : Unset o)
    (push : b 0 = 65) (sig : b 66 = OP_CHECKSIG) :
    Located b script 67 o (locateKeys b script 67 o).1 := by
  have hfirst := oneKey_setKey hunset (.blockData (script + 1)) .KT_UNCOMPRESSED_PUBLIC_KEY
  have hrefused := refusedKey_pushed push sig
  rw [locateKeys_pushed_eq push sig]
  cases hscan : patternScan b 42 0 with
  | some i =>
    refine Located.one (oneKey_setKey hfirst.toUnset _ _) (by simp [KeyType.Single]) ?_
    rw [hrefused, hscan]
    exact iff_of_false (fun h => nomatch h.2) nofun
  | none =>
    refine Located.one hfirst (by simp [KeyType.Single]) ?_
    rw [hrefused]
    exact and_iff_left hscan

theorem locateKeys_multisig {b : Memory} {script length : Nat} {o : BlockOutput}
    (hunset : Unset o) (hnone : getElem o.publicKey 0 first_lt_five = none)
    (hclear : o.multiSigFormat = 0)
    (last : b (length - 1) = OP_CHECKMULTISIG ∧ 25 < length)
    (hrefused : RefusedKey b length ↔ (b (length - 1) = OP_CHECKMULTISIG ∧ 25 < length) ∧
      (b 0 ∈ [OP_0, OP_1, OP_2, OP_3, OP_4, OP_5] ∧
        b (length - 2) ∈ [OP_1, OP_2, OP_3, OP_4, OP_5]) ∧
      ∃ p ∈ keyPushes b (length - 2) 5 1, refusesPush (b p) (b (p + 1))) :
    Located b script length o (multisigKeys b script length o) := by
  rw [and_iff_right last] at hrefused
  unfold multisigKeys
  simp only
  by_cases hsigs : b 0 ∈ [OP_0, OP_1, OP_2, OP_3, OP_4, OP_5] ∧
      b (length - 2) ∈ [OP_1, OP_2, OP_3, OP_4, OP_5]
  · rw [if_pos hsigs]
    rw [and_iff_right hsigs] at hrefused
    have hbits : ∀ j < 5, 0 ≤ j → ¬ IsCompressed o j := by
      intro j _ _ h
      rw [IsCompressed, hclear, UInt32.zero_and] at h
      exact h rfl
    have hstored := multisigLoop_keysStored b script (length - 2) 5 0 1 o rfl hbits
    by_cases hne : keyPushes b (length - 2) 5 1 = []
    · rw [hne] at hstored hrefused
      have hafter : ∀ i : Fin 5, (multisigLoop b script (length - 2) 5 0 1 o).publicKey[i] =
          o.publicKey[i] := by
        intro i
        have h := hstored.after i (Nat.zero_le _)
        rw [Vector.getElem?_eq_getElem i.isLt, Vector.getElem?_eq_getElem i.isLt] at h
        exact Option.some.inj h
      refine Located.none ⟨?_, ?_⟩ ((hafter 0).trans hnone) ?_
      · intro i hi
        rw [hafter i]
        exact hunset.others i hi
      · rw [hstored.addresses]
        exact hunset.zeros
      · rw [hrefused]
        rintro ⟨p, hp, -⟩
        cases hp
    · exact Located.multisig hne hstored hrefused
  · rw [if_neg hsigs]
    refine Located.none hunset hnone ?_
    rw [hrefused]
    exact fun h => hsigs h.1

theorem locateKeys_located {b : Memory} {script length : Nat} {o : BlockOutput}
    (hunset : Unset o) (hnone : getElem o.publicKey 0 first_lt_five = none)
    (hclear : o.multiSigFormat = 0) :
    Located b script length o (locateKeys b script length o).1 := by
  by_cases h67 : length = 67 ∧ b 0 = 65 ∧ b 66 = OP_CHECKSIG
  · obtain ⟨rfl, push, sig⟩ := h67
    exact locateKeys_pushed hunset push sig
  have hone := fun place keyType => oneKey_setKey hunset (.blockData (script + place)) keyType
  unfold locateKeys
  extract_lets lastInstruction first output
  have hfirst : first = o := if_neg h67
  rw [hfirst]
  by_cases h40 : length = 40 ∧ b 0 = OP_RETURN
  · rw [if_pos h40]
    refine Located.one (hone 1 _) (by simp [KeyType.Single]) (iff_of_false ?_ nofun)
    rw [refusedKey_iff_multisig h67 (by omega) (by omega) (by omega), h40.2]
    exact fun h => absurd h.2.1.1 (by decide)
  rw [if_neg h40]
  by_cases h66 : length = 66 ∧ b 65 = OP_CHECKSIG
  · obtain ⟨rfl, sig⟩ := h66
    rw [if_pos ⟨rfl, sig⟩]
    exact Located.one (hone 0 _) (by simp [KeyType.Single]) (refusedKey_raw sig)
  rw [if_neg h66]
  by_cases h35 : length = 35 ∧ b 34 = OP_CHECKSIG
  · obtain ⟨rfl, sig⟩ := h35
    rw [if_pos ⟨rfl, sig⟩]
    exact Located.one (hone 1 _) (by simp [KeyType.Single]) (refusedKey_compressed sig)
  rw [if_neg h35]
  by_cases h33 : length = 33 ∧ b 0 = 0x20
  · obtain ⟨rfl, push⟩ := h33
    rw [if_pos ⟨rfl, push⟩]
    exact Located.one (hone 1 _) (by simp [KeyType.Single]) (refusedKey_truncated push)
  rw [if_neg h33]
  have hrefused := refusedKey_iff_multisig h67 h66 h35 h33
  by_cases h23 : length = 23 ∧ b 0 = OP_HASH160 ∧ b 1 = 20 ∧ b 22 = OP_EQUAL
  · rw [if_pos h23]
    refine Located.one (hone 2 _) (by simp [KeyType.Single]) (iff_of_false ?_ nofun)
    rw [hrefused]
    exact fun h => by omega
  rw [if_neg h23]
  by_cases hdup : 25 ≤ length ∧ b 0 = OP_DUP ∧ b 1 = OP_HASH160 ∧ b 2 = 20
  · rw [if_pos hdup]
    refine Located.one (hone 3 _) (by simp [KeyType.Single]) (iff_of_false ?_ nofun)
    rw [hrefused, hdup.2.1]
    exact fun h => absurd h.2.1.1 (by decide)
  rw [if_neg hdup]
  by_cases h5 : length = 5 ∧ b 0 = OP_DUP ∧ b 1 = OP_HASH160 ∧ b 2 = OP_0 ∧
      b 3 = OP_EQUALVERIFY ∧ b 4 = OP_CHECKSIG
  · rw [if_pos h5]
    refine Located.none hunset hnone ?_
    rw [hrefused]
    exact fun h => by omega
  rw [if_neg h5]
  by_cases hmulti : lastInstruction = OP_CHECKMULTISIG ∧ 25 < length
  · rw [if_pos hmulti]
    have houtput : output = multisigKeys b script length o := by
      unfold output
      rw [hfirst]
    rw [houtput]
    exact locateKeys_multisig hunset hnone hclear hmulti hrefused
  rw [if_neg hmulti]
  have hnot : ¬ RefusedKey b length := by
    rw [hrefused]
    exact fun h => hmulti h.1
  by_cases h25 : 25 < length
  · rw [if_pos h25]
    cases patternScan b (length - 25) 0 with
    | some i =>
      exact Located.one (hone (i + 3) _) (by simp [KeyType.Single]) (iff_of_false hnot nofun)
    | none => exact Located.none hunset hnone hnot
  · rw [if_neg h25]
    exact Located.none hunset hnone hnot

/-! ## The addresses of an output -/

/-- Behind the keys that were stored there are none. -/
theorem keysStored_unused {b : Memory} {script : Nat} {ps : List Nat} {o r : BlockOutput}
    (hunset : Unset o) (hnone : getElem o.publicKey 0 first_lt_five = none)
    (h : KeysStored b script 0 ps o r) (j : Nat) (hj : j < 5) (hle : ps.length ≤ j) :
    r.publicKey[j]? = some none := by
  rw [h.after j (by omega), Vector.getElem?_eq_getElem hj]
  by_cases h0 : j = 0
  · subst h0
    rw [hnone]
  · exact congrArg some (hunset.others ⟨j, hj⟩ (fun he => h0 (Fin.ext_iff.mp he)))

/-- Each key that was stored gets its address. -/
theorem deriveAddresses_keysStored (mBlockData : Memory) {b : Memory} {script : Nat} {ps : List Nat}
    {o r : BlockOutput} (hunset : Unset o) (hnone : getElem o.publicKey 0 first_lt_five = none)
    (hne : ps ≠ []) (h : KeysStored b script 0 ps o r) (stackByte : UInt8) :
    ∃ o', deriveAddresses H mBlockData stackByte r = o' ∧ o'.publicKey = r.publicKey ∧
      o'.keyType = r.keyType ∧ ∀ j < 5, ∀ p, ps[j]? = some p → o'.addresses[j]? =
        some (keyAddress H (r.multiSigFormat &&& (1 <<< UInt32.ofNat j) ≠ 0)
          (KeyPointer.bytes H mBlockData (.blockData (script + (p + 1))))) := by
  have hkeys : ∀ (j p : Nat), ps[j]? = some p →
      r.publicKey[j]? = some (some (KeyPointer.blockData (script + (p + 1)))) := by
    intro j p hp
    have hj := (h.keys j p hp).1
    rwa [Nat.zero_add] at hj
  have hzeros : ∀ j < 5, 0 ≤ j → r.addresses[j]? = some (Vector.replicate 25 0) := by
    intro j hj _
    rw [h.addresses, hunset.zeros, Vector.getElem?_replicate, if_pos hj]
  obtain ⟨o', hrun, hpub, htype, -, haddresses⟩ := multisigAddresses_spec H mBlockData 5 0 rfl hkeys
    (fun hlt => keysStored_unused hunset hnone h _ hlt (le_refl _)) (Nat.zero_le _) hzeros
  refine ⟨o', ?_, hpub, htype, fun j hj p hp => haddresses j hj (Nat.zero_le j) p hp⟩
  have hmultisig : r.keyType = .KT_MULTISIG := by rw [h.type, if_neg hne]
  obtain ⟨p, hp⟩ : ∃ p, ps[0]? = some p :=
    ⟨_, List.getElem?_eq_getElem (List.length_pos_of_ne_nil hne)⟩
  have hfirst := hkeys 0 p hp
  rw [Vector.getElem?_eq_getElem (by omega)] at hfirst
  unfold deriveAddresses
  simp only [Option.some.inj hfirst, hmultisig]
  exact hrun

theorem deriveAddresses_multisig {b mBlockData : Memory} {script length : Nat} {o r : BlockOutput}
    (hmem : ∀ i, b i = mBlockData (script + i)) (hunset : Unset o)
    (hnone : getElem o.publicKey 0 first_lt_five = none)
    (hne : keyPushes b (length - 2) 5 1 ≠ [])
    (h : KeysStored b script 0 (keyPushes b (length - 2) 5 1) o r) (stackByte : UInt8) :
    AddressesWellFormed H (deriveAddresses H mBlockData stackByte r) ↔
      ((∃ p ∈ keyPushes b (length - 2) 5 1, refusesPush (b p) (b (p + 1))) → ZeroChecksum H) := by
  obtain ⟨ps, hps⟩ : ∃ ps, ps = keyPushes b (length - 2) 5 1 := ⟨_, rfl⟩
  rw [← hps] at hne h ⊢
  obtain ⟨o', hderive, hpub, htype, haddresses⟩ :=
    deriveAddresses_keysStored H mBlockData hunset hnone hne h stackByte
  have hwellFormed : ∀ j p, ps[j]? = some p →
      (IsWellFormed H 0 (keyAddress H (r.multiSigFormat &&& (1 <<< UInt32.ofNat j) ≠ 0)
          (KeyPointer.bytes H mBlockData (.blockData (script + (p + 1))))) ↔
        (refusesPush (b p) (mBlockData (script + (p + 1))) → ZeroChecksum H)) := by
    intro j p hp
    have hbit := (h.keys j p hp).2
    rw [Nat.zero_add] at hbit
    exact keyAddress_wellFormed H _ hbit
  have hmultisig : r.keyType = .KT_MULTISIG := by rw [h.type, if_neg hne]
  rw [hderive]
  unfold AddressesWellFormed
  rw [htype, hmultisig, if_neg (by decide), hpub]
  constructor
  · rintro hall ⟨p, hp, hbad⟩
    obtain ⟨j, hj⟩ := List.mem_iff_getElem?.mp hp
    have hkey := (h.keys j p hj).1
    rw [Nat.zero_add] at hkey
    have hj5 : j < 5 := by
      by_contra hge
      rw [Vector.getElem?_eq_none (by omega)] at hkey
      cases hkey
    have hget := haddresses j hj5 p hj
    rw [Vector.getElem?_eq_getElem hj5] at hkey hget
    have hwf := hall ⟨j, hj5⟩ (by
      simp only [Fin.getElem_fin, Option.some.inj hkey, Option.isSome_some])
    simp only [Fin.getElem_fin, Option.some.inj hget] at hwf
    rw [hmem (p + 1)] at hbad
    exact (hwellFormed j p hj).mp hwf hbad
  · intro hzero i hi
    rcases Nat.lt_or_ge i.val ps.length with hlt | hge
    · have hp : ps[i.val]? = some ps[i.val] := List.getElem?_eq_getElem hlt
      have hget := haddresses i.val i.isLt _ hp
      rw [Vector.getElem?_eq_getElem i.isLt] at hget
      simp only [Fin.getElem_fin, Option.some.inj hget]
      rw [hwellFormed i.val _ hp, ← hmem]
      exact fun hbad => hzero ⟨_, List.getElem_mem hlt, hbad⟩
    · have hnone' := keysStored_unused hunset hnone h i.val i.isLt hge
      rw [Vector.getElem?_eq_getElem i.isLt] at hnone'
      simp only [Fin.getElem_fin, Option.some.inj hnone'] at hi
      cases hi

/-- The last steps of `readOutput` change no address. -/
theorem addressesWellFormed_getAsciiAddress (o : BlockOutput) (keyTypeName : String) :
    AddressesWellFormed H (getAsciiAddress H { o with keyTypeName }) ↔ AddressesWellFormed H o := by
  unfold getAsciiAddress
  extract_lets start output
  split
  · exact Iff.rfl
  · exact Iff.rfl

/-- The built-in keys stand for RIPEMD-160 hashes, which every address can hold. -/
theorem addressesWellFormed_builtIn {r : BlockOutput} (h : Unset r) (key : KeyPointer)
    (mBlockData : Memory) (stackByte : UInt8) :
    AddressesWellFormed H (deriveAddresses H mBlockData stackByte (r.setKey key .KT_RIPEMD160)) := by
  have hone := deriveAddresses_oneKey H (oneKey_setKey h key .KT_RIPEMD160)
    (by simp [KeyType.Single]) mBlockData stackByte
  exact hone.mpr nofun

theorem decodeScript_wellFormed {mBlockData : Memory} {o : BlockOutput} (hunset : Unset o)
    (hnone : getElem o.publicKey 0 first_lt_five = none)
    (hclear : o.multiSigFormat = 0) (stackByte : UInt8)
    {script : Nat} (hscript : o.challengeScript = scriptAt o.challengeScriptLength script) :
    AddressesWellFormed H (decodeScript H mBlockData stackByte o).output ↔
      (RefusedKey (fun i => mBlockData (script + i)) o.challengeScriptLength.toNat →
        ZeroChecksum H) := by
  unfold decodeScript
  extract_lets length located first reportZeroLength failed second third fourth
  rw [addressesWellFormed_getAsciiAddress]
  by_cases h0 : o.challengeScriptLength = 0
  · -- an empty script: the built-in key takes its place
    have hfirst : first = o := by
      unfold first located
      rw [hscript, scriptAt, if_neg (not_not.mpr h0)]
    have hrefused : ¬ RefusedKey (fun i => mBlockData (script + i)) length := by
      have hlen : length = 0 := by
        unfold length
        rw [h0]
        rfl
      rw [hlen]
      exact not_refusedKey_empty _
    have hsecond : second = o.setKey (if length = 0 then .zeroByteKey else .dummyKey) .KT_RIPEMD160 := by
      have hfailed : failed := by
        unfold failed
        rw [hfirst, hnone]
        rfl
      unfold second
      rw [if_pos hfailed, hfirst]
    refine iff_of_true ?_ (fun h => absurd h hrefused)
    unfold third
    rw [hsecond]
    exact addressesWellFormed_builtIn H hunset _ mBlockData stackByte
  · have hfirst : first = (locateKeys (fun i => mBlockData (script + i)) script length o).1 := by
      unfold first located
      rw [hscript, scriptAt, if_pos h0]
    have hlocated : Located (fun i => mBlockData (script + i)) script length o first := by
      rw [hfirst]
      exact locateKeys_located hunset hnone hclear
    unfold third
    cases hlocated with
    | one key single refused =>
      have hsecond : second = first := by
        unfold second failed
        rw [key.first]
        rfl
      rw [hsecond, deriveAddresses_oneKey H key single, refused]
      exact Iff.rfl
    | none unset hfirstNone refused =>
      have hsecond : second = first.setKey (if length = 0 then .zeroByteKey else .dummyKey)
          .KT_RIPEMD160 := by
        unfold second failed
        rw [hfirstNone]
        rfl
      rw [hsecond]
      exact iff_of_true (addressesWellFormed_builtIn H unset _ mBlockData stackByte)
        (fun h => absurd h refused)
    | multisig some_key stored refused =>
      have hsecond : second = first := by
        obtain ⟨p, hp⟩ : ∃ p, (keyPushes (fun i => mBlockData (script + i)) (length - 2) 5 1)[0]? =
            some p := ⟨_, List.getElem?_eq_getElem (List.length_pos_of_ne_nil some_key)⟩
        have hkey := (stored.keys 0 p hp).1
        rw [Nat.add_zero, Vector.getElem?_eq_getElem (by omega)] at hkey
        unfold second failed
        rw [Option.some.inj hkey]
        rfl
      rw [hsecond, refused]
      exact deriveAddresses_multisig H (fun _ => rfl) hunset hnone some_key stored stackByte

/-! ## The script alone decides -/

theorem mem_keyPushes {b : Memory} {scanEnd left scan p : Nat}
    (h : p ∈ keyPushes b scanEnd left scan) : p < scanEnd := by
  induction left generalizing scan with
  | zero => cases h
  | succ left ih =>
    unfold keyPushes at h
    split at h
    · rename_i hscan
      rcases List.mem_cons.mp h with rfl | h
      · exact hscan.1
      · exact ih h
    · cases h

theorem keyPushes_congr {b b' : Memory} {scanEnd : Nat} (h : ∀ i < scanEnd, b i = b' i)
    (left scan : Nat) : keyPushes b scanEnd left scan = keyPushes b' scanEnd left scan := by
  induction left generalizing scan with
  | zero => rfl
  | succ left ih =>
    unfold keyPushes
    by_cases hscan : scan < scanEnd
    · rw [h scan hscan, ih]
    · rw [if_neg (fun hc => hscan hc.1), if_neg (fun hc => hscan hc.1)]

theorem RefusedKey.congr {b b' : Memory} {length : Nat} (h : ∀ i < length, b i = b' i)
    (hb : RefusedKey b length) : RefusedKey b' length := by
  cases hb with
  | raw h66 sig first =>
    rw [h 65 (by omega)] at sig
    rw [h 0 (by omega)] at first
    exact RefusedKey.raw h66 sig first
  | pushed h67 push sig first noPattern =>
    rw [h 0 (by omega)] at push
    rw [h 66 (by omega)] at sig
    rw [h 1 (by omega)] at first
    refine RefusedKey.pushed h67 push sig first ?_
    intro i hi hpattern
    apply noPattern i hi
    unfold PatternAt at hpattern ⊢
    rwa [h i (by omega), h (i + 1) (by omega), h (i + 2) (by omega), h (i + 23) (by omega),
      h (i + 24) (by omega)]
  | compressed h35 sig first =>
    rw [h 34 (by omega)] at sig
    rw [h 1 (by omega)] at first
    exact RefusedKey.compressed h35 sig first
  | truncated h33 push first =>
    rw [h 0 (by omega)] at push
    rw [h 1 (by omega)] at first
    exact RefusedKey.truncated h33 push first
  | multisig h25 last signatures keys key first =>
    have hscan := mem_keyPushes key
    rw [h _ (by omega)] at last signatures keys
    rw [h _ (by omega), h _ (by omega)] at first
    rw [keyPushes_congr (fun i hi => h i (by omega))] at key
    exact RefusedKey.multisig h25 last signatures keys key first

/-- The byte `i` of a script. -/
def scriptByte (script : List UInt8) : Memory := fun i => script.getD i 0

theorem scriptByte_of_holds {mem : Memory} {p : Nat} {script : List UInt8} (h : Holds mem p script) :
    ∀ i < script.length, mem (p + i) = scriptByte script i := by
  intro i hi
  rw [holds_iff.mp h i hi, scriptByte, List.getD_eq_getElem?_getD, List.getElem?_eq_getElem hi]
  rfl

theorem refusedKey_of_holds {mem : Memory} {p : Nat} {script : List UInt8} (h : Holds mem p script) :
    RefusedKey (fun i => mem (p + i)) script.length ↔
      RefusedKey (scriptByte script) script.length := by
  have hbyte := scriptByte_of_holds h
  exact ⟨RefusedKey.congr hbyte, RefusedKey.congr (fun i hi => (hbyte i hi).symm)⟩

theorem readOutput_stores {s : ParseState} (k : Nat) {w : OutputWire}
    (h : Holds s.block.mBlockData s.block.mBlockRead w.bytes) :
    ∃ s', (readOutput H k).run s = .ok true s' ∧ s'.block.mOutputs k =
      (decodeScript H s.block.mBlockData (s.stack 0) (w.output s.block.mBlockRead)).output := by
  obtain ⟨ws, hrun⟩ := readOutput_reads H k w h
  exact ⟨_, hrun, Function.update_self _ _ _⟩

theorem output_wellFormed {mBlockData : Memory} {p : Nat} {w : OutputWire}
    (h : Holds mBlockData p w.bytes) (stackByte : UInt8) :
    AddressesWellFormed H (decodeScript H mBlockData stackByte (w.output p)).output ↔
      (RefusedKey (scriptByte w.challengeScript) w.challengeScript.length → ZeroChecksum H) := by
  have hunset : Unset (w.output p) := by
    refine ⟨?_, rfl⟩
    intro i _
    exact Vector.getElem_replicate i.isLt
  have hscript : Holds mBlockData (p + 8 + w.challengeScriptLength.bytes.length)
      w.challengeScript := by
    simp only [OutputWire.bytes, holds_append, leBytes_length] at h
    exact h.2.2
  rw [decodeScript_wellFormed H hunset rfl rfl stackByte rfl, ← refusedKey_of_holds hscript,
    w.script_length]
  exact Iff.rfl

/-- Every output is read, and its addresses are well formed exactly when none
of its keys is refused, or else the hash functions make 25 zeros an address. -/
theorem the_addresses_are_well_formed_exactly_without_a_refused_key (s : ParseState) (k : Nat)
    (w : OutputWire) (h : Holds s.block.mBlockData s.block.mBlockRead w.bytes) :
    ∃ s', (readOutput H k).run s = .ok true s' ∧
      (AddressesWellFormed H (s'.block.mOutputs k) ↔
        (RefusedKey (scriptByte w.challengeScript) w.challengeScript.length → ZeroChecksum H)) := by
  obtain ⟨s', hrun, hstored⟩ := readOutput_stores H k h
  refine ⟨s', hrun, ?_⟩
  rw [hstored]
  exact output_wellFormed H h (s.stack 0)

/-- An output with a script of at most 252 bytes. -/
def shortOutput (script : List UInt8) (h : script.length < 0xFD) : OutputWire :=
  { value := 0
    challengeScriptLength := Count.ofNat script.length (by omega)
    challengeScript := script
    script_length := (Count.ofNat_value _ _).symm }

theorem the_addresses_of_an_empty_script_are_well_formed :
    Holds (ParseState.ofBytes (shortOutput [] (by decide)).bytes).block.mBlockData 0
      (shortOutput [] (by decide)).bytes ∧
    ∃ s', (readOutput zeroHashes 0).run (ParseState.ofBytes (shortOutput [] (by decide)).bytes) =
        .ok true s' ∧
      (AddressesWellFormed zeroHashes (s'.block.mOutputs 0) ↔
        (RefusedKey (scriptByte []) 0 → ZeroChecksum zeroHashes)) :=
  ⟨holds_overlay _ _, the_addresses_are_well_formed_exactly_without_a_refused_key zeroHashes _ 0
    (shortOutput [] (by decide)) (holds_overlay _ _)⟩

/-- A push of 33 bytes that start with 5, and `OP_CHECKSIG`. -/
def badKeyScript : List UInt8 := 33 :: 5 :: List.replicate 32 0 ++ [OP_CHECKSIG]

def badKeyOutput : OutputWire := shortOutput badKeyScript (by decide)

theorem the_address_of_a_refused_key_is_not_well_formed :
    ∃ s', (readOutput zeroHashes 0).run (ParseState.ofBytes badKeyOutput.bytes) = .ok true s' ∧
      ¬ AddressesWellFormed zeroHashes (s'.block.mOutputs 0) := by
  have h : Holds (ParseState.ofBytes badKeyOutput.bytes).block.mBlockData 0 badKeyOutput.bytes :=
    holds_overlay _ _
  have hrefused : RefusedKey (scriptByte badKeyScript) 35 :=
    RefusedKey.compressed rfl (by decide) ⟨by decide, by decide⟩
  have hsum : ¬ ZeroChecksum zeroHashes := fun hz => absurd (hz 0) (by decide)
  obtain ⟨s', hrun, hstored⟩ := readOutput_stores zeroHashes 0 h
  refine ⟨s', hrun, ?_⟩
  rw [hstored]
  intro hall
  exact hsum ((output_wellFormed zeroHashes h _).mp hall hrefused)

end bitcoinstats.block_chain
