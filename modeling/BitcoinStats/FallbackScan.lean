-- The fallback scan of `readOutput`: it finds the first pay-to-hash pattern of a
-- script that no template fits, unless this stands at the very end of the script.
import BitcoinStats.OutputKeys

open byte_memory exec cursor bitcoinstats.bitcoin_address

namespace bitcoinstats.block_chain

variable (H : Hashes)

/-! ## Templates and patterns -/

/-- The scripts that the tests before the fallback scan are for. -/
inductive Template (b : Memory) (length : Nat) : Prop
  | uncompressed (h67 : length = 67) (push : b 0 = 65) (sig : b 66 = OP_CHECKSIG)
  | stealth (h40 : length = 40) (first : b 0 = OP_RETURN)
  | raw (h66 : length = 66) (sig : b 65 = OP_CHECKSIG)
  | compressed (h35 : length = 35) (sig : b 34 = OP_CHECKSIG)
  | truncated (h33 : length = 33) (push : b 0 = 0x20)
  | scriptHash (h23 : length = 23) (first : b 0 = OP_HASH160) (push : b 1 = 20)
      (equal : b 22 = OP_EQUAL)
  | pubKeyHash (h25 : 25 ≤ length) (dup : b 0 = OP_DUP) (hash : b 1 = OP_HASH160) (push : b 2 = 20)
  | emptyHash (h5 : length = 5) (dup : b 0 = OP_DUP) (hash : b 1 = OP_HASH160) (zero : b 2 = OP_0)
      (verify : b 3 = OP_EQUALVERIFY) (sig : b 4 = OP_CHECKSIG)

/-- The first pattern in the script is at the offset `i`. -/
structure FirstPattern (b : Memory) (length i : Nat) : Prop where
  inside : i + 25 ≤ length
  pattern : PatternAt b i
  first : ∀ j < i, ¬ PatternAt b j

/-- The output has the hash of the first pattern as its key, or the built-in key
when there is no pattern. -/
structure ScanFinds (b : Memory) (script length : Nat) (o : BlockOutput) : Prop where
  keyType : o.keyType = .KT_RIPEMD160
  found : ∀ i, FirstPattern b length i →
    o.publicKey[0]? = some (some (.blockData (script + (i + 3))))
  builtIn : (∀ i, i + 25 ≤ length → ¬ PatternAt b i) →
    o.publicKey[0]? = some (some (if length = 0 then .zeroByteKey else .dummyKey))

/-- The first pattern is made of the last 25 bytes. -/
def PatternAtEnd (b : Memory) (length : Nat) : Prop :=
  ∃ i, i + 25 = length ∧ FirstPattern b length i

theorem FirstPattern.unique {b : Memory} {length i j : Nat} (hi : FirstPattern b length i)
    (hj : FirstPattern b length j) : i = j := by
  rcases Nat.lt_trichotomy i j with hlt | heq | hgt
  · exact absurd hi.pattern (hj.first i hlt)
  · exact heq
  · exact absurd hj.pattern (hi.first j hgt)

/-! ## The scan -/

theorem patternScan_first {b : Memory} {left i j : Nat} (h : patternScan b left i = some j) :
    ∀ k, i ≤ k → k < j → ¬ PatternAt b k := by
  induction left generalizing i with
  | zero => cases h
  | succ left ih =>
    unfold patternScan at h
    split at h
    · obtain rfl : i = j := by simpa using h
      intro k hik hki
      omega
    · rename_i hpattern
      intro k hik hkj
      rcases Nat.eq_or_lt_of_le hik with rfl | hlt
      · exact hpattern
      · exact ih h k hlt hkj

/-- Where no template fits, the scan decides. -/
theorem locateKeys_scan {b : Memory} {script length : Nat} {o : BlockOutput}
    (htemplate : ¬ Template b length) (hlast : b (length - 1) ≠ OP_CHECKMULTISIG) :
    (locateKeys b script length o).1 = (patternScan b (length - 25) 0).elim o
      fun i => o.setKey (.blockData (script + (i + 3))) .KT_RIPEMD160 := by
  unfold locateKeys
  extract_lets lastInstruction first output
  have hfirst : first = o := if_neg (fun h => htemplate (.uncompressed h.1 h.2.1 h.2.2))
  rw [if_neg (fun h => htemplate (.stealth h.1 h.2)), if_neg (fun h => htemplate (.raw h.1 h.2)),
    if_neg (fun h => htemplate (.compressed h.1 h.2)),
    if_neg (fun h => htemplate (.truncated h.1 h.2)),
    if_neg (fun h => htemplate (.scriptHash h.1 h.2.1 h.2.2.1 h.2.2.2)),
    if_neg (fun h => htemplate (.pubKeyHash h.1 h.2.1 h.2.2.1 h.2.2.2)),
    if_neg (fun h => htemplate (.emptyHash h.1 h.2.1 h.2.2.1 h.2.2.2.1 h.2.2.2.2.1 h.2.2.2.2.2)),
    if_neg (fun h => hlast h.1), hfirst]
  by_cases h25 : 25 < length
  · rw [if_pos h25]
    cases patternScan b (length - 25) 0 with
    | some i => rfl
    | none => rfl
  · have hnone : length - 25 = 0 := by omega
    rw [if_neg h25, hnone]
    rfl

/-! ## What the output has -/

theorem ScanFinds.sameKeys {b : Memory} {script length : Nat} {o o' : BlockOutput}
    (hsame : SameKeys o o') : ScanFinds b script length o' ↔ ScanFinds b script length o := by
  have hkeys : ∀ {o1 o2 : BlockOutput}, o1.keyType = o2.keyType → o1.publicKey = o2.publicKey →
      ScanFinds b script length o1 → ScanFinds b script length o2 := by
    intro o1 o2 htype hkey h
    exact ⟨htype ▸ h.keyType, hkey ▸ h.found, hkey ▸ h.builtIn⟩
  exact ⟨hkeys hsame.keyType hsame.publicKey, hkeys hsame.keyType.symm hsame.publicKey.symm⟩

/-- A pattern that the scan found is the first. -/
theorem firstPattern_of_scan {b : Memory} {length j : Nat}
    (hscan : patternScan b (length - 25) 0 = some j) : FirstPattern b length j := by
  rcases patternScan_some hscan with ⟨-, hj, hpattern⟩
  exact ⟨by omega, hpattern, fun k hk => patternScan_first hscan k (Nat.zero_le k) hk⟩

theorem not_patternAtEnd_of_scan {b : Memory} {length j : Nat}
    (hscan : patternScan b (length - 25) 0 = some j) : ¬ PatternAtEnd b length := by
  rintro ⟨i, hend, hi⟩
  rcases patternScan_some hscan with ⟨-, hj, -⟩
  have hij := hi.unique (firstPattern_of_scan hscan)
  omega

theorem scanFinds_some {b : Memory} {script length j : Nat} {o : BlockOutput}
    (hscan : patternScan b (length - 25) 0 = some j) :
    ScanFinds b script length (o.setKey (.blockData (script + (j + 3))) .KT_RIPEMD160) := by
  have hfirst := firstPattern_of_scan hscan
  refine ⟨rfl, ?_, ?_⟩
  · intro i hi
    rw [hi.unique hfirst]
    exact setKey_first _ _ _
  · intro hno
    exact absurd hfirst.pattern (hno j hfirst.inside)

/-- Where the scan found none, the built-in key is right unless there is a pattern
at the end. -/
theorem scanFinds_none {b : Memory} {script length : Nat} {o : BlockOutput}
    (hscan : patternScan b (length - 25) 0 = none) :
    ScanFinds b script length
        (o.setKey (if length = 0 then .zeroByteKey else .dummyKey) .KT_RIPEMD160) ↔
      ¬ PatternAtEnd b length := by
  have hnone : ∀ i, i + 25 < length → ¬ PatternAt b i :=
    fun i hi => patternScan_none hscan i (Nat.zero_le i) (by omega)
  constructor
  · rintro hfinds ⟨i, hend, hi⟩
    have hkey := hfinds.found i hi
    rw [setKey_first, if_neg (by omega)] at hkey
    cases hkey
  · intro hend
    refine ⟨rfl, ?_, fun _ => setKey_first _ _ _⟩
    intro i hi
    have hinside := hi.inside
    by_cases hlast : i + 25 = length
    · exact absurd ⟨i, hlast, hi⟩ hend
    · exact absurd hi.pattern (hnone i (by omega))

/-! ## The script alone decides -/

theorem Template.congr {b b' : Memory} {length : Nat} (h : ∀ i < length, b i = b' i)
    (hb : Template b length) : Template b' length := by
  cases hb with
  | uncompressed h67 push sig =>
    rw [h _ (by omega)] at push sig
    exact .uncompressed h67 push sig
  | stealth h40 first =>
    rw [h _ (by omega)] at first
    exact .stealth h40 first
  | raw h66 sig =>
    rw [h _ (by omega)] at sig
    exact .raw h66 sig
  | compressed h35 sig =>
    rw [h _ (by omega)] at sig
    exact .compressed h35 sig
  | truncated h33 push =>
    rw [h _ (by omega)] at push
    exact .truncated h33 push
  | scriptHash h23 first push equal =>
    rw [h _ (by omega)] at first push equal
    exact .scriptHash h23 first push equal
  | pubKeyHash h25 dup hash push =>
    rw [h _ (by omega)] at dup hash push
    exact .pubKeyHash h25 dup hash push
  | emptyHash h5 dup hash zero verify sig =>
    rw [h _ (by omega)] at dup hash zero verify sig
    exact .emptyHash h5 dup hash zero verify sig

theorem patternAt_congr {b b' : Memory} {length i : Nat} (h : ∀ i < length, b i = b' i)
    (hi : i + 25 ≤ length) : PatternAt b i ↔ PatternAt b' i := by
  unfold PatternAt
  rw [h i (by omega), h (i + 1) (by omega), h (i + 2) (by omega), h (i + 23) (by omega),
    h (i + 24) (by omega)]

theorem FirstPattern.congr {b b' : Memory} {length i : Nat} (h : ∀ i < length, b i = b' i)
    (hi : FirstPattern b length i) : FirstPattern b' length i := by
  have hinside := hi.inside
  refine ⟨hinside, (patternAt_congr h hinside).mp hi.pattern, ?_⟩
  intro j hj hpattern
  exact hi.first j hj ((patternAt_congr h (by omega)).mpr hpattern)

theorem ScanFinds.congr {b b' : Memory} {script length : Nat} {o : BlockOutput}
    (h : ∀ i < length, b i = b' i) (hb : ScanFinds b script length o) :
    ScanFinds b' script length o := by
  refine ⟨hb.keyType, fun i hi => hb.found i (hi.congr fun j hj => (h j hj).symm), ?_⟩
  intro hno
  exact hb.builtIn fun i hi hpattern => hno i hi ((patternAt_congr h hi).mp hpattern)

theorem PatternAtEnd.congr {b b' : Memory} {length : Nat} (h : ∀ i < length, b i = b' i)
    (hb : PatternAtEnd b length) : PatternAtEnd b' length := by
  rcases hb with ⟨i, hend, hi⟩
  exact ⟨i, hend, hi.congr h⟩

/-! ## The output as stored -/

/-- A script that no template fits. -/
theorem keyedOutput_scan (mBlockData : Memory) (w : OutputWire) (p : Nat)
    (htemplate : ¬ Template (fun i => mBlockData (w.scriptPlace p + i)) w.challengeScript.length)
    (hlast : w.challengeScript ≠ [] →
      mBlockData (w.scriptPlace p + (w.challengeScript.length - 1)) ≠ OP_CHECKMULTISIG) :
    ScanFinds (fun i => mBlockData (w.scriptPlace p + i)) (w.scriptPlace p)
        w.challengeScript.length (keyedOutput mBlockData (w.output p)) ↔
      ¬ PatternAtEnd (fun i => mBlockData (w.scriptPlace p + i)) w.challengeScript.length := by
  have hlength : (w.output p).challengeScriptLength.toNat = w.challengeScript.length :=
    w.script_length.symm
  by_cases hne : w.challengeScript = []
  · have hlocated := locatedOutput_empty mBlockData w p hne
    rw [keyedOutput_builtIn (by rw [hlocated]; rfl), hlocated, hlength]
    exact scanFinds_none (by rw [hne]; rfl)
  · have hlocated := locatedOutput_wire mBlockData w p hne
    rw [locateKeys_scan htemplate (hlast hne)] at hlocated
    cases hscan : patternScan (fun i => mBlockData (w.scriptPlace p + i))
        (w.challengeScript.length - 25) 0 with
    | none =>
      rw [hscan, Option.elim_none] at hlocated
      rw [keyedOutput_builtIn (by rw [hlocated]; rfl), hlocated, hlength]
      exact scanFinds_none hscan
    | some j =>
      rw [hscan, Option.elim_some] at hlocated
      rw [keyedOutput_of_key hlocated (setKey_first _ _ _)]
      exact iff_of_true (scanFinds_some hscan) (not_patternAtEnd_of_scan hscan)

theorem decodeScript_scan {mBlockData : Memory} {w : OutputWire} {p : Nat}
    (h : Holds mBlockData p w.bytes)
    (htemplate : ¬ Template (scriptByte w.challengeScript) w.challengeScript.length)
    (hlast : w.challengeScript.getLast? ≠ some OP_CHECKMULTISIG) (stackByte : UInt8) :
    ScanFinds (scriptByte w.challengeScript) (w.scriptPlace p) w.challengeScript.length
        (decodeScript H mBlockData stackByte (w.output p)).output ↔
      ¬ PatternAtEnd (scriptByte w.challengeScript) w.challengeScript.length := by
  have hbytes := scriptByte_of_holds (w.holds_script h)
  have hsymm : ∀ i < w.challengeScript.length,
      scriptByte w.challengeScript i = mBlockData (w.scriptPlace p + i) :=
    fun i hi => (hbytes i hi).symm
  have hscan := keyedOutput_scan mBlockData w p
    (fun ht => htemplate (ht.congr hbytes)) (by
      intro hne hlastByte
      have hpos : 0 < w.challengeScript.length := List.length_pos_of_ne_nil hne
      rw [hbytes _ (by omega), scriptByte, List.getD_eq_getElem?_getD,
        List.getElem?_eq_getElem (by omega)] at hlastByte
      rw [List.getLast?_eq_getElem?, List.getElem?_eq_getElem (by omega)] at hlast
      exact hlast (congrArg some hlastByte))
  rw [ScanFinds.sameKeys (sameKeys_decodeScript H mBlockData stackByte (w.output p))]
  constructor
  · intro hfinds hend
    exact hscan.mp (hfinds.congr hsymm) (hend.congr hsymm)
  · intro hend
    exact (hscan.mpr fun hp => hend (hp.congr hbytes)).congr hbytes

/-- A script that no template fits gets the hash of its first pattern as its key, or
the built-in key when it has none, exactly when the first is not at its very end. -/
theorem the_first_pattern_is_found_exactly_before_the_end (s : ParseState) (k : Nat) (w : OutputWire)
    (h : Holds s.block.mBlockData s.block.mBlockRead w.bytes)
    (htemplate : ¬ Template (scriptByte w.challengeScript) w.challengeScript.length)
    (hlast : w.challengeScript.getLast? ≠ some OP_CHECKMULTISIG) :
    ∃ s', (readOutput H k).run s = .ok true s' ∧
      (ScanFinds (scriptByte w.challengeScript) (w.scriptPlace s.block.mBlockRead)
          w.challengeScript.length (s'.block.mOutputs k) ↔
        ¬ PatternAtEnd (scriptByte w.challengeScript) w.challengeScript.length) := by
  rcases readOutput_stores H k h with ⟨s', hrun, hstored⟩
  refine ⟨s', hrun, ?_⟩
  rw [hstored]
  exact decodeScript_scan H h htemplate hlast (s.stack 0)

/-- The pattern with 20 zeros for its hash. -/
def zeroPattern : List UInt8 :=
  [OP_DUP, OP_HASH160, 20] ++ List.replicate 20 0 ++ [OP_EQUALVERIFY, OP_CHECKSIG]

theorem not_template_of_first {script : List UInt8} (hlength : script.length = 27)
    (hfirst : scriptByte script 0 ≠ OP_DUP) : ¬ Template (scriptByte script) script.length := by
  intro h
  cases h with
  | pubKeyHash h25 dup => exact hfirst dup
  | _ => omega

/-- A byte before the pattern and one behind it. -/
def innerPatternOutput : OutputWire := shortOutput (OP_1 :: zeroPattern ++ [OP_1]) (by decide)

theorem an_inner_pattern_is_found :
    Holds (ParseState.ofBytes innerPatternOutput.bytes).block.mBlockData 0
        innerPatternOutput.bytes ∧
    ∃ s', (readOutput zeroHashes 0).run (ParseState.ofBytes innerPatternOutput.bytes) = .ok true s' ∧
      (ScanFinds (scriptByte (OP_1 :: zeroPattern ++ [OP_1])) (innerPatternOutput.scriptPlace 0) 27
          (s'.block.mOutputs 0) ↔
        ¬ PatternAtEnd (scriptByte (OP_1 :: zeroPattern ++ [OP_1])) 27) :=
  ⟨holds_overlay _ _, the_first_pattern_is_found_exactly_before_the_end zeroHashes _ 0
    innerPatternOutput (holds_overlay _ _) (not_template_of_first (by decide) (by decide))
    (by decide)⟩

/-- Two bytes before the pattern and none behind it. -/
def lastPatternOutput : OutputWire := shortOutput (OP_1 :: OP_1 :: zeroPattern) (by decide)

theorem a_pattern_at_the_end_is_not_found :
    ¬ Template (scriptByte (OP_1 :: OP_1 :: zeroPattern)) 27 ∧
    (OP_1 :: OP_1 :: zeroPattern).getLast? ≠ some OP_CHECKMULTISIG ∧
    ∃ s', (readOutput zeroHashes 0).run (ParseState.ofBytes lastPatternOutput.bytes) = .ok true s' ∧
      ¬ ScanFinds (scriptByte (OP_1 :: OP_1 :: zeroPattern)) (lastPatternOutput.scriptPlace 0) 27
        (s'.block.mOutputs 0) := by
  have h : Holds (ParseState.ofBytes lastPatternOutput.bytes).block.mBlockData 0
      lastPatternOutput.bytes := holds_overlay _ _
  have htemplate : ¬ Template (scriptByte (OP_1 :: OP_1 :: zeroPattern)) 27 :=
    not_template_of_first (by decide) (by decide)
  have hlast : (OP_1 :: OP_1 :: zeroPattern).getLast? ≠ some OP_CHECKMULTISIG := by decide
  have hend : PatternAtEnd (scriptByte (OP_1 :: OP_1 :: zeroPattern)) 27 :=
    ⟨2, rfl, by decide, by unfold PatternAt; decide, by unfold PatternAt; decide⟩
  rcases readOutput_stores zeroHashes 0 h with ⟨s', hrun, hstored⟩
  refine ⟨htemplate, hlast, s', hrun, ?_⟩
  rw [hstored]
  exact fun hfinds => (decodeScript_scan zeroHashes h htemplate hlast _).mp hfinds hend

end bitcoinstats.block_chain
