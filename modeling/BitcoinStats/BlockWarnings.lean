-- The warnings that the parser issues on a block: they are those of the
-- versions and the output scripts of the block, and nothing else decides them.
import BitcoinStats.BlockOutcome

open byte_memory exec cursor bitcoinstats.bitcoin_address

namespace bitcoinstats.block_chain

/-! ## The bytes that decide about a script -/

theorem multisigLoop_congr {b b' : Memory} {scanEnd : Nat} (h : ∀ i < scanEnd, b i = b' i)
    (script left keyIndex scan : Nat) (output : BlockOutput) :
    multisigLoop b script scanEnd left keyIndex scan output =
      multisigLoop b' script scanEnd left keyIndex scan output := by
  induction left generalizing keyIndex scan output with
  | zero => rfl
  | succ left ih =>
    unfold multisigLoop
    by_cases hscan : scan < scanEnd
    · rw [if_pos hscan, if_pos hscan, h scan hscan, ih, ih]
    · rw [if_neg hscan, if_neg hscan]

theorem multisigKeys_congr {b b' : Memory} {length : Nat} (h : ∀ i < length, b i = b' i)
    (hlength : 25 < length) (script : Nat) (output : BlockOutput) :
    multisigKeys b script length output = multisigKeys b' script length output := by
  have hfirst : b 0 = b' 0 := h 0 (by omega)
  have hlast : b (length - 2) = b' (length - 2) := h _ (by omega)
  have hloop := multisigLoop_congr (fun i (hi : i < length - 2) => h i (by omega)) script 5 0 1 output
  unfold multisigKeys
  simp only [hfirst, hlast, hloop]

theorem patternScan_congr {b b' : Memory} (left i : Nat)
    (h : ∀ j < i + left + 24, b j = b' j) : patternScan b left i = patternScan b' left i := by
  induction left generalizing i with
  | zero => rfl
  | succ left ih =>
    unfold patternScan
    rw [h i (by omega), h (i + 1) (by omega), h (i + 2) (by omega), h (i + 23) (by omega),
      h (i + 24) (by omega), ih (i + 1) (fun j hj => h j (by omega))]

/-- The tests look at the bytes of the script alone. -/
theorem locateKeys_congr {b b' : Memory} {length : Nat} (h : ∀ i < length, b i = b' i)
    (hpos : 0 < length) (script : Nat) (output : BlockOutput) :
    locateKeys b script length output = locateKeys b' script length output := by
  have h67 : (length = 67 ∧ b 0 = 65 ∧ b 66 = OP_CHECKSIG) =
      (length = 67 ∧ b' 0 = 65 ∧ b' 66 = OP_CHECKSIG) :=
    propext (and_congr_right fun hl => by rw [h 0 (by omega), h 66 (by omega)])
  have h40 : (length = 40 ∧ b 0 = OP_RETURN) = (length = 40 ∧ b' 0 = OP_RETURN) :=
    propext (and_congr_right fun hl => by rw [h 0 (by omega)])
  have h66 : (length = 66 ∧ b 65 = OP_CHECKSIG) = (length = 66 ∧ b' 65 = OP_CHECKSIG) :=
    propext (and_congr_right fun hl => by rw [h 65 (by omega)])
  have h35 : (length = 35 ∧ b 34 = OP_CHECKSIG) = (length = 35 ∧ b' 34 = OP_CHECKSIG) :=
    propext (and_congr_right fun hl => by rw [h 34 (by omega)])
  have h33 : (length = 33 ∧ b 0 = 0x20) = (length = 33 ∧ b' 0 = 0x20) :=
    propext (and_congr_right fun hl => by rw [h 0 (by omega)])
  have h23 : (length = 23 ∧ b 0 = OP_HASH160 ∧ b 1 = 20 ∧ b 22 = OP_EQUAL) =
      (length = 23 ∧ b' 0 = OP_HASH160 ∧ b' 1 = 20 ∧ b' 22 = OP_EQUAL) :=
    propext (and_congr_right fun hl => by
      rw [h 0 (by omega), h 1 (by omega), h 22 (by omega)])
  have h25 : (25 ≤ length ∧ b 0 = OP_DUP ∧ b 1 = OP_HASH160 ∧ b 2 = 20) =
      (25 ≤ length ∧ b' 0 = OP_DUP ∧ b' 1 = OP_HASH160 ∧ b' 2 = 20) :=
    propext (and_congr_right fun hl => by rw [h 0 (by omega), h 1 (by omega), h 2 (by omega)])
  have h5 : (length = 5 ∧ b 0 = OP_DUP ∧ b 1 = OP_HASH160 ∧ b 2 = OP_0 ∧ b 3 = OP_EQUALVERIFY ∧
        b 4 = OP_CHECKSIG) =
      (length = 5 ∧ b' 0 = OP_DUP ∧ b' 1 = OP_HASH160 ∧ b' 2 = OP_0 ∧ b' 3 = OP_EQUALVERIFY ∧
        b' 4 = OP_CHECKSIG) :=
    propext (and_congr_right fun hl => by
      rw [h 0 (by omega), h 1 (by omega), h 2 (by omega), h 3 (by omega), h 4 (by omega)])
  have hlast : b (length - 1) = b' (length - 1) := h _ (by omega)
  unfold locateKeys
  simp only [h67, h40, h66, h35, h33, h23, h25, h5, hlast]
  refine ite_congr rfl (fun _ => rfl) fun _ => ?_
  refine ite_congr rfl (fun _ => rfl) fun _ => ?_
  refine ite_congr rfl (fun _ => rfl) fun _ => ?_
  refine ite_congr rfl (fun _ => rfl) fun _ => ?_
  refine ite_congr rfl (fun _ => rfl) fun _ => ?_
  refine ite_congr rfl (fun _ => rfl) fun _ => ?_
  refine ite_congr rfl (fun _ => rfl) fun _ => ?_
  refine ite_congr rfl ?_ fun _ => ?_
  · rintro ⟨-, hlong⟩
    simp only [multisigKeys_congr h hlong]
  · refine ite_congr rfl ?_ fun _ => rfl
    intro hlong
    rw [patternScan_congr (length - 25) 0 (fun j hj => h j (by omega))]

/-! ## The warnings of a block -/

variable (H : Hashes)

/-- The decoding of the output issues a warning. -/
def outputWarns (mBlockData : Memory) (output : BlockOutput) : Bool :=
  match output.challengeScript with
  | some script =>
    let located := locateKeys (fun i => mBlockData (script + i)) script
      output.challengeScriptLength.toNat output
    located.2 || (getElem located.1.publicKey 0 first_lt_five).isNone
  | none => true

/-- One of the outputs that follow each other from `p` on. -/
def outputsWarn (mBlockData : Memory) : Nat → List OutputWire → Bool
  | _, [] => false
  | p, w :: ws =>
    outputWarns mBlockData (w.output p) || outputsWarn mBlockData (p + w.bytes.length) ws

def transactionWarns (mBlockData : Memory) (p : Nat) (w : TransactionWire) : Bool :=
  !(w.transactionVersionNumber = 1 ∨ w.transactionVersionNumber = 2) ||
    outputsWarn mBlockData (w.outputsStart p) w.outputs

/-- One of the transactions that follow each other from `p` on. -/
def transactionsWarn (mBlockData : Memory) : Nat → List TransactionWire → Bool
  | _, [] => false
  | p, w :: ws =>
    transactionWarns mBlockData p w || transactionsWarn mBlockData (p + w.bytes.length) ws

/-- Whether there is a warning has nothing to do with the stack. -/
theorem decodeScript_warns (mBlockData : Memory) (stackByte : UInt8) (output : BlockOutput) :
    ((decodeScript H mBlockData stackByte output).isWarning ||
      (decodeScript H mBlockData stackByte output).reportTransactionHash) =
        outputWarns mBlockData output := by
  unfold decodeScript outputWarns
  cases hscript : output.challengeScript with
  | none => simp [hscript]
  | some script =>
    have hsame := (sameScript_locateKeys (fun i => mBlockData (script + i)) script
      output.challengeScriptLength.toNat output).challengeScript
    dsimp only
    generalize locateKeys (fun i => mBlockData (script + i)) script
      output.challengeScriptLength.toNat output = located at hsame ⊢
    rw [hsame, hscript]
    cases located.2 with
    | true => rfl
    | false => simp

/-! ## The flags behind the parser -/

/-- A zero-length output has also raised the warning. -/
def Reported (s : ParseState) : Prop := s.gReportTransactionHash = true → s.gIsWarning = true

/-- The warning is the one from before or a new one. -/
structure Warned (s s' : ParseState) (warns : Bool) : Prop where
  gIsWarning : s'.gIsWarning = (s.gIsWarning || warns)
  reported : Reported s'

theorem storeOutput_warned (s : ParseState) (k : Nat) (output : BlockOutput) (hs : Reported s) :
    Warned s (s.storeOutput H k output) (outputWarns s.block.mBlockData output) := by
  have hwarns := decodeScript_warns H s.block.mBlockData (s.stack 0) output
  obtain ⟨d, hd⟩ : ∃ d, d = decodeScript H s.block.mBlockData (s.stack 0) output := ⟨_, rfl⟩
  rw [← hd] at hwarns
  have hflag : (s.storeOutput H k output).gIsWarning =
      (s.gIsWarning || d.isWarning || (s.gReportTransactionHash || d.reportTransactionHash)) := by
    rw [hd]
    rfl
  have hreport : (s.storeOutput H k output).gReportTransactionHash =
      (s.gReportTransactionHash || d.reportTransactionHash) := by
    rw [hd]
    rfl
  constructor
  · rw [hflag, ← hwarns]
    cases hold : s.gReportTransactionHash with
    | true => simp [hs hold]
    | false => simp [Bool.or_assoc]
  · intro h
    rw [hreport] at h
    rw [hflag, h, Bool.or_true]

theorem outputsChange_warned (k p : Nat) (ws : List OutputWire) (s : ParseState) (hs : Reported s) :
    Warned s ((outputsChange H k p ws).apply s) (outputsWarn s.block.mBlockData p ws) := by
  induction ws generalizing k p s with
  | nil => exact ⟨(Bool.or_false _).symm, hs⟩
  | cons w ws ih =>
    have hstore := storeOutput_warned H (s.addReward w.value) k (w.output p) hs
    have hfirst : Warned s ((outputChange H k p w).apply s)
        (outputWarns s.block.mBlockData (w.output p)) := ⟨hstore.gIsWarning, hstore.reported⟩
    have hrest := ih (k + 1) (p + w.bytes.length) ((outputChange H k p w).apply s) hfirst.reported
    refine ⟨?_, hrest.reported⟩
    have hflag := hrest.gIsWarning
    rw [hfirst.gIsWarning, apply_mBlockData, Bool.or_assoc] at hflag
    exact hflag

/-- The two flags. -/
def ParseState.flags (s : ParseState) : Bool × Bool := (s.gIsWarning, s.gReportTransactionHash)

theorem inputsChange_flags (k p : Nat) (ws : List InputWire) (s : ParseState) :
    ((inputsChange k p ws).apply s).flags = s.flags :=
  changeEach_keeps _ _ ParseState.flags (fun _ _ _ _ => rfl) k p ws s

theorem inputCountChange_flags (k : Nat) (count : UInt32) (s : ParseState) :
    ((inputCountChange k count).apply s).flags = s.flags := rfl

theorem outputCountChange_flags (k : Nat) (count : UInt32) (s : ParseState) :
    ((outputCountChange k count).apply s).flags = s.flags := rfl

theorem versionChange_flags (k : Nat) (version : UInt32) (s : ParseState) :
    ((versionChange k version).apply s).flags =
      (s.gIsWarning || !(version = 1 ∨ version = 2), s.gReportTransactionHash) := by
  have hflags : ((versionChange k version).apply s).flags =
    (if version = 1 ∨ version = 2 then s.gIsWarning else true, s.gReportTransactionHash) := rfl
  rw [hflags]
  by_cases hversion : version = 1 ∨ version = 2
  · simp [hversion]
  · simp [hversion]

/-- A transaction that is read through leaves no report behind. -/
theorem transactionChange_flags (k p : Nat) (tin tout : UInt32) (w : TransactionWire)
    (s : ParseState) (hs : s.gReportTransactionHash = false) :
    ((transactionChange H k p tin tout w).apply s).flags =
      (s.gIsWarning || transactionWarns s.block.mBlockData p w, false) := by
  -- the state before the outputs, of which the version alone can have changed the warning
  obtain ⟨s1, hs1⟩ : ∃ s1, s1 = (outputCountChange k w.outputCount.value).apply
    ((headChange k (w.inputsStart p) tin w.transactionVersionNumber w.inputCount w.inputs).apply s) :=
      ⟨_, rfl⟩
  have hdata : s1.block.mBlockData = s.block.mBlockData := by
    rw [hs1, apply_mBlockData, apply_mBlockData]
  have hflags : s1.flags = (s.gIsWarning || !(w.transactionVersionNumber = 1 ∨
      w.transactionVersionNumber = 2), s.gReportTransactionHash) := by
    rw [hs1, outputCountChange_flags]
    unfold headChange
    rw [Change.andThen_apply, Change.andThen_apply, inputsChange_flags, inputCountChange_flags,
      versionChange_flags]
  obtain ⟨hwarning, hreport⟩ := Prod.mk.inj hflags
  have houtputs := outputsChange_warned H tout.toNat (w.outputsStart p) w.outputs s1
    (fun h => by rw [hreport, hs] at h; cases h)
  have hlast : ((transactionChange H k p tin tout w).apply s).flags =
      (((outputsChange H tout.toNat (w.outputsStart p) w.outputs).apply s1).gIsWarning, false) := by
    rw [hs1]
    rfl
  rw [hlast, houtputs.gIsWarning, hdata, hwarning, Bool.or_assoc]
  rfl

theorem transactionsChange_flags (k p : Nat) (tin tout : UInt32) (ws : List TransactionWire)
    (s : ParseState) (hs : s.gReportTransactionHash = false) :
    ((transactionsChange H k p tin tout ws).apply s).flags =
      (s.gIsWarning || transactionsWarn s.block.mBlockData p ws, false) := by
  induction ws generalizing k p tin tout s with
  | nil =>
    have hflags : ((transactionsChange H k p tin tout []).apply s).flags =
      (s.gIsWarning, s.gReportTransactionHash) := rfl
    rw [hflags, hs]
    exact congrArg (·, false) (Bool.or_false _).symm
  | cons w ws ih =>
    obtain ⟨hwarning, hreport⟩ := Prod.mk.inj (transactionChange_flags H k p tin tout w s hs)
    have hrest := ih (k + 1) (p + w.bytes.length) (tin + w.inputCount.value)
      (tout + w.outputCount.value) ((transactionChange H k p tin tout w).apply s) hreport
    rw [hwarning, apply_mBlockData, Bool.or_assoc] at hrest
    exact hrest

/-! ## The bytes that decide about a block -/

theorem outputWarns_congr {mem mem' : Memory} {p : Nat} {w : OutputWire} (h : Holds mem p w.bytes)
    (h' : Holds mem' p w.bytes) : outputWarns mem (w.output p) = outputWarns mem' (w.output p) := by
  unfold outputWarns OutputWire.output scriptAt
  by_cases hzero : w.challengeScriptLength.value ≠ 0
  · rw [if_pos hzero]
    have hpos : 0 < w.challengeScriptLength.value.toNat := by
      rw [Nat.pos_iff_ne_zero]
      exact fun h0 => hzero (UInt32.toNat_inj.mp h0)
    have hsame : ∀ i < w.challengeScriptLength.value.toNat,
        mem (p + 8 + w.challengeScriptLength.bytes.length + i) =
          mem' (p + 8 + w.challengeScriptLength.bytes.length + i) := by
      intro i hi
      simp only [OutputWire.bytes, holds_append, leBytes_length] at h h'
      rw [holds_iff.mp h.2.2 i (by rw [w.script_length]; exact hi),
        holds_iff.mp h'.2.2 i (by rw [w.script_length]; exact hi)]
    dsimp only
    rw [locateKeys_congr hsame hpos]
  · rw [if_neg hzero]

theorem outputsWarn_congr {mem mem' : Memory} {p : Nat} {ws : List OutputWire}
    (h : Holds mem p (ws.flatMap OutputWire.bytes)) (h' : Holds mem' p (ws.flatMap OutputWire.bytes)) :
    outputsWarn mem p ws = outputsWarn mem' p ws := by
  induction ws generalizing p with
  | nil => rfl
  | cons w ws ih =>
    rw [List.flatMap_cons, holds_append] at h h'
    unfold outputsWarn
    rw [outputWarns_congr h.1 h'.1, ih h.2 h'.2]

theorem transactionWarns_congr {mem mem' : Memory} {p : Nat} {w : TransactionWire}
    (h : Holds mem p w.bytes) (h' : Holds mem' p w.bytes) :
    transactionWarns mem p w = transactionWarns mem' p w := by
  have houtputs : ∀ m, Holds m p w.bytes →
      Holds m (w.outputsStart p) (w.outputs.flatMap OutputWire.bytes) := by
    intro m hm
    simp only [TransactionWire.bytes, holds_append, leBytes_length] at hm
    exact hm.2.2.2.2.1
  unfold transactionWarns
  rw [outputsWarn_congr (houtputs mem h) (houtputs mem' h')]

theorem transactionsWarn_congr {mem mem' : Memory} {p : Nat} {ws : List TransactionWire}
    (h : Holds mem p (ws.flatMap TransactionWire.bytes))
    (h' : Holds mem' p (ws.flatMap TransactionWire.bytes)) :
    transactionsWarn mem p ws = transactionsWarn mem' p ws := by
  induction ws generalizing p with
  | nil => rfl
  | cons w ws ih =>
    rw [List.flatMap_cons, holds_append] at h h'
    unfold transactionsWarn
    rw [transactionWarns_congr h.1 h'.1, ih h.2 h'.2]

/-! ## Whole blocks -/

/-- Where the transactions of a block at the start of its data are. -/
def WholeBlock.transactionsStart (w : WholeBlock) : Nat := 80 + w.transactionCount.bytes.length

theorem WholeBlock.holds_transactions {w : WholeBlock} {mem : Memory} (h : Holds mem 0 w.bytes) :
    Holds mem w.transactionsStart (w.transactions.flatMap TransactionWire.bytes) := by
  have hbody := ((holds_append _ _ _ _).mp h).2
  rwa [List.length_append, w.header.bytes_length, Nat.zero_add] at hbody

/-- The flags behind a block whose first byte is at the cursor. -/
theorem WholeBlock.run_flags (w : WholeBlock) {s s' : ParseState} {ret : Bool}
    (hread : s.block.mBlockRead = 0) (hin : s.block.totalInputCount = 0)
    (hout : s.block.totalOutputCount = 0) (hreport : s.gReportTransactionHash = false)
    (hs : Sees s w.bytes) (hrun : (readBlockData H).run s = .ok ret s') :
    s'.flags =
      (s.gIsWarning || transactionsWarn s.block.mBlockData w.transactionsStart w.transactions,
        false) := by
  have hfit : TransactionsFit s.block.totalInputCount s.block.totalOutputCount w.transactions := by
    rw [hin, hout]
    exact w.fit
  obtain ⟨rs, hok⟩ := readBlockData_reads H w.header w.transactionCount w.reasonable w.length_eq hfit hs
  rw [hrun] at hok
  obtain ⟨-, rfl⟩ := EStateM.Result.ok.inj hok
  rw [hread, Nat.zero_add]
  exact transactionsChange_flags H 0 w.transactionsStart s.block.totalInputCount
    s.block.totalOutputCount w.transactions _ hreport

/-- A block that is turned down leaves no report behind either. -/
theorem RejectedBlock.run_report (w : RejectedBlock) {s s' : ParseState} {ret : Bool}
    (hin : s.block.totalInputCount = 0) (hout : s.block.totalOutputCount = 0)
    (hreport : s.gReportTransactionHash = false) (hs : Sees s w.bytes)
    (hrun : (readBlockData H).run s = .ok ret s') : s'.gReportTransactionHash = false := by
  obtain ⟨rs, hok⟩ := w.reads H hin hout hs
  rw [hrun] at hok
  obtain ⟨-, rfl⟩ := EStateM.Result.ok.inj hok
  have hflags := transactionsChange_flags H 0
    (s.block.mBlockRead + 80 + w.transactionCount.bytes.length) 0 0 w.transactions
    ((headerChange s.block.mBlockRead w.header w.transactionCount.value).apply
      (moved s w.bytes.length rs)) hreport
  exact (Prod.mk.inj hflags).2

end bitcoinstats.block_chain
