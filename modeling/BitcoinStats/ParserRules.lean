-- The rule of the parser: a relation of states that each of its small steps
-- keeps is kept by all of it. What the parser keeps, and what it does alike in
-- two states, follows from the small steps alone.
import BitcoinStats.BlockParser

open byte_memory exec bitcoinstats.bitcoin_address

namespace bitcoinstats.block_chain

variable (H : Hashes)

/-- Related states look alike at the cursor, and the steps inside of a
transaction keep the relation. -/
structure KeptInTransaction (R : ParseState → ParseState → Prop) : Prop where
  peek : ∀ s s', R s s' → ∀ n, s.peek n = s'.peek n
  mBlockRead : ∀ s s', R s s' → s.block.mBlockRead = s'.block.mBlockRead
  totalInputCount : ∀ s s', R s s' → s.block.totalInputCount = s'.block.totalInputCount
  totalOutputCount : ∀ s s', R s s' → s.block.totalOutputCount = s'.block.totalOutputCount
  advance : ∀ s s' n, R s s' → R (s.advance n) (s'.advance n)
  addReward : ∀ s s' value, R s s' → R (s.addReward value) (s'.addReward value)
  storeInput : ∀ s s' k input, R s s' → R (s.storeInput k input) (s'.storeInput k input)
  storeOutput : ∀ s s' k output, R s s' → R (s.storeOutput H k output) (s'.storeOutput H k output)
  setVersion : ∀ s s' k version, R s s' → R (s.setVersion k version) (s'.setVersion k version)
  setInputs : ∀ s s' k count, R s s' → R (s.setInputs k count) (s'.setInputs k count)
  setOutputs : ∀ s s' k count, R s s' → R (s.setOutputs k count) (s'.setOutputs k count)

/-- All steps of the parser on a block keep the relation. -/
structure KeptByParser (R : ParseState → ParseState → Prop) : Prop extends
    KeptInTransaction H R where
  finishTransaction : ∀ s s' k transactionBegin transactionEnd lockTime, R s s' →
    R (s.finishTransaction H k transactionBegin transactionEnd lockTime)
      (s'.finishTransaction H k transactionBegin transactionEnd lockTime)
  setHeader : ∀ s s' version previous merkle time bits nonce count, R s s' →
    R (s.setHeader version previous merkle time bits nonce count)
      (s'.setHeader version previous merkle time bits nonce count)

variable {H} {R : ParseState → ParseState → Prop} {α : Type}

/-! ## Inside of a transaction -/

section Transaction

variable (h : KeptInTransaction H R)
include h

theorem related_read (n : Nat) {f : Nat → α} :
    Related R (modifyGet fun s => (f (s.peek n), s.advance n) : Parser α) := by
  refine related_modifyGet ?_ fun s s' hs => h.advance s s' n hs
  intro s s' hs
  rw [h.peek s s' hs]

theorem related_pointer (n : Nat) :
    Related R (modifyGet fun s => (s.block.mBlockRead, s.advance n) : Parser Nat) :=
  related_modifyGet h.mBlockRead fun s s' hs => h.advance s s' n hs

omit h in
theorem related_exitIf {p : Prop} [Decidable p] {reason : Shutdown} :
    Related R (exitIf p reason) := by
  unfold exitIf
  exact related_ite (related_throw _) (related_pure _)

theorem related_readVariableLengthInteger : Related R readVariableLengthInteger := by
  unfold readVariableLengthInteger
  refine related_bind (related_read h 1) fun _ => ?_
  refine related_ite (related_pure _) ?_
  refine related_bind (related_read h 2) fun _ => ?_
  refine related_ite (related_pure _) ?_
  refine related_bind (related_read h 4) fun _ => ?_
  refine related_ite (related_pure _) ?_
  exact related_bind (related_read h 8) fun _ => related_pure _

theorem related_readScript (length : UInt32) : Related R (readScript length) := by
  unfold readScript
  exact related_ite (related_bind (related_pointer h _) fun _ => related_pure _) (related_pure _)

theorem related_readInput (k : Nat) : Related R (readInput k) := by
  unfold readInput
  refine related_bind (related_pointer h 32) fun _ => ?_
  refine related_bind (related_read h 4) fun _ => ?_
  refine related_bind (related_readVariableLengthInteger h) fun _ => ?_
  refine related_bind related_exitIf fun _ => ?_
  refine related_bind (related_readScript h _) fun _ => ?_
  refine related_bind (related_read h 4) fun _ => ?_
  exact related_bind (related_modify fun s s' hs => h.storeInput s s' _ _ hs) fun _ =>
    related_pure _

omit h in
theorem related_readEach {read : Nat → Parser Bool} {failed : Shutdown}
    (h : ∀ k, Related R (read k)) (left k : Nat) (ret : Bool) :
    Related R (readEach read failed left k ret) := by
  induction left generalizing k ret with
  | zero => exact related_pure ret
  | succ left ih =>
    unfold readEach
    refine related_bind (h k) fun _ => ?_
    exact related_bind related_exitIf fun _ => ih _ _

theorem related_readOutput (k : Nat) : Related R (readOutput H k) := by
  unfold readOutput
  refine related_bind (related_read h 8) fun _ => ?_
  refine related_bind (related_modify fun s s' hs => h.addReward s s' _ hs) fun _ => ?_
  refine related_bind (related_readVariableLengthInteger h) fun _ => ?_
  refine related_bind related_exitIf fun _ => ?_
  refine related_bind (related_readScript h _) fun _ => ?_
  exact related_bind (related_modify fun s s' hs => h.storeOutput s s' _ _ hs) fun _ =>
    related_pure _

theorem related_readTransactionInputs (k : Nat) : Related R (readTransactionInputs k) := by
  unfold readTransactionInputs
  refine related_bind (related_read h 4) fun _ => ?_
  refine related_bind (related_modify fun s s' hs => h.setVersion s s' _ _ hs) fun _ => ?_
  refine related_bind (related_readVariableLengthInteger h) fun _ => ?_
  refine related_bind related_exitIf fun _ => ?_
  refine related_get_bind ?_ fun _ => ?_
  · intro s s' hs
    rw [h.totalInputCount s s' hs]
  refine related_bind (related_modify fun s s' hs => h.setInputs s s' _ _ hs) fun _ => ?_
  refine related_get_bind ?_ fun _ => ?_
  · intro s s' hs
    rw [h.totalInputCount s s' hs]
  refine related_bind related_exitIf fun _ => ?_
  exact related_readEach (related_readInput h) _ _ _

end Transaction

/-! ## The whole parser -/

section Parser

variable (h : KeptByParser H R)
include h

theorem related_readTransactionOutputs (k transactionBegin : Nat) :
    Related R (readTransactionOutputs H k transactionBegin) := by
  have hin := h.toKeptInTransaction
  unfold readTransactionOutputs
  refine related_bind (related_readVariableLengthInteger hin) fun _ => ?_
  refine related_bind related_exitIf fun _ => ?_
  refine related_get_bind ?_ fun _ => ?_
  · intro s s' hs
    rw [hin.totalOutputCount s s' hs]
  refine related_bind (related_modify fun s s' hs => hin.setOutputs s s' _ _ hs) fun _ => ?_
  refine related_get_bind ?_ fun _ => ?_
  · intro s s' hs
    rw [hin.totalOutputCount s s' hs]
  refine related_bind related_exitIf fun _ => ?_
  refine related_bind (related_readEach (related_readOutput hin) _ _ _) fun _ => ?_
  refine related_bind (related_read hin 4) fun _ => ?_
  refine related_get_bind ?_ fun _ => ?_
  · intro s s' hs
    rw [hin.mBlockRead s s' hs]
  exact related_bind (related_modify fun s s' hs => h.finishTransaction s s' _ _ _ _ hs) fun _ =>
    related_pure _

theorem related_readTransaction (k : Nat) : Related R (readTransaction H k) := by
  have hin := h.toKeptInTransaction
  unfold readTransaction
  refine related_get_bind ?_ fun _ => ?_
  · intro s s' hs
    rw [hin.mBlockRead s s' hs]
  refine related_bind (related_readTransactionInputs hin k) fun _ => ?_
  exact related_ite (related_readTransactionOutputs h k _) (related_pure _)

theorem related_readTransactions (left k : Nat) : Related R (readTransactions H left k) := by
  induction left generalizing k with
  | zero => exact related_pure true
  | succ left ih =>
    unfold readTransactions
    exact related_bind (related_readTransaction h k) fun _ => related_ite (ih _) (related_pure _)

theorem related_readHeaderFields : Related R readHeaderFields := by
  have hin := h.toKeptInTransaction
  unfold readHeaderFields
  refine related_bind (related_read hin 4) fun _ => ?_
  refine related_bind (related_pointer hin 32) fun _ => ?_
  refine related_bind (related_pointer hin 32) fun _ => ?_
  refine related_bind (related_read hin 4) fun _ => ?_
  refine related_bind (related_read hin 4) fun _ => ?_
  refine related_bind (related_read hin 4) fun _ => ?_
  refine related_bind (related_readVariableLengthInteger hin) fun _ => ?_
  exact related_bind (related_modify fun s s' hs => h.setHeader s s' _ _ _ _ _ _ _ hs) fun _ =>
    related_pure _

theorem related_readBlockData : Related R (readBlockData H) := by
  unfold readBlockData
  refine related_bind (related_readHeaderFields h) fun _ => ?_
  exact related_bind related_exitIf fun _ => related_readTransactions h _ _

end Parser

/-! ## Properties of one state -/

variable (H) in
/-- The steps of the parser keep the property. -/
structure InvariantInTransaction (I : ParseState → Prop) : Prop where
  advance : ∀ s n, I s → I (s.advance n)
  addReward : ∀ s value, I s → I (s.addReward value)
  storeInput : ∀ s k input, I s → I (s.storeInput k input)
  storeOutput : ∀ s k output, I s → I (s.storeOutput H k output)
  setVersion : ∀ s k version, I s → I (s.setVersion k version)
  setInputs : ∀ s k count, I s → I (s.setInputs k count)
  setOutputs : ∀ s k count, I s → I (s.setOutputs k count)

variable (H) in
structure InvariantOfParser (I : ParseState → Prop) : Prop extends InvariantInTransaction H I where
  finishTransaction : ∀ s k transactionBegin transactionEnd lockTime, I s →
    I (s.finishTransaction H k transactionBegin transactionEnd lockTime)
  setHeader : ∀ s version previous merkle time bits nonce count, I s →
    I (s.setHeader version previous merkle time bits nonce count)

variable {I : ParseState → Prop}

theorem InvariantInTransaction.kept (h : InvariantInTransaction H I) :
    KeptInTransaction H (fun s s' => s = s' ∧ I s) where
  peek := by rintro s _ ⟨rfl, -⟩ n; rfl
  mBlockRead := by rintro s _ ⟨rfl, -⟩; rfl
  totalInputCount := by rintro s _ ⟨rfl, -⟩; rfl
  totalOutputCount := by rintro s _ ⟨rfl, -⟩; rfl
  advance := by rintro s _ n ⟨rfl, hs⟩; exact ⟨rfl, h.advance s n hs⟩
  addReward := by rintro s _ v ⟨rfl, hs⟩; exact ⟨rfl, h.addReward s v hs⟩
  storeInput := by rintro s _ k i ⟨rfl, hs⟩; exact ⟨rfl, h.storeInput s k i hs⟩
  storeOutput := by rintro s _ k o ⟨rfl, hs⟩; exact ⟨rfl, h.storeOutput s k o hs⟩
  setVersion := by rintro s _ k v ⟨rfl, hs⟩; exact ⟨rfl, h.setVersion s k v hs⟩
  setInputs := by rintro s _ k c ⟨rfl, hs⟩; exact ⟨rfl, h.setInputs s k c hs⟩
  setOutputs := by rintro s _ k c ⟨rfl, hs⟩; exact ⟨rfl, h.setOutputs s k c hs⟩

theorem InvariantOfParser.kept (h : InvariantOfParser H I) :
    KeptByParser H (fun s s' => s = s' ∧ I s) where
  toKeptInTransaction := h.toInvariantInTransaction.kept
  finishTransaction := by
    rintro s _ k p q l ⟨rfl, hs⟩
    exact ⟨rfl, h.finishTransaction s k p q l hs⟩
  setHeader := by
    rintro s _ v p m t b n c ⟨rfl, hs⟩
    exact ⟨rfl, h.setHeader s v p m t b n c hs⟩

theorem InvariantOfParser.keeps (h : InvariantOfParser H I) : Keeps I (readBlockData H) :=
  keeps_of_related (related_readBlockData h.kept)

end bitcoinstats.block_chain
