-- Which bytes the parser reads. It never looks at `mBlockEnd`, so it stays
-- inside the block exactly when the block begins with all that it consumes.
import BitcoinStats.WireReader
import BitcoinStats.ParserRules

open byte_memory exec cursor bitcoinstats.bitcoin_address

namespace bitcoinstats.block_chain

/-! ## The ranges that are read -/

/-- The ranges on record end at the cursor or before it, and the last one ends
right at it. -/
structure Recorded (s : ParseState) : Prop where
  behind : ∀ w ∈ s.windows, w.1 + w.2 ≤ s.block.mBlockRead
  last : 0 < s.block.mBlockRead → ∃ w ∈ s.windows, w.1 + w.2 = s.block.mBlockRead

theorem recorded_advance (s : ParseState) (n : Nat) (h : Recorded s) : Recorded (s.advance n) := by
  refine ⟨?_, fun _ => ⟨(s.block.mBlockRead, n), by simp [ParseState.advance], rfl⟩⟩
  intro w hw
  simp only [ParseState.advance, List.mem_append, List.mem_singleton] at hw ⊢
  rcases hw with hold | hnew
  · have := h.behind w hold
    omega
  · rw [hnew]

variable (H : Hashes)

/-- Only the read functions touch what is on record. -/
theorem recorded_invariant : InvariantOfParser H Recorded where
  advance := recorded_advance
  addReward _ _ h := ⟨h.behind, h.last⟩
  storeInput _ _ _ h := ⟨h.behind, h.last⟩
  storeOutput _ _ _ h := ⟨h.behind, h.last⟩
  setVersion _ _ _ h := ⟨h.behind, h.last⟩
  setInputs _ _ _ h := ⟨h.behind, h.last⟩
  setOutputs _ _ _ h := ⟨h.behind, h.last⟩
  finishTransaction _ _ _ _ _ h := ⟨h.behind, h.last⟩
  setHeader _ _ _ _ _ _ _ _ h := ⟨h.behind, h.last⟩

/-! ## The bounds of the block -/

/-- The run over `bytes`, with `beyond` in the memory behind them, and the
ranges on record are those of this run. -/
def parseRun (s : ParseState) (bytes : List UInt8) (beyond : Memory) :
    EStateM.Result Shutdown ParseState Bool :=
  (processBlockData H (overlay bytes beyond) (UInt32.ofNat bytes.length)).run
    { s with windows := [] }

/-- The bytes end before the block does that starts with them. -/
def Overruns (s : ParseState) (bytes : List UInt8) : Prop :=
  ¬ ∃ block rest, BlockWire s.block.totalInputCount s.block.totalOutputCount block ∧
    bytes = block ++ rest

/-- Everything that the parser reads or stores is in the block, and a block
that is cut short is turned down. -/
structure StaysInside (s : ParseState) (bytes : List UInt8) (beyond : Memory) : Prop where
  ranges : ∀ w ∈ (finalState (parseRun H s bytes beyond)).windows, w.1 + w.2 ≤ bytes.length
  failure : Overruns s bytes → Rejects (parseRun H s bytes beyond)

theorem BlockWire.length_pos {tin tout : UInt32} {bytes : List UInt8}
    (h : BlockWire tin tout bytes) : 0 < bytes.length := by
  cases h with
  | tooManyTransactions header count bad =>
    rw [List.length_append, header.bytes_length]
    omega
  | transactions header count fits body =>
    rw [List.length_append, header.bytes_length]
    omega

/-- The cursor ends behind the block that the memory holds. -/
theorem parseRun_mBlockRead {s : ParseState} {bytes block : List UInt8} {beyond : Memory}
    (hblock : BlockWire s.block.totalInputCount s.block.totalOutputCount block)
    (hholds : Holds (overlay bytes beyond) 0 block) :
    (finalState (parseRun H s bytes beyond)).block.mBlockRead = block.length := by
  have h := (readBlockData_ends H (s := ({ s with windows := [] } : ParseState).setBlockData
    (overlay bytes beyond) (UInt32.ofNat bytes.length)) hblock hholds).2
  exact h.trans (Nat.zero_add _)

theorem parseRun_recorded (s : ParseState) (bytes : List UInt8) (beyond : Memory) :
    Recorded (finalState (parseRun H s bytes beyond)) :=
  (recorded_invariant H).keeps _ ⟨by simp [ParseState.setBlockData], by simp [ParseState.setBlockData]⟩

/-- The parser stays inside the block exactly when the block does not end
before what the parser consumes. -/
theorem the_parser_stays_inside_exactly_without_an_overrun (s : ParseState) (bytes : List UInt8)
    (beyond : Memory) (hlen : bytes.length < MAX_BLOCK_SIZE.toNat) :
    StaysInside H s bytes beyond ↔
      ∃ block rest, BlockWire s.block.totalInputCount s.block.totalOutputCount block ∧
        bytes = block ++ rest := by
  have hrec := parseRun_recorded H s bytes beyond
  have hbytes := holds_overlay bytes beyond
  constructor
  · intro hinside
    obtain ⟨block, hblock, hholds⟩ := exists_blockWire (overlay bytes beyond) 0
      s.block.totalInputCount s.block.totalOutputCount
    have hend := parseRun_mBlockRead H hblock hholds
    obtain ⟨w, hw, hlast⟩ := hrec.last (by rw [hend]; exact hblock.length_pos)
    have hle := hinside.ranges w hw
    rw [hlast, hend] at hle
    obtain ⟨rest, hrest⟩ := hholds.isPrefix hbytes hle
    exact ⟨block, rest, hblock, hrest.symm⟩
  · rintro ⟨block, rest, hblock, rfl⟩
    have hend := parseRun_mBlockRead H hblock ((holds_append _ _ _ _).mp hbytes).1
    refine ⟨?_, fun h => absurd ⟨block, rest, hblock, rfl⟩ h⟩
    intro w hw
    have := hrec.behind w hw
    rw [hend] at this
    rw [List.length_append]
    omega

/-- A header of zeros and the count 0 are a whole block. -/
theorem the_parser_stays_inside_a_block_of_81_zeros :
    StaysInside default default (List.replicate 81 0) (fun _ => 0) := by
  refine (the_parser_stays_inside_exactly_without_an_overrun default default
    (List.replicate 81 0) (fun _ => 0) (by decide)).mpr ⟨List.replicate 81 0, [], ?_, by simp⟩
  exact BlockWire.transactions ⟨0, Vector.replicate 32 0, Vector.replicate 32 0, 0, 0, 0⟩
    (.oneByte 0 (by decide)) (by decide) (.done _ _)

/-- A header without a count. The count is read from behind the block. -/
theorem a_header_alone_is_read_past_its_end :
    ¬ ∀ (H : Hashes) (s : ParseState) (bytes : List UInt8) (beyond : Memory),
      bytes.length < MAX_BLOCK_SIZE.toNat → StaysInside H s bytes beyond := by
  intro h
  have hinside := h default default (List.replicate 80 0) (fun _ => 0) (by decide)
  have hpast := hinside.ranges (80, 1) (by decide)
  exact absurd hpast (by decide)

end bitcoinstats.block_chain
