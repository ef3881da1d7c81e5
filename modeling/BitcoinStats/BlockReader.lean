-- The functions of `BlockImpl` that read from the cursor `mBlockRead`. The
-- asserts on `mBlockEnd` are compiled out, as in the Release configuration.
import BitcoinStats.BlockChainTypes
import BitcoinStats.Library.Cursor

open byte_memory exec cursor

namespace bitcoinstats.block_chain

/-- The cursor moves over `n` bytes, and their range is on record. -/
def ParseState.advance (s : ParseState) (n : Nat) : ParseState :=
  { s with
    block.mBlockRead := s.block.mBlockRead + n
    windows := s.windows ++ [(s.block.mBlockRead, n)] }

/-- The number that the `n` bytes at the cursor spell. -/
def ParseState.peek (s : ParseState) (n : Nat) : Nat :=
  readLe s.block.mBlockData s.block.mBlockRead n

def readU8 : Parser UInt8 := modifyGet fun s => (UInt8.ofNat (s.peek 1), s.advance 1)

def readU16 : Parser UInt16 := modifyGet fun s => (UInt16.ofNat (s.peek 2), s.advance 2)

def readU32 : Parser UInt32 := modifyGet fun s => (UInt32.ofNat (s.peek 4), s.advance 4)

def readU64 : Parser UInt64 := modifyGet fun s => (UInt64.ofNat (s.peek 8), s.advance 8)

/-- The pointer to the 32 bytes of a hash. -/
def readHash : Parser Nat := modifyGet fun s => (s.block.mBlockRead, s.advance 32)

def readVariableLengthInteger : Parser UInt32 := do
  let v ← readU8
  if v < 0xFD then return v.toUInt32
  else
    let v ← readU16
    if v < 0xFFFF then return v.toUInt32
    else
      let v ← readU32
      if v < 0xFFFFFFFF then return v
      else
        let v ← readU64
        return v.toUInt32

def getReadBufferAdvance (readLength : UInt32) : Parser Nat :=
  modifyGet fun s => (s.block.mBlockRead, s.advance readLength.toNat)

/-- `if (p) { logMessage(...); exit(1); }` -/
def exitIf (p : Prop) [Decidable p] (reason : Shutdown) : Parser PUnit :=
  if p then throw reason else return ⟨⟩

/-! ## The cursor of the block -/

instance : Cursor ParseState where
  position s := s.block.mBlockRead
  memory s := s.block.mBlockData
  ranges s := s.windows
  moved s n ws :=
    { s with block.mBlockRead := s.block.mBlockRead + n, windows := s.windows ++ ws }
  position_moved _ _ _ := rfl
  memory_moved _ _ _ := rfl
  ranges_moved _ _ _ := rfl
  moved_zero s := by simp
  moved_moved s m n ws vs := by simp [Nat.add_assoc]

theorem position_eq (s : ParseState) : position s = s.block.mBlockRead := rfl

theorem memory_eq (s : ParseState) : memory s = s.block.mBlockData := rfl

@[simp] theorem apply_mBlockRead (g : Change ParseState) (s : ParseState) :
    (g.apply s).block.mBlockRead = s.block.mBlockRead := g.position s

@[simp] theorem apply_mBlockData (g : Change ParseState) (s : ParseState) :
    (g.apply s).block.mBlockData = s.block.mBlockData := g.memory s

@[simp] theorem moved_mBlockRead (s : ParseState) (n : Nat) (ws : List (Nat × Nat)) :
    (moved s n ws).block.mBlockRead = s.block.mBlockRead + n := rfl

@[simp] theorem moved_totalInputCount (s : ParseState) (n : Nat) (ws : List (Nat × Nat)) :
    (moved s n ws).block.totalInputCount = s.block.totalInputCount := rfl

@[simp] theorem moved_totalOutputCount (s : ParseState) (n : Nat) (ws : List (Nat × Nat)) :
    (moved s n ws).block.totalOutputCount = s.block.totalOutputCount := rfl

/-- A state at the start of a block data that begins with `bytes`. -/
def ParseState.ofBytes (bytes : List UInt8) : ParseState :=
  { (default : ParseState) with
    block.mBlockData := overlay bytes (fun _ => 0)
    block.mBlockRead := 0 }

/-! ## The runs of the read functions -/

section Reads

variable {s : ParseState} {α : Type}

theorem reads_of_peek {n k : Nat} {f : Nat → α} {x : Parser α}
    (hx : x.run s = .ok (f (s.peek k)) (s.advance k)) (hn : n < 256 ^ k) :
    Reads s x (leBytes k n) (f n) Change.none := by
  intro hs
  refine ⟨[(s.block.mBlockRead, k)], ?_⟩
  have hv : s.peek k = n := readLe_of_holds hs hn
  rw [hx, hv, leBytes_length]
  rfl

theorem readU8_reads (v : UInt8) : Reads s readU8 [v] v Change.none := by
  have h : Reads s readU8 (leBytes 1 v.toNat) (UInt8.ofNat v.toNat) Change.none :=
    reads_of_peek rfl v.toNat_lt
  have hv : leBytes 1 v.toNat = [v] := by
    have := v.toNat_lt
    simp [leBytes]
  rwa [hv, UInt8.ofNat_toNat] at h

theorem readU16_reads (v : UInt16) : Reads s readU16 (leBytes 2 v.toNat) v Change.none := by
  have h : Reads s readU16 (leBytes 2 v.toNat) (UInt16.ofNat v.toNat) Change.none :=
    reads_of_peek rfl v.toNat_lt
  rwa [UInt16.ofNat_toNat] at h

theorem readU32_reads (v : UInt32) : Reads s readU32 (leBytes 4 v.toNat) v Change.none := by
  have h : Reads s readU32 (leBytes 4 v.toNat) (UInt32.ofNat v.toNat) Change.none :=
    reads_of_peek rfl v.toNat_lt
  rwa [UInt32.ofNat_toNat] at h

theorem readU64_reads (v : UInt64) : Reads s readU64 (leBytes 8 v.toNat) v Change.none := by
  have h : Reads s readU64 (leBytes 8 v.toNat) (UInt64.ofNat v.toNat) Change.none :=
    reads_of_peek rfl v.toNat_lt
  rwa [UInt64.ofNat_toNat] at h

theorem readHash_reads {bytes : List UInt8} {p : Nat} (h : bytes.length = 32)
    (hp : s.block.mBlockRead = p) : Reads s readHash bytes p Change.none := by
  intro _
  refine ⟨[(s.block.mBlockRead, 32)], ?_⟩
  rw [h, ← hp]
  rfl

theorem getReadBufferAdvance_reads {n : UInt32} {bytes : List UInt8} {p : Nat}
    (h : bytes.length = n.toNat) (hp : s.block.mBlockRead = p) :
    Reads s (getReadBufferAdvance n) bytes p Change.none := by
  intro _
  refine ⟨[(s.block.mBlockRead, n.toNat)], ?_⟩
  rw [h, ← hp]
  rfl

theorem exitIf_run {p : Prop} [Decidable p] {reason : Shutdown} (h : ¬p) :
    (exitIf p reason).run s = .ok ⟨⟩ s := by
  rw [exitIf, if_neg h]
  rfl

/-- A check that lets the program go on. -/
theorem reads_exitIf_bind {p : Prop} [Decidable p] {reason : Shutdown} {f : PUnit → Parser α}
    {bytes : List UInt8} {a : α} {g : Change ParseState} (h : ¬p) (hf : Reads s (f ⟨⟩) bytes a g) :
    Reads s (exitIf p reason >>= f) bytes a g := Reads.of_run (exitIf_run h) hf

theorem ends_exitIf {p : Prop} [Decidable p] {reason : Shutdown} (h : p) :
    Ends s (exitIf p reason) [] IsError := by
  rw [exitIf, if_pos h]
  exact ends_throw reason

theorem ends_exitIf_bind {p : Prop} [Decidable p] {reason : Shutdown} {f : PUnit → Parser α}
    {bytes : List UInt8} {Q : EStateM.Result Shutdown ParseState α → Prop} (h : ¬p)
    (hf : Ends s (f ⟨⟩) bytes Q) : Ends s (exitIf p reason >>= f) bytes Q :=
  Ends.of_run (exitIf_run h) hf

end Reads

end bitcoinstats.block_chain
