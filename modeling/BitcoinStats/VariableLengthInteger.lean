-- The free function of varint.h, a second reader of the CompactSize of the
-- protocol. It tells the four widths apart as the block parser does, but reads
-- every width from the first byte on, the mark of the wider forms included.
import BitcoinStats.CompactSize

open byte_memory

namespace bitcoinstats.varint

open bitcoinstats.block_chain (compactSize compactSize_length)

/-! ## The format and its reader -/

/-- The CompactSize of the Bitcoin protocol, for every 64-bit number. -/
def compactSize64 (n : Nat) : List UInt8 :=
  if n ≤ 0xFFFFFFFF then compactSize n else 0xFF :: leBytes 8 n

theorem compactSize64_length (n : Nat) :
    (compactSize64 n).length =
      if n < 0xFD then 1 else if n ≤ 0xFFFF then 3 else if n ≤ 0xFFFFFFFF then 5 else 9 := by
  unfold compactSize64
  split
  · rw [compactSize_length]
  · rw [if_neg (by omega), if_neg (by omega)]
    simp

/-- The value, and the place right behind what was read. -/
def readVariableLengthInteger (mem : Memory) (data : Nat) : UInt64 × Nat :=
  let v8 := mem data
  if v8 < 0xFD then
    (v8.toUInt64, data + 1)
  else
    let v16 := UInt16.ofNat (readLe mem data 2)
    if v16 < 0xFFFF then
      (v16.toUInt64, data + 2)
    else
      let v32 := UInt32.ofNat (readLe mem data 4)
      if v32 < 0xFFFFFFFF then
        (v32.toUInt64, data + 4)
      else
        (UInt64.ofNat (readLe mem data 8), data + 8)

/-! ## What the reader does -/

/-- One byte is its own value. -/
theorem readVariableLengthInteger_small {mem : Memory} {data : Nat} (h : mem data < 0xFD) :
    readVariableLengthInteger mem data = ((mem data).toUInt64, data + 1) := by
  unfold readVariableLengthInteger
  rw [if_pos h]

/-- Behind a mark the reader stops after two, four or eight bytes, the mark among them. -/
theorem readVariableLengthInteger_wide {mem : Memory} {data : Nat} (h : ¬ mem data < 0xFD) :
    (readVariableLengthInteger mem data).2 = data + 2 ∨
      (readVariableLengthInteger mem data).2 = data + 4 ∨
      (readVariableLengthInteger mem data).2 = data + 8 := by
  unfold readVariableLengthInteger
  simp only [if_neg h]
  split
  · exact Or.inl rfl
  · split
    · exact Or.inr (Or.inl rfl)
    · exact Or.inr (Or.inr rfl)

/-! ## The format, read by the code -/

/-- The reader gives `n`, and the place right behind the CompactSize of `n`. -/
def ReadsBack (mem : Memory) (data : Nat) (n : UInt64) : Prop :=
  (readVariableLengthInteger mem data).1 = n ∧
    (readVariableLengthInteger mem data).2 = data + (compactSize64 n.toNat).length

instance (mem : Memory) (data : Nat) (n : UInt64) : Decidable (ReadsBack mem data n) :=
  inferInstanceAs (Decidable (_ ∧ _))

/-- The first byte is a mark exactly for the numbers of the wider forms. -/
theorem first_byte_small_iff {mem : Memory} {data n : Nat} (h : Holds mem data (compactSize64 n)) :
    mem data < 0xFD ↔ n < 0xFD := by
  unfold compactSize64 compactSize at h
  by_cases hn : n < 0xFD
  · rw [if_pos (by omega), if_pos hn, holds_cons] at h
    rw [h.1, UInt8.lt_iff_toNat_lt, UInt8.toNat_ofNat_of_lt' (by simp [UInt8.size]; omega)]
    simp [hn]
  · rw [if_neg hn] at h
    refine iff_of_false ?_ hn
    split at h
    · split at h <;> simp [((holds_cons _ _ _ _).mp h).1]
    · simp [((holds_cons _ _ _ _).mp h).1]

/-- The one-byte form of a number holds the number. -/
theorem first_byte_of_small {mem : Memory} {data n : Nat} (h : Holds mem data (compactSize64 n))
    (hn : n < 0xFD) : (mem data).toNat = n := by
  unfold compactSize64 compactSize at h
  rw [if_pos (by omega), if_pos hn, holds_cons] at h
  rw [h.1, UInt8.toNat_ofNat_of_lt' (by simp [UInt8.size]; omega)]

/-- The free function decodes the CompactSize of a number exactly when it has one byte. -/
theorem the_free_function_reads_exactly_the_one_byte_sizes (mem : Memory) (data : Nat) (n : UInt64)
    (h : Holds mem data (compactSize64 n.toNat)) : ReadsBack mem data n ↔ n < 0xFD := by
  have hmark : n < 0xFD ↔ n.toNat < 0xFD := UInt64.lt_iff_toNat_lt
  rw [hmark]
  constructor
  · rintro ⟨-, hplace⟩
    by_contra hn
    have hwide := readVariableLengthInteger_wide (mt (first_byte_small_iff h).mp hn)
    rw [compactSize64_length, if_neg hn] at hplace
    split at hplace
    · omega
    · split at hplace <;> omega
  · intro hn
    have hsmall := readVariableLengthInteger_small ((first_byte_small_iff h).mpr hn)
    refine ⟨?_, ?_⟩
    · rw [hsmall]
      apply UInt64.toNat_inj.mp
      simpa using first_byte_of_small h hn
    · rw [hsmall, compactSize64_length, if_pos hn]

theorem the_free_function_reads_exactly_the_one_byte_sizes_for_seven :
    ReadsBack (overlay [7] fun _ => 0) 0 7 ↔ (7 : UInt64) < 0xFD :=
  the_free_function_reads_exactly_the_one_byte_sizes (overlay [7] fun _ => 0) 0 7 (by decide)

/-- `0xFD 0xFD 0x00` is the CompactSize of 253. The reader takes its first two
bytes for the number 65021. -/
theorem the_free_function_misreads_253 :
    ¬ ∀ (mem : Memory) (data : Nat) (n : UInt64), Holds mem data (compactSize64 n.toNat) →
      ReadsBack mem data n := by
  intro h
  have hread := h (overlay [0xFD, 0xFD, 0x00] fun _ => 0) 0 253 (by decide)
  exact absurd hread.1 (by decide)

end bitcoinstats.varint
