-- The counts and lengths of a block. The protocol writes them as a CompactSize
-- of one, three or five bytes. `readVariableLengthInteger` never looks at the
-- mark in the first byte: it tells the widths apart by the values that it reads.
import BitcoinStats.BlockReader

open byte_memory exec cursor

namespace bitcoinstats.block_chain

/-! ## The two formats -/

/-- The CompactSize of the Bitcoin protocol, for `n` below `2 ^ 32`. -/
def compactSize (n : Nat) : List UInt8 :=
  if n < 0xFD then [UInt8.ofNat n]
  else if n ≤ 0xFFFF then 0xFD :: leBytes 2 n
  else 0xFE :: leBytes 4 n

/-- The integers that the code reads: each wider form starts with the largest
value of the form before it. -/
inductive Count where
  | oneByte (v : UInt8) (small : v < 0xFD)
  | twoBytes (mark : UInt8) (isMark : 0xFD ≤ mark) (v : UInt16) (small : v < 0xFFFF)
  | fourBytes (mark : UInt8) (isMark : 0xFD ≤ mark) (v : UInt32) (small : v < 0xFFFFFFFF)
  | eightBytes (mark : UInt8) (isMark : 0xFD ≤ mark) (v : UInt64)

def Count.bytes : Count → List UInt8
  | .oneByte v _ => [v]
  | .twoBytes mark _ v _ => [mark] ++ leBytes 2 v.toNat
  | .fourBytes mark _ v _ => [mark] ++ (leBytes 2 0xFFFF ++ leBytes 4 v.toNat)
  | .eightBytes mark _ v =>
    [mark] ++ (leBytes 2 0xFFFF ++ (leBytes 4 0xFFFFFFFF ++ leBytes 8 v.toNat))

def Count.value : Count → UInt32
  | .oneByte v _ => v.toUInt32
  | .twoBytes _ _ v _ => v.toUInt32
  | .fourBytes _ _ v _ => v
  | .eightBytes _ _ v => v.toUInt32

/-- The code's form of a number is the protocol's up to `0xFFFE`. -/
def Count.ofNat (n : Nat) (h : n < 0xFFFF) : Count :=
  if h1 : n < 0xFD then .oneByte (UInt8.ofNat n) (by
    rw [UInt8.lt_iff_toNat_lt, UInt8.toNat_ofNat_of_lt' (by simp [UInt8.size]; omega)]
    exact h1)
  else .twoBytes 0xFD (by decide) (UInt16.ofNat n) (by
    rw [UInt16.lt_iff_toNat_lt, UInt16.toNat_ofNat_of_lt' (by simp [UInt16.size]; omega)]
    exact h)

theorem Count.ofNat_bytes (n : Nat) (h : n < 0xFFFF) :
    (Count.ofNat n h).bytes = compactSize n := by
  unfold Count.ofNat compactSize
  split
  · rfl
  · have hn : n ≤ 0xFFFF := by omega
    have hv : (UInt16.ofNat n).toNat = n :=
      UInt16.toNat_ofNat_of_lt' (by simp [UInt16.size]; omega)
    simp [Count.bytes, hn, hv]

theorem Count.ofNat_value (n : Nat) (h : n < 0xFFFF) :
    (Count.ofNat n h).value.toNat = n := by
  unfold Count.ofNat
  split
  · simp [Count.value]; omega
  · simp [Count.value]; omega

/-! ## The reader reads its own format -/

theorem readVariableLengthInteger_reads (c : Count) {s : ParseState} :
    Reads s readVariableLengthInteger c.bytes c.value Change.none := by
  unfold readVariableLengthInteger
  cases c with
  | oneByte v small =>
    refine (readU8_reads v).last fun _ => ?_
    rw [if_pos small]
    exact Reads.pure _
  | twoBytes mark isMark v small =>
    refine (readU8_reads mark).next fun _ => ?_
    rw [if_neg (by simpa using isMark)]
    refine (readU16_reads v).last fun _ => ?_
    rw [if_pos small]
    exact Reads.pure _
  | fourBytes mark isMark v small =>
    refine (readU8_reads mark).next fun _ => ?_
    rw [if_neg (by simpa using isMark)]
    refine (readU16_reads 0xFFFF).next fun _ => ?_
    rw [if_neg (by decide)]
    refine (readU32_reads v).last fun _ => ?_
    rw [if_pos small]
    exact Reads.pure _
  | eightBytes mark isMark v =>
    refine (readU8_reads mark).next fun _ => ?_
    rw [if_neg (by simpa using isMark)]
    refine (readU16_reads 0xFFFF).next fun _ => ?_
    rw [if_neg (by decide)]
    refine (readU32_reads 0xFFFFFFFF).next fun _ => ?_
    rw [if_neg (by decide)]
    exact (readU64_reads v).last fun _ => Reads.pure _

/-- Every memory has one of the four forms at every place. -/
theorem exists_count (mem : Memory) (p : Nat) : ∃ c : Count, Holds mem p c.bytes := by
  by_cases h0 : mem p < 0xFD
  · exact ⟨.oneByte (mem p) h0, by simp [Count.bytes]⟩
  have hmark : 0xFD ≤ mem p := by simpa using h0
  have h2 := holds_readLe mem (p + 1) 2
  have hlt2 := readLe_lt mem (p + 1) 2
  by_cases hv2 : readLe mem (p + 1) 2 < 0xFFFF
  · have hval : (UInt16.ofNat (readLe mem (p + 1) 2)).toNat = readLe mem (p + 1) 2 :=
      UInt16.toNat_ofNat_of_lt' hlt2
    refine ⟨.twoBytes (mem p) hmark (UInt16.ofNat (readLe mem (p + 1) 2)) ?_, ?_⟩
    · rw [UInt16.lt_iff_toNat_lt, hval]
      exact hv2
    · simp [Count.bytes, hval, h2]
  have he2 : readLe mem (p + 1) 2 = 0xFFFF := by omega
  rw [he2] at h2
  have h4 := holds_readLe mem (p + 1 + 2) 4
  have hlt4 := readLe_lt mem (p + 1 + 2) 4
  by_cases hv4 : readLe mem (p + 1 + 2) 4 < 0xFFFFFFFF
  · have hval : (UInt32.ofNat (readLe mem (p + 1 + 2) 4)).toNat = readLe mem (p + 1 + 2) 4 :=
      UInt32.toNat_ofNat_of_lt' hlt4
    refine ⟨.fourBytes (mem p) hmark (UInt32.ofNat (readLe mem (p + 1 + 2) 4)) ?_, ?_⟩
    · rw [UInt32.lt_iff_toNat_lt, hval]
      exact hv4
    · simp [Count.bytes, hval, h2, h4]
  have he4 : readLe mem (p + 1 + 2) 4 = 0xFFFFFFFF := by omega
  rw [he4] at h4
  have h8 := holds_readLe mem (p + 1 + 2 + 4) 8
  have hlt8 := readLe_lt mem (p + 1 + 2 + 4) 8
  have hval : (UInt64.ofNat (readLe mem (p + 1 + 2 + 4) 8)).toNat =
      readLe mem (p + 1 + 2 + 4) 8 := UInt64.toNat_ofNat_of_lt' hlt8
  refine ⟨.eightBytes (mem p) hmark (UInt64.ofNat (readLe mem (p + 1 + 2 + 4) 8)), ?_⟩
  simp [Count.bytes, hval, h2, h4, h8]

/-! ## The protocol's format, read by the code -/

/-- The reader returns `n`, and the cursor is past the CompactSize of `n`. -/
def ReadsBack (n : UInt32) (s : ParseState) : Prop :=
  ∃ s', readVariableLengthInteger.run s = .ok n s' ∧
    s'.block.mBlockRead = s.block.mBlockRead + (compactSize n.toNat).length

theorem compactSize_length (n : Nat) :
    (compactSize n).length = if n < 0xFD then 1 else if n ≤ 0xFFFF then 3 else 5 := by
  unfold compactSize
  split
  · rfl
  · split <;> simp

/-- The two bytes after the mark are never both `0xFF` in the form of two bytes. -/
theorem twoBytes_ne_compactSize (mark : UInt8) (isMark : 0xFD ≤ mark) (v : UInt16)
    (small : v < 0xFFFF) : (Count.twoBytes mark isMark v small).bytes ≠ compactSize 0xFFFF := by
  intro h
  have htail : leBytes 2 v.toNat = leBytes 2 0xFFFF := (List.cons.inj h).2
  have hv : v.toNat = 0xFFFF := by
    rw [← leVal_leBytes_of_lt (k := 2) v.toNat_lt, htail]
    rfl
  rw [UInt16.lt_iff_toNat_lt, hv] at small
  exact absurd small (by decide)

/-- No form of the code is as long as the CompactSize of a number from `0xFFFF`
on, except the form of two bytes, which never holds `0xFFFF`. -/
theorem count_length_ne (c : Count) {n : Nat} {mem : Memory} {p : Nat} (hn : 0xFFFF ≤ n)
    (hc : Holds mem p c.bytes) (h : Holds mem p (compactSize n)) :
    c.bytes.length ≠ (compactSize n).length := by
  intro hlen
  have hbytes := hc.unique h hlen
  rw [compactSize_length, if_neg (by omega)] at hlen
  cases c with
  | oneByte v small => split at hlen <;> simp [Count.bytes] at hlen
  | twoBytes mark isMark v small =>
    split at hlen
    · have hmax : n = 0xFFFF := by omega
      subst hmax
      exact twoBytes_ne_compactSize mark isMark v small hbytes
    · simp [Count.bytes] at hlen
  | fourBytes mark isMark v small => split at hlen <;> simp [Count.bytes] at hlen
  | eightBytes mark isMark v => split at hlen <;> simp [Count.bytes] at hlen

/-- A CompactSize reads back exactly when its number is below `0xFFFF`. -/
theorem a_compact_size_reads_back_exactly_below_0xFFFF (n : UInt32) (s : ParseState)
    (h : Sees s (compactSize n.toNat)) : ReadsBack n s ↔ n.toNat < 0xFFFF := by
  constructor
  · rintro ⟨s', hrun, hcursor⟩
    by_contra hn
    obtain ⟨c, hc⟩ := exists_count s.block.mBlockData s.block.mBlockRead
    obtain ⟨ws, hrun'⟩ := readVariableLengthInteger_reads c hc
    rw [hrun] at hrun'
    cases hrun'
    rw [← position_eq, ← position_eq, Change.position, Cursor.position_moved] at hcursor
    exact count_length_ne c (by omega) hc h (by omega)
  · intro hn
    rw [← Count.ofNat_bytes _ hn] at h
    obtain ⟨ws, hrun⟩ := readVariableLengthInteger_reads (Count.ofNat n.toNat hn) h
    have hval : (Count.ofNat n.toNat hn).value = n :=
      UInt32.toNat_inj.mp (Count.ofNat_value _ hn)
    rw [hval] at hrun
    refine ⟨_, hrun, ?_⟩
    rw [← position_eq, ← position_eq, Change.position, Cursor.position_moved, Count.ofNat_bytes]

theorem a_compact_size_reads_back_below_0xFFFF_for_300 :
    ReadsBack 300 (ParseState.ofBytes [0xFD, 0x2C, 0x01]) ↔ (300 : UInt32).toNat < 0xFFFF :=
  a_compact_size_reads_back_exactly_below_0xFFFF 300 _ (by decide)

/-- `0xFE 00 00 01 00` is the CompactSize of `0x10000`. The code reads 0 from
it, and leaves two of its bytes unread. -/
theorem a_compact_size_of_five_bytes_is_misread :
    ¬ ∀ (n : UInt32) (s : ParseState), Sees s (compactSize n.toNat) → ReadsBack n s := by
  intro h
  obtain ⟨s', hrun, _⟩ := h 0x10000 (ParseState.ofBytes [0xFE, 0x00, 0x00, 0x01, 0x00]) (by decide)
  have hzero : ∃ s1, readVariableLengthInteger.run
      (ParseState.ofBytes [0xFE, 0x00, 0x00, 0x01, 0x00]) = .ok 0 s1 := ⟨_, rfl⟩
  obtain ⟨s1, hzero⟩ := hzero
  rw [hzero] at hrun
  cases hrun

end bitcoinstats.block_chain
