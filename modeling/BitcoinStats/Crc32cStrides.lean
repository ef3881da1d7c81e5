-- The four strides of `Extend` compute the shift register of the checksum: what
-- the partial results stand for, and each loop as bytes fed to the register.
import BitcoinStats.Crc32c
import BitcoinStats.Library.ByteRegister

open byte_memory byte_words shift_register byte_register

namespace bitcoinstats.crc32c

def polynomial : BitVec 32 := 0x82f63b78#32

theorem isTable_byte : IsTable polynomial 8 0 kByteExtensionTable := by decide +kernel
theorem isTable_stride3 : IsTable polynomial 128 (8 * 0) kStrideExtensionTable3 := by decide +kernel
theorem isTable_stride2 : IsTable polynomial 128 (8 * 1) kStrideExtensionTable2 := by decide +kernel
theorem isTable_stride1 : IsTable polynomial 128 (8 * 2) kStrideExtensionTable1 := by decide +kernel
theorem isTable_stride0 : IsTable polynomial 128 (8 * 3) kStrideExtensionTable0 := by decide +kernel

/-! ## Single bytes -/

theorem xor_byte_shift (l : UInt32) (byte : UInt8) : (l ^^^ byte.toUInt32) >>> 8 = l >>> 8 := by
  have hb := byte.toNat_lt
  apply UInt32.toNat_inj.mp
  rw [UInt32.toNat_shiftRight, UInt32.toNat_shiftRight, UInt32.toNat_xor]
  change (l.toNat ^^^ byte.toNat) >>> 8 = l.toNat >>> 8
  rw [Nat.shiftRight_xor_distrib, Nat.shiftRight_eq_div_pow byte.toNat, Nat.div_eq_of_lt hb,
    Nat.xor_zero]

theorem STEP1_toBitVec (l : UInt32) (byte : UInt8) :
    (STEP1 l byte).toBitVec = feedByte polynomial l.toBitVec byte := by
  have hindex : (l &&& 0xff) ^^^ byte.toUInt32 = (l ^^^ byte.toUInt32) &&& 0xff := by
    apply UInt32.toNat_inj.mp
    have hb := byte.toNat_lt
    rw [UInt32.toNat_xor, and_255, and_255, UInt32.toNat_xor, UInt8.toNat_toUInt32,
      show 256 = 2 ^ 8 by rfl, Nat.xor_mod_two_pow, Nat.mod_eq_of_lt hb]
  rw [STEP1, hindex, ← xor_byte_shift, isTable_byte.step]
  rfl

theorem foldl_STEP1 (l : UInt32) (bytes : List UInt8) :
    (bytes.foldl STEP1 l).toBitVec = feedBytes polynomial l.toBitVec bytes := by
  induction bytes generalizing l with
  | nil => rfl
  | cons b bytes ih =>
    rw [List.foldl_cons, ih, STEP1_toBitVec]
    rfl

/-! ## Words -/

theorem feedBytes_read (c : BitVec 32) (mem : Memory) (p : Nat) :
    feedBytes polynomial c (window mem p 4) =
      advance polynomial 32 (c ^^^ (ReadUint32LE mem p).toBitVec) :=
  feedBytes_word polynomial c (window_length mem p 4)

/-- `STEP4` moves a partial result past 16 bytes and takes a word. -/
theorem STEP4_toBitVec (mem : Memory) (p : Nat) (crc : UInt32) :
    (STEP4 mem p crc).toBitVec =
      (ReadUint32LE mem p).toBitVec ^^^ advance polynomial 128 crc.toBitVec := by
  have hbyte : ∀ s < 32, ((crc >>> UInt32.ofNat s) &&& 0xff).toNat = crc.toBitVec.toNat / 2 ^ s % 256 := by
    intro s hs
    rw [and_255, UInt32.toNat_shiftRight, UInt32.toNat_ofNat', Nat.mod_eq_of_lt (by omega : s < 2 ^ 32),
      Nat.mod_eq_of_lt hs, Nat.shiftRight_eq_div_pow]
    rfl
  have hlast : (crc >>> 24).toNat = crc.toBitVec.toNat / 2 ^ 24 % 256 := by
    have hlt := crc.toNat_lt
    rw [UInt32.toNat_shiftRight]
    change crc.toNat >>> 24 = crc.toNat / 2 ^ 24 % 256
    rw [Nat.shiftRight_eq_div_pow, Nat.mod_eq_of_lt (by omega)]
  have h0 : (kStrideExtensionTable3.getD (crc &&& 0xff).toNat 0).toBitVec =
      advance polynomial 128 (bytePart crc.toBitVec 0) := by
    rw [and_255]
    simpa using isTable_stride3.getD_bytePart (by decide) crc.toBitVec
  have h1 : (kStrideExtensionTable2.getD ((crc >>> 8) &&& 0xff).toNat 0).toBitVec =
      advance polynomial 128 (bytePart crc.toBitVec 1) := by
    rw [← isTable_stride2.getD_bytePart (by decide) crc.toBitVec, ← hbyte _ (by decide)]
    rfl
  have h2 : (kStrideExtensionTable1.getD ((crc >>> 16) &&& 0xff).toNat 0).toBitVec =
      advance polynomial 128 (bytePart crc.toBitVec 2) := by
    rw [← isTable_stride1.getD_bytePart (by decide) crc.toBitVec, ← hbyte _ (by decide)]
    rfl
  have h3 : (kStrideExtensionTable0.getD (crc >>> 24).toNat 0).toBitVec =
      advance polynomial 128 (bytePart crc.toBitVec 3) := by
    rw [← isTable_stride0.getD_bytePart (by decide) crc.toBitVec, hlast]
  rw [STEP4, UInt32.toBitVec_xor, UInt32.toBitVec_xor, UInt32.toBitVec_xor, UInt32.toBitVec_xor,
    h0, h1, h2, h3]
  conv_rhs => rw [bytePart_split crc.toBitVec]
  rw [advance_xor, advance_xor, advance_xor]
  simp only [BitVec.xor_assoc]

/-! ## Strides -/

/-- The register that the four partial results stand for: each has some bytes still to go. -/
def Strides.register (s : Strides) : BitVec 32 :=
  advance polynomial 128 s.crc0.toBitVec ^^^ advance polynomial 96 s.crc1.toBitVec ^^^
    advance polynomial 64 s.crc2.toBitVec ^^^ advance polynomial 32 s.crc3.toBitVec

/-- One word, and the partial results change places. -/
def Strides.next (mem : Memory) (p : Nat) (s : Strides) : Strides :=
  ⟨s.crc1, s.crc2, s.crc3, STEP4 mem p s.crc0⟩

theorem register_next (mem : Memory) (p : Nat) (s : Strides) :
    (s.next mem p).register = feedBytes polynomial s.register (window mem p 4) := by
  have h128 : ∀ c, advance polynomial 128 c = advance polynomial 32 (advance polynomial 96 c) :=
    advance_add polynomial 32 96
  have h96 : ∀ c, advance polynomial 96 c = advance polynomial 32 (advance polynomial 64 c) :=
    advance_add polynomial 32 64
  have h64 : ∀ c, advance polynomial 64 c = advance polynomial 32 (advance polynomial 32 c) :=
    advance_add polynomial 32 32
  rw [feedBytes_read]
  simp only [Strides.register, Strides.next, STEP4_toBitVec, advance_xor]
  rw [h128 s.crc1.toBitVec, h96 s.crc2.toBitVec, h64 s.crc3.toBitVec]
  ac_rfl

theorem STEP16_eq (mem : Memory) (p : Nat) (s : Strides) :
    STEP16 mem p s = (((s.next mem p).next mem (p + 4)).next mem (p + 8)).next mem (p + 12) := rfl

theorem window_append_four (mem : Memory) (p n : Nat) :
    window mem p (4 + n) = window mem p 4 ++ window mem (p + 4) n := window_add mem p 4 n

theorem register_STEP16 (mem : Memory) (p : Nat) (s : Strides) :
    (STEP16 mem p s).register = feedBytes polynomial s.register (window mem p 16) := by
  rw [STEP16_eq, register_next, register_next, register_next, register_next, ← feedBytes_append,
    ← feedBytes_append, ← feedBytes_append, show 16 = 4 + (4 + (4 + 4)) by rfl, window_append_four,
    window_append_four, window_append_four]

/-- A loop has taken the bytes up to where it stops. -/
structure Took (mem : Memory) (before after : BitVec 32) (p p' e : Nat) : Prop where
  from_le : p ≤ p'
  le_end : p' ≤ e
  register : after = feedBytes polynomial before (window mem p (p' - p))

theorem took_none (mem : Memory) (r : BitVec 32) {p e : Nat} (h : p ≤ e) : Took mem r r p p e where
  from_le := le_rfl
  le_end := h
  register := by simp [feedBytes]

theorem Took.trans {mem : Memory} {r r' r'' : BitVec 32} {p p' p'' e e' : Nat}
    (h : Took mem r r' p p' e) (h' : Took mem r' r'' p' p'' e') : Took mem r r'' p p'' e' where
  from_le := h.from_le.trans h'.from_le
  le_end := h'.le_end
  register := by
    have hfirst := h.from_le
    have hsecond := h'.from_le
    rw [h'.register, h.register, ← feedBytes_append, show p'' - p = (p' - p) + (p'' - p') by omega,
      window_add, Nat.add_sub_cancel' hfirst]

theorem swaths_took (mem : Memory) (s : Strides) (p e : Nat) (hp : p ≤ e) :
    Took mem s.register (swaths mem s p e).1.register p (swaths mem s p e).2 e := by
  induction hn : e - p using Nat.strong_induction_on generalizing s p with
  | _ n ih =>
    rw [swaths]
    split
    · have hstep : Took mem s.register (STEP16 mem p s).register p (p + 16) e :=
        { from_le := by omega
          le_end := by omega
          register := by rw [register_STEP16, Nat.add_sub_cancel_left] }
      exact hstep.trans (ih (e - (p + 16)) (by omega) _ (p + 16) (by omega) rfl)
    · exact took_none mem _ hp

theorem words_took (mem : Memory) (s : Strides) (p e : Nat) (hp : p ≤ e) :
    Took mem s.register (words mem s p e).1.register p (words mem s p e).2 e := by
  induction hn : e - p using Nat.strong_induction_on generalizing s p with
  | _ n ih =>
    rw [words]
    split
    · have hstep : Took mem s.register (s.next mem p).register p (p + 4) e :=
        { from_le := by omega
          le_end := by omega
          register := by rw [register_next, Nat.add_sub_cancel_left] }
      exact hstep.trans (ih (e - (p + 4)) (by omega) _ (p + 4) (by omega) rfl)
    · exact took_none mem _ hp

/-! ## The whole buffer -/

theorem STEP4W_toBitVec (l w : UInt32) :
    (STEP4W l w).toBitVec = advance polynomial 32 (w.toBitVec ^^^ l.toBitVec) := by
  have hstep : ∀ x : UInt32,
      ((x >>> 8) ^^^ kByteExtensionTable.getD (x &&& 0xff).toNat 0).toBitVec =
        advance polynomial 8 x.toBitVec := by
    intro x
    rw [UInt32.xor_comm]
    exact isTable_byte.step x
  have hjoin : ∀ c, advance polynomial 32 c = advance polynomial 8 (advance polynomial 8
      (advance polynomial 8 (advance polynomial 8 c))) := by
    intro c
    rw [← advance_add, ← advance_add, ← advance_add]
  rw [STEP4W, hjoin, ← UInt32.toBitVec_xor, ← hstep, ← hstep, ← hstep, ← hstep]
  rfl

/-- The partial results are put together. -/
theorem combine_toBitVec (s : Strides) :
    (STEP4W (STEP4W (STEP4W (STEP4W 0 s.crc0) s.crc1) s.crc2) s.crc3).toBitVec = s.register := by
  have h128 : ∀ c, advance polynomial 128 c = advance polynomial 32 (advance polynomial 32
      (advance polynomial 32 (advance polynomial 32 c))) := by
    intro c
    rw [← advance_add, ← advance_add, ← advance_add]
  have h96 : ∀ c, advance polynomial 96 c = advance polynomial 32 (advance polynomial 32
      (advance polynomial 32 c)) := by
    intro c
    rw [← advance_add, ← advance_add]
  have h64 : ∀ c, advance polynomial 64 c = advance polynomial 32 (advance polynomial 32 c) := by
    intro c
    rw [← advance_add]
  have hzero : (0 : UInt32).toBitVec = 0#32 := rfl
  simp only [STEP4W_toBitVec, Strides.register, h128, h96, h64, hzero, BitVec.xor_zero, advance_xor]
  ac_rfl

/-- The words at the start stand for the first 16 bytes. -/
theorem register_first (mem : Memory) (l : UInt32) (p : Nat) :
    Strides.register
      ⟨ReadUint32LE mem (p + 0 * 4) ^^^ l, ReadUint32LE mem (p + 1 * 4),
        ReadUint32LE mem (p + 2 * 4), ReadUint32LE mem (p + 3 * 4)⟩ =
      feedBytes polynomial l.toBitVec (window mem p 16) := by
  have hcombine := combine_toBitVec
    ⟨ReadUint32LE mem (p + 0 * 4) ^^^ l, ReadUint32LE mem (p + 1 * 4),
      ReadUint32LE mem (p + 2 * 4), ReadUint32LE mem (p + 3 * 4)⟩
  have hwindow : window mem p 16 = window mem p 4 ++ window mem (p + 4) 4 ++ window mem (p + 8) 4 ++
      window mem (p + 12) 4 := by
    rw [← window_add, ← window_add, ← window_add]
  rw [← hcombine, hwindow, feedBytes_append, feedBytes_append, feedBytes_append, feedBytes_read,
    feedBytes_read, feedBytes_read, feedBytes_read]
  simp only [STEP4W_toBitVec, UInt32.toBitVec_xor]
  have hzero : (0 : UInt32).toBitVec = 0#32 := rfl
  simp only [hzero, BitVec.zero_xor, Nat.zero_mul, Nat.add_zero, Nat.one_mul, Nat.reduceMul,
    BitVec.xor_comm]

theorem strided_took (mem : Memory) (l : UInt32) (p e : Nat) (hp : p ≤ e) :
    Took mem l.toBitVec (strided mem l p e).1.toBitVec p (strided mem l p e).2 e := by
  rw [strided]
  split
  · set s : Strides := ⟨ReadUint32LE mem (p + 0 * 4) ^^^ l, ReadUint32LE mem (p + 1 * 4),
      ReadUint32LE mem (p + 2 * 4), ReadUint32LE mem (p + 3 * 4)⟩ with hs
    have hfirst : Took mem l.toBitVec s.register p (p + 16) e :=
      { from_le := by omega
        le_end := by omega
        register := by rw [hs, register_first, Nat.add_sub_cancel_left] }
    have hswaths := swaths_took mem s (p + 16) e hfirst.le_end
    have hwords := words_took mem (swaths mem s (p + 16) e).1 (swaths mem s (p + 16) e).2 e
      hswaths.le_end
    have hall := (hfirst.trans hswaths).trans hwords
    rw [← combine_toBitVec (words mem (swaths mem s (p + 16) e).1 (swaths mem s (p + 16) e).2 e).1]
      at hall
    exact hall
  · exact took_none mem _ hp

theorem bytewise_took (mem : Memory) (l : UInt32) {p e : Nat} (h : p ≤ e) :
    Took mem l.toBitVec (bytewise mem l p e).toBitVec p e e where
  from_le := h
  le_end := le_rfl
  register := foldl_STEP1 l _

/-- Wherever the buffer lies and however long it is, the strides give what the bytes give. -/
theorem Extend_toBitVec (mem : Memory) (crc : UInt32) (buf size : Nat) :
    (Extend mem crc buf size).toBitVec =
      feedBytes polynomial (crc ^^^ kCRC32Xor).toBitVec (window mem buf size) ^^^
        kCRC32Xor.toBitVec := by
  have halign : ∀ l : UInt32, ∃ l' p', (if RoundUp buf ≤ buf + size
      then (bytewise mem l buf (RoundUp buf), RoundUp buf) else (l, buf)) = (l', p') ∧
        Took mem l.toBitVec l'.toBitVec buf p' (buf + size) := by
    intro l
    split
    · rename_i hx
      have hup : buf ≤ RoundUp buf := by
        rw [RoundUp]
        omega
      refine ⟨_, _, rfl, ?_⟩
      exact { bytewise_took mem l hup with le_end := hx }
    · exact ⟨l, buf, rfl, took_none mem _ (by omega)⟩
  obtain ⟨l', p', hif, htook⟩ := halign (crc ^^^ kCRC32Xor)
  have hstrided := strided_took mem l' p' (buf + size) htook.le_end
  have hrest := bytewise_took mem (strided mem l' p' (buf + size)).1 hstrided.le_end
  have hall := ((htook.trans hstrided).trans hrest).register
  rw [Nat.add_sub_cancel_left] at hall
  rw [Extend]
  simp only [hif]
  rw [UInt32.toBitVec_xor, hall]

/-- The strides agree with the loop over single bytes: the result does not depend on the address,
nor on what is around the buffer. -/
theorem the_strides_agree_with_single_bytes (mem : Memory) (crc : UInt32) (buf size : Nat) :
    Extend mem crc buf size = (window mem buf size).foldl STEP1 (crc ^^^ kCRC32Xor) ^^^ kCRC32Xor := by
  apply UInt32.toBitVec_inj.mp
  rw [Extend_toBitVec, ← foldl_STEP1, UInt32.toBitVec_xor]

end bitcoinstats.crc32c
