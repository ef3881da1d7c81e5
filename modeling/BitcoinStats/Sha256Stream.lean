-- A SHA-256 context that is fed piece by piece: what it holds of the message,
-- the digest that it gives, and what equal digests say.
import BitcoinStats.Sha256Standard

open byte_memory byte_words block_hash cells

namespace bitcoinstats.sha256

/-- The context after the bytes of `message`, however they came. -/
structure Fed (sc : sha256_ctx_t) (message : List UInt8) : Prop where
  totalLength : sc.totalLength = UInt64.ofNat (8 * message.length)
  hash : sc.hash = absorb standard.compress 64 standard.initial message
  bufferLength : sc.bufferLength = (remainder 64 message).length
  buffer : sc.buffer.val.take sc.bufferLength = remainder 64 message

theorem Fed.bufferLength_lt {sc : sha256_ctx_t} {message : List UInt8} (h : Fed sc message) :
    sc.bufferLength < 64 := by
  rw [h.bufferLength]
  exact remainder_lt (by decide) message

theorem fed_init (sc : sha256_ctx_t) : Fed (sha256_init sc) [] where
  totalLength := rfl
  hash := rfl
  bufferLength := rfl
  buffer := rfl

/-! ## One update -/

theorem memcpy_fits (buffer : Buffer) {place : Nat} {bytes : List UInt8}
    (h : place + bytes.length ≤ 64) :
    ∃ buffer', memcpy buffer place bytes = some buffer' ∧
      buffer'.val.take (place + bytes.length) = buffer.val.take place ++ bytes := by
  have hbuffer := buffer.property
  refine ⟨_, dif_pos (by rw [hbuffer]; exact h), ?_⟩
  have htake : (buffer.val.take place ++ bytes).length = place + bytes.length := by
    rw [List.length_append, List.length_take]
    omega
  change (overwrite buffer.val place bytes).take _ = _
  rw [overwrite, List.take_append_of_le_length htake.ge, List.take_of_length_le htake.le]

/-- The message length in bits, with some bytes more. -/
theorem totalLength_add (message bytes : List UInt8) :
    UInt64.ofNat (8 * message.length) + UInt64.ofNat (bytes.length * 8) =
      UInt64.ofNat (8 * (message ++ bytes).length) := by
  rw [← UInt64.ofNat_add, List.length_append]
  congr 1
  omega

/-- One call of `SHA256Guts` on the bytes that complete a block. -/
theorem absorb_block {message bytes : List UInt8}
    (h : (remainder 64 message ++ bytes).length = 64) (s : Registers) :
    absorb standard.compress 64 s (message ++ bytes) =
      SHA256Guts (absorb standard.compress 64 s message)
        (loadWords (remainder 64 message ++ bytes)) := by
  rw [absorb_append _ (by decide), SHA256Guts_eq _ h.ge, absorb, blocks_block (by decide) h]
  rfl

theorem fillBuffer_fed {sc : sha256_ctx_t} {message : List UInt8} (h : Fed sc message)
    (data : List UInt8) :
    ∃ sc' taken rest, fillBuffer sc data = some (sc', rest) ∧ data = taken ++ rest ∧
      Fed sc' (message ++ taken) ∧ (rest = [] ∨ sc'.bufferLength = 0) := by
  by_cases hempty : sc.bufferLength = 0
  · refine ⟨sc, [], data, ?_, rfl, ?_, .inr hempty⟩
    · rw [fillBuffer, if_neg (not_not.mpr hempty)]
    · rwa [List.append_nil]
  have hlt := h.bufferLength_lt
  set taken := data.take (min (64 - sc.bufferLength) data.length) with htaken
  have hlen : taken.length = min (64 - sc.bufferLength) data.length := by
    rw [htaken, List.length_take]
    omega
  have hsplit : data = taken ++ data.drop (min (64 - sc.bufferLength) data.length) :=
    (List.take_append_drop _ _).symm
  obtain ⟨buffer, hcopy, hbuffer⟩ :=
    memcpy_fits sc.buffer (show sc.bufferLength + taken.length ≤ 64 by omega)
  rw [h.buffer, hlen] at hbuffer
  have hjoin : (remainder 64 message ++ taken).length =
      sc.bufferLength + min (64 - sc.bufferLength) data.length := by
    rw [List.length_append, hlen, ← h.bufferLength]
  have htotal : sc.totalLength + UInt64.ofNat (min (64 - sc.bufferLength) data.length * 8) =
      UInt64.ofNat (8 * (message ++ taken).length) := by
    rw [h.totalLength, ← hlen, totalLength_add]
  by_cases hfull : sc.bufferLength + min (64 - sc.bufferLength) data.length = 64
  · -- the buffer is a whole block now
    have hblock : (remainder 64 message ++ taken).length = 64 := hjoin.trans hfull
    have hall : buffer.val = remainder 64 message ++ taken := by
      rw [← hbuffer, hfull, List.take_of_length_le buffer.property.le]
    have hrest : remainder 64 (message ++ taken) = [] := by
      rw [remainder_append (by decide), ← List.length_eq_zero_iff, length_remainder, hblock]
    refine ⟨⟨sc.totalLength + UInt64.ofNat (min (64 - sc.bufferLength) data.length * 8),
      SHA256Guts sc.hash (loadWords buffer.val), 0, buffer⟩, taken, _, ?_, hsplit, ?_, .inr rfl⟩
    · rw [fillBuffer, if_pos hempty]
      simp only [← htaken, hcopy, Option.bind_eq_bind, Option.bind_some, if_pos hfull]
    · exact
        { totalLength := htotal
          hash := by
            change SHA256Guts sc.hash (loadWords buffer.val) = _
            rw [absorb_block hblock, ← h.hash, hall]
          bufferLength := by rw [hrest]; rfl
          buffer := by rw [hrest]; rfl }
  · -- the data ran out before the buffer was full
    have hshort : (remainder 64 message ++ taken).length < 64 := by omega
    have hrest : remainder 64 (message ++ taken) = remainder 64 message ++ taken := by
      rw [remainder_append (by decide), remainder_of_lt hshort]
    refine ⟨⟨sc.totalLength + UInt64.ofNat (min (64 - sc.bufferLength) data.length * 8), sc.hash,
      sc.bufferLength + min (64 - sc.bufferLength) data.length, buffer⟩, taken, _, ?_, hsplit, ?_,
      .inl (List.drop_eq_nil_of_le (by omega))⟩
    · rw [fillBuffer, if_pos hempty]
      simp only [← htaken, hcopy, Option.bind_eq_bind, Option.bind_some, if_neg hfull]
    · exact
        { totalLength := htotal
          hash := by rw [absorb_append _ (by decide), absorb_of_lt _ hshort, h.hash]
          bufferLength := by rw [hrest, hjoin]
          buffer := by rw [hrest]; exact hbuffer }

theorem wholeBlocks_nil (sc : sha256_ctx_t) : wholeBlocks sc [] = (sc, []) := by
  rw [wholeBlocks, if_neg (by simp)]

/-- The loop: each turn takes one block, the last bytes stay. -/
theorem wholeBlocks_fed (sc : sha256_ctx_t) (message data : List UInt8) (h : Fed sc message)
    (hempty : sc.bufferLength = 0) :
    ∃ sc' taken rest, wholeBlocks sc data = (sc', rest) ∧ data = taken ++ rest ∧
      Fed sc' (message ++ taken) ∧ rest.length < 64 ∧ sc'.bufferLength = 0 := by
  induction hn : data.length using Nat.strong_induction_on generalizing sc message data with
  | _ n ih =>
    rw [wholeBlocks]
    split
    · rename_i hlong
      have hremainder : remainder 64 message = [] := by
        rw [← List.length_eq_zero_iff, ← h.bufferLength, hempty]
      have hlen : (data.take 64).length = 64 := by
        rw [List.length_take]
        omega
      have hblock : (remainder 64 message ++ data.take 64).length = 64 := by
        rw [hremainder, List.nil_append, hlen]
      have hrest : remainder 64 (message ++ data.take 64) = [] := by
        rw [remainder_append (by decide), ← List.length_eq_zero_iff, length_remainder, hblock]
      have hnext : Fed
          { sc with
            totalLength := sc.totalLength + 512
            hash := SHA256Guts sc.hash (loadWords data) }
          (message ++ data.take 64) :=
        { totalLength := by
            change sc.totalLength + 512 = _
            rw [h.totalLength, ← totalLength_add, hlen]
            rfl
          hash := by
            change SHA256Guts sc.hash (loadWords data) = _
            rw [absorb_block hblock, ← h.hash, hremainder, List.nil_append, loadWords_take]
          bufferLength := by rw [hrest]; exact hempty
          buffer := by rw [hrest]; change sc.buffer.val.take sc.bufferLength = []; rw [hempty]; rfl }
      obtain ⟨sc', taken, rest, hloop, hsplit, hfed, hshort, hdone⟩ :=
        ih (data.drop 64).length (by rw [List.length_drop]; omega) _ _ (data.drop 64) hnext hempty rfl
      refine ⟨sc', data.take 64 ++ taken, rest, hloop, ?_, ?_, hshort, hdone⟩
      · rw [List.append_assoc, ← hsplit, List.take_append_drop]
      · rwa [← List.append_assoc]
    · refine ⟨sc, [], data, rfl, rfl, ?_, by omega, hempty⟩
      rwa [List.append_nil]

theorem keepRest_fed {sc : sha256_ctx_t} {message data : List UInt8} (h : Fed sc message)
    (hfits : sc.bufferLength + data.length < 64) :
    ∃ sc', keepRest sc data = some sc' ∧ Fed sc' (message ++ data) := by
  by_cases hdata : data.length = 0
  · refine ⟨sc, ?_, ?_⟩
    · rw [keepRest, if_neg (not_not.mpr hdata)]
    · rwa [List.length_eq_zero_iff.mp hdata, List.append_nil]
  obtain ⟨buffer, hcopy, hbuffer⟩ :=
    memcpy_fits sc.buffer (show sc.bufferLength + data.length ≤ 64 by omega)
  rw [h.buffer] at hbuffer
  have hshort : (remainder 64 message ++ data).length < 64 := by
    rw [List.length_append, ← h.bufferLength]
    exact hfits
  have hrest : remainder 64 (message ++ data) = remainder 64 message ++ data := by
    rw [remainder_append (by decide), remainder_of_lt hshort]
  refine ⟨{ sc with
      totalLength := sc.totalLength + UInt64.ofNat (data.length * 8)
      bufferLength := sc.bufferLength + data.length
      buffer := buffer }, ?_, ?_⟩
  · rw [keepRest, if_pos hdata, hcopy]
    rfl
  · exact
      { totalLength := by
          change sc.totalLength + UInt64.ofNat (data.length * 8) = _
          rw [h.totalLength, totalLength_add]
        hash := by rw [absorb_append _ (by decide), absorb_of_lt _ hshort, ← h.hash]
        bufferLength := by rw [hrest, List.length_append, ← h.bufferLength]
        buffer := by rw [hrest]; exact hbuffer }

/-- An update never copies past the buffer, and the context then holds the longer message. -/
theorem sha256_update_fed {sc : sha256_ctx_t} {message : List UInt8} (h : Fed sc message)
    (data : List UInt8) :
    ∃ sc', sha256_update sc data = some sc' ∧ Fed sc' (message ++ data) := by
  obtain ⟨sc₁, taken₁, rest₁, hfill, hsplit₁, hfed₁, hor⟩ := fillBuffer_fed h data
  have hloop : ∃ sc₂ taken₂ rest₂, wholeBlocks sc₁ rest₁ = (sc₂, rest₂) ∧ rest₁ = taken₂ ++ rest₂ ∧
      Fed sc₂ (message ++ taken₁ ++ taken₂) ∧ sc₂.bufferLength + rest₂.length < 64 := by
    rcases hor with rfl | hempty
    · refine ⟨sc₁, [], [], wholeBlocks_nil sc₁, rfl, by rwa [List.append_nil], ?_⟩
      exact hfed₁.bufferLength_lt
    · obtain ⟨sc₂, taken₂, rest₂, hblocks, hsplit₂, hfed₂, hshort, hdone⟩ :=
        wholeBlocks_fed sc₁ _ rest₁ hfed₁ hempty
      exact ⟨sc₂, taken₂, rest₂, hblocks, hsplit₂, hfed₂, by omega⟩
  obtain ⟨sc₂, taken₂, rest₂, hblocks, hsplit₂, hfed₂, hfits⟩ := hloop
  obtain ⟨sc₃, hkeep, hfed₃⟩ := keepRest_fed hfed₂ hfits
  refine ⟨sc₃, ?_, ?_⟩
  · rw [sha256_update, hfill]
    simp only [Option.bind_eq_bind, Option.bind_some, hblocks, hkeep]
  · rwa [List.append_assoc, List.append_assoc, ← hsplit₂, ← hsplit₁] at hfed₃

/-- The pieces of a message one after the other. -/
theorem foldlM_update_fed {sc : sha256_ctx_t} {message : List UInt8} (h : Fed sc message)
    (pieces : List (List UInt8)) :
    ∃ sc', pieces.foldlM sha256_update sc = some sc' ∧ Fed sc' (message ++ pieces.flatten) := by
  induction pieces generalizing sc message with
  | nil => exact ⟨sc, rfl, by simpa using h⟩
  | cons piece pieces ih =>
    obtain ⟨sc₁, hupdate, hfed₁⟩ := sha256_update_fed h piece
    obtain ⟨sc₂, hrest, hfed₂⟩ := ih hfed₁
    refine ⟨sc₂, ?_, ?_⟩
    · rw [List.foldlM_cons, hupdate]
      exact hrest
    · rwa [List.flatten_cons, ← List.append_assoc]

/-! ## The digest -/

/-- The bytes of `padding` that `sha256_finalize` feeds. -/
theorem padding_take {n : Nat} (h : n < 64) :
    padding.take (if 120 - n > 64 then 120 - n - 64 else 120 - n) =
      0x80 :: List.replicate ((119 - n) % 64) 0 := by
  have hcount : (if 120 - n > 64 then 120 - n - 64 else 120 - n) = (119 - n) % 64 + 1 := by
    split <;> omega
  rw [hcount, padding, List.take_succ_cons, List.take_replicate]
  congr 2
  omega

/-- The eight length bytes that `sha256_finalize` feeds. -/
theorem lengthPad_bytes (n : Nat) :
    leBytes 8 (byteswap64 (UInt64.ofNat n)).toNat = beBytes 8 n := by
  rw [leBytes_byteswap64, beBytes, beBytes, UInt64.toNat_ofNat']
  exact congrArg List.reverse (leBytes_mod 8 n)

theorem sha256_finalize_fed {sc : sha256_ctx_t} {message : List UInt8} (h : Fed sc message) :
    sha256_finalize sc = some (standard.digest message) := by
  obtain ⟨sc₁, hpad, hfed₁⟩ := sha256_update_fed h
    (padding.take (if 120 - sc.bufferLength > 64 then 120 - sc.bufferLength - 64
      else 120 - sc.bufferLength))
  obtain ⟨sc₂, hlength, hfed₂⟩ := sha256_update_fed hfed₁
    (leBytes 8 (byteswap64 sc.totalLength).toNat)
  have hmessage : message ++ padding.take (if 120 - sc.bufferLength > 64
      then 120 - sc.bufferLength - 64 else 120 - sc.bufferLength) ++
        leBytes 8 (byteswap64 sc.totalLength).toNat = standard.padded message := by
    rw [padding_take h.bufferLength_lt, h.totalLength, lengthPad_bytes, h.bufferLength,
      length_remainder, standard.padded]
  have hwords : sc₂.hash = absorb standard.compress 64 standard.initial (standard.padded message) := by
    rw [hfed₂.hash, hmessage]
  rw [sha256_finalize]
  simp only [hpad, hlength, Option.bind_eq_bind, Option.bind_some, hwords, storeWord_BYTESWAP]
  rfl

/-- However a message is cut into pieces, the context that is fed with them gives the digest of
the standard, and no copy leaves the buffer. -/
theorem sha256_of_pieces (sc : sha256_ctx_t) (pieces : List (List UInt8)) :
    (pieces.foldlM sha256_update (sha256_init sc)).bind sha256_finalize =
      some (standard.digest pieces.flatten) := by
  obtain ⟨sc', hpieces, hfed⟩ := foldlM_update_fed (fed_init sc) pieces
  rw [hpieces, Option.bind_some, sha256_finalize_fed hfed, List.nil_append]

theorem computeSHA256_eq (sc : sha256_ctx_t) (input : Memory) (size : UInt32) :
    computeSHA256 sc input size = some (standard.digest (window input 0 size.toNat)) := by
  obtain ⟨sc', hupdate, hfed⟩ := sha256_update_fed (fed_init sc) (window input 0 size.toNat)
  rw [computeSHA256, hupdate]
  exact sha256_finalize_fed hfed

/-! ## Equal digests -/

def guts (hash : Registers) (block : List UInt8) : Registers := SHA256Guts hash (loadWords block)

/-- The hash words and the block of each call of `SHA256Guts` for a message, in their order. -/
def gutsCalls (message : List UInt8) : List (Registers × List UInt8) :=
  steps guts standard.initial (blocks 64 (standard.padded message))

/-- The padding of the standard, as the general one. -/
theorem padded_eq (message : List UInt8) : standard.padded message =
    strengthened 64 8 0x80 0 (fun len => beBytes 8 (8 * len)) message := rfl

theorem words_injective {r r' : Registers} (h : r.words = r'.words) : r = r' := by
  cases r
  cases r'
  simpa [Registers.words] using h

theorem beBytes_toNat_injective : Function.Injective (fun x : UInt32 => beBytes 4 x.toNat) := by
  intro x y h
  exact UInt32.toNat_inj.mp (beBytes_injective (by simpa using x.toNat_lt)
    (by simpa using y.toNat_lt) h)

/-- The digest through the calls of `SHA256Guts`. -/
def digestByGuts (message : List UInt8) : List UInt8 :=
  (absorb guts 64 standard.initial (standard.padded message)).words.flatMap
    (fun x => beBytes 4 x.toNat)

theorem digestByGuts_eq (message : List UInt8) : digestByGuts message = standard.digest message := by
  rw [digestByGuts, standard.digest,
    absorb_congr guts (by decide) (fun hash block hlen => SHA256Guts_eq hash hlen.ge)]

theorem absorb_guts_of_digest_eq {x y : List UInt8} (h : standard.digest x = standard.digest y) :
    absorb guts 64 standard.initial (standard.padded x) =
      absorb guts 64 standard.initial (standard.padded y) := by
  have hlen : ∀ w : UInt32, (beBytes 4 w.toNat).length = 4 := fun w => beBytes_length 4 _
  rw [← digestByGuts_eq, ← digestByGuts_eq] at h
  exact words_injective (flatMap_injective beBytes_toNat_injective hlen rfl h)

theorem length_padded (message : List UInt8) : 64 ∣ (standard.padded message).length := by
  rw [padded_eq]
  exact dvd_length_strengthened (by decide) (fun len => beBytes_length 8 _) message

theorem padded_suffix_free {x y : List UInt8} (hx : x.length < 2 ^ 32) (hy : y.length < 2 ^ 32)
    (h : standard.padded x <:+ standard.padded y) : x = y := by
  rw [padded_eq, padded_eq] at h
  refine strengthened_suffix_free (fun len => beBytes_length 8 _) ?_ h
  intro heq
  have := beBytes_injective (by norm_num; omega) (by norm_num; omega) heq
  omega

/-- Two different messages with one digest. -/
theorem calls_collide {x y : List UInt8} (hx : x.length < 2 ^ 32) (hy : y.length < 2 ^ 32)
    (hne : x ≠ y) (h : standard.digest x = standard.digest y) :
    Collide guts (gutsCalls x) (gutsCalls y) :=
  collide_of_absorb_eq guts (by decide) (length_padded x) (length_padded y)
    (fun hends => hne (padded_suffix_free hx hy hends))
    (fun hends => hne (padded_suffix_free hy hx hends).symm) (absorb_guts_of_digest_eq h)

/-- Unless two calls of `SHA256Guts` collide on the way, the digest tells its inputs apart. -/
theorem computeSHA256_tells_apart (sc sc' : sha256_ctx_t) (input input' : Memory)
    (size size' : UInt32)
    (hfree : ¬ Collide guts (gutsCalls (window input 0 size.toNat))
      (gutsCalls (window input' 0 size'.toNat))) :
    computeSHA256 sc input size = computeSHA256 sc' input' size' ↔
      window input 0 size.toNat = window input' 0 size'.toNat := by
  rw [computeSHA256_eq, computeSHA256_eq, Option.some_inj]
  constructor
  · intro h
    by_contra hne
    apply hfree
    apply calls_collide
    · simpa using size.toNat_lt
    · simpa using size'.toNat_lt
    · exact hne
    · exact h
  · intro h
    rw [h]

/-- One zero byte and no byte, from a context of zeros. -/
theorem computeSHA256_tells_a_byte_from_none :
    computeSHA256 ⟨0, default, 0, ⟨List.replicate 64 0, rfl⟩⟩ (fun _ => 0) 1 =
        computeSHA256 ⟨0, default, 0, ⟨List.replicate 64 0, rfl⟩⟩ (fun _ => 0) 0 ↔
      window (fun _ => 0) 0 (1 : UInt32).toNat = window (fun _ => 0) 0 (0 : UInt32).toNat :=
  computeSHA256_tells_apart _ _ _ _ _ _ (by decide +kernel)

end bitcoinstats.sha256
