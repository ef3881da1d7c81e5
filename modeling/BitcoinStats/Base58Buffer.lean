-- The base 58 encoder over the memory of its caller. `Base58` lists the
-- characters of the output; here every store goes to a place of the buffer, and
-- the places go on record.
import BitcoinStats.Base58Encoder

open byte_memory

namespace bitcoinstats.base58

/-! ## The encoder and its stores -/

/-- The buffer of the caller, and the indices that were stored to. -/
structure Output where
  str : Memory
  stores : List Nat

/-- `str[i] = c`. -/
def Output.store (out : Output) (i : Nat) (c : UInt8) : Output :=
  { str := Function.update out.str i c, stores := out.stores ++ [i] }

@[simp] theorem store_str (out : Output) (i : Nat) (c : UInt8) :
    (out.store i c).str = Function.update out.str i c := rfl

/-- The loop over the zero bytes, down from the byte `y`. -/
def storeZeros (data : Memory) : Nat → Nat → Output → Nat × Output
  | 0, x, out => (x, out)
  | y + 1, x, out =>
    if data y = 0 then storeZeros data y (x + 1) (out.store x 49) else (x, out)

/-- The division loop; `false` when the string is out of room. -/
def storeDigits (maxStrLen : Nat) :
    Nat → BigNumber → Nat → Output → Option (Bool × BigNumber × Nat × Output)
  | 0, _, _, _ => none
  | fuel + 1, bi, x, out =>
    if bi.compareTo58 = .CB_COMPARE_LESS_THAN then some (true, bi, x, out)
    else do
      let mod ← bi.moduloWith58
      if bi.length < x + 3 ∧ maxStrLen < x + 3 then some (false, bi, x, out)
      else
        let c ← base58Characters[mod.toNat]?
        let bi ← bi.equalsSubtractionByUInt8 mod
        let bi ← bi.equalsDivisionBy58
        storeDigits maxStrLen fuel bi (x + 1) (out.store x c)

/-- The swaps, from the turn `y` on. -/
def storeReversal (x zeros : Nat) : Nat → Nat → Output → Output
  | 0, _, out => out
  | turns + 1, y, out =>
    let temp := out.str (y + zeros)
    let out := out.store (y + zeros) (out.str (x - y - 1))
    storeReversal x zeros turns (y + 1) (out.store (x - y - 1) temp)

/-- `CBEncodeBase58`: what it returns, and the buffer behind it. -/
def cbEncodeBase58Into (bi : BigNumber) (maxStrLen : Nat) (out : Output) :
    Option (Bool × Output) :=
  if maxStrLen < bi.length then some (false, out)
  else if bi.length = 0 ∨ MAX_BIG_NUMBER < bi.length then none
  else do
    let (zeros, out) := storeZeros bi.data bi.length 0 out
    let (room, bi, x, out) ← storeDigits maxStrLen (2 * bi.length + 2) bi zeros out
    if room then
      let c ← base58Characters[(bi.data (bi.length - 1)).toNat]?
      let out := out.store x c
      let x := x + 1
      some (true, (storeReversal x zeros ((x - zeros) / 2) 0 out).store x 0)
    else some (false, out)

/-- `encodeBase58`, with `str` in the buffer of the caller before. -/
def encodeBase58Into (bigNumber : List UInt8) (length : Nat) (isBigEndian : Bool)
    (maxStrLen : Nat) (str : Memory) : Option (Bool × Output) := do
  if length ≤ 25 then
    let hash ←
      if isBigEndian then
        (List.range 25).mapM (fun i => if i < length then bigNumber[length - 1 - i]? else none)
      else (List.range length).mapM (fun i => bigNumber[i]?)
    cbEncodeBase58Into (BigNumber.ofBytes hash length) maxStrLen { str := str, stores := [] }
  else none

/-! ## The buffer holds the listed characters -/

/-- The characters stand at the start of the buffer, and nothing was stored behind them. -/
structure Written (out : Output) (cs : List UInt8) : Prop where
  str : Holds out.str 0 cs
  stores : ∀ i ∈ out.stores, i < cs.length

theorem Written.nothing (str : Memory) : Written { str := str, stores := [] } [] where
  str := holds_nil str 0
  stores := by simp

theorem Written.get {out : Output} {cs : List UInt8} (h : Written out cs) {i : Nat}
    (hi : i < cs.length) : out.str i = cs.getD i 0 := by
  have hbyte := holds_iff.mp h.str i hi
  rw [Nat.zero_add] at hbyte
  rw [hbyte, List.getD_eq_getElem?_getD, List.getElem?_eq_getElem hi, Option.getD_some]

/-- A store right behind the characters. -/
theorem Written.append {out : Output} {cs : List UInt8} (h : Written out cs) (c : UInt8) :
    Written (out.store cs.length c) (cs ++ [c]) where
  str := by
    rw [holds_append, Nat.zero_add]
    refine ⟨?_, by simp⟩
    rw [holds_iff]
    intro i hi
    have hbyte := holds_iff.mp h.str i hi
    rw [Nat.zero_add] at hbyte ⊢
    rw [store_str, Function.update_of_ne (by omega), hbyte]
  stores := by
    intro i hi
    rw [List.length_append, List.length_singleton]
    rcases List.mem_append.mp hi with hold | hnew
    · have hlt := h.stores i hold
      omega
    · rw [List.mem_singleton.mp hnew]
      omega

/-- A store among the characters. -/
theorem Written.set {out : Output} {cs : List UInt8} (h : Written out cs) {i : Nat}
    (hi : i < cs.length) (c : UInt8) : Written (out.store i c) (cs.set i c) where
  str := by
    rw [holds_iff]
    intro j hj
    rw [List.length_set] at hj
    have hbyte := holds_iff.mp h.str j hj
    rw [Nat.zero_add] at hbyte ⊢
    rw [List.getElem_set]
    by_cases hij : i = j
    · subst hij
      simp
    · rw [if_neg hij, store_str, Function.update_of_ne (Ne.symm hij), hbyte]
  stores := by
    intro j hj
    rw [List.length_set]
    rcases List.mem_append.mp hj with hold | hnew
    · exact h.stores j hold
    · rw [List.mem_singleton.mp hnew]
      exact hi

theorem storeZeros_written (data : Memory) (n : Nat) {out : Output} {cs : List UInt8}
    (h : Written out cs) :
    ∃ out', storeZeros data n cs.length out = ((leadingZeros data n cs).length, out') ∧
      Written out' (leadingZeros data n cs) := by
  induction n generalizing out cs with
  | zero => exact ⟨out, rfl, h⟩
  | succ n ih =>
    unfold storeZeros leadingZeros
    split
    · have hnext := ih (h.append 49)
      rw [List.length_append, List.length_singleton] at hnext
      exact hnext
    · exact ⟨out, rfl, h⟩

theorem storeDigits_written {maxStrLen fuel : Nat} {bi bi' : BigNumber} {room : Bool}
    {out : Output} {cs cs' : List UInt8} (h : Written out cs)
    (hrun : encodeLoop maxStrLen fuel bi cs = some (room, bi', cs')) :
    ∃ out', storeDigits maxStrLen fuel bi cs.length out = some (room, bi', cs'.length, out') ∧
      Written out' cs' ∧ cs.length ≤ cs'.length := by
  induction fuel generalizing bi out cs with
  | zero => cases hrun
  | succ fuel ih =>
    unfold encodeLoop at hrun
    unfold storeDigits
    by_cases hless : bi.compareTo58 = .CB_COMPARE_LESS_THAN
    · rw [if_pos hless] at hrun ⊢
      cases hrun
      exact ⟨out, rfl, h, le_refl _⟩
    · rw [if_neg hless] at hrun ⊢
      simp only [Option.bind_eq_bind, Option.bind_eq_some_iff] at hrun ⊢
      obtain ⟨mod, hmod, hrun⟩ := hrun
      by_cases hfull : bi.length < cs.length + 3 ∧ maxStrLen < cs.length + 3
      · rw [if_pos hfull] at hrun
        cases hrun
        exact ⟨out, ⟨mod, hmod, by rw [if_pos hfull]⟩, h, le_refl _⟩
      · rw [if_neg hfull] at hrun
        simp only [Option.bind_eq_some_iff] at hrun
        obtain ⟨c, hc, bi1, hsub, bi2, hdiv, hrun⟩ := hrun
        obtain ⟨out', hloop, hwritten, hle⟩ := ih (h.append c) hrun
        rw [List.length_append, List.length_singleton] at hloop hle
        refine ⟨out', ⟨mod, hmod, ?_⟩, hwritten, by omega⟩
        rw [if_neg hfull]
        simp only [hc, hsub, hdiv, Option.bind_some, hloop]

theorem reversalLoop_length (zeros turns y : Nat) (cs : List UInt8) :
    (reversalLoop zeros turns y cs).length = cs.length := by
  induction turns generalizing y cs with
  | zero => rfl
  | succ turns ih =>
    unfold reversalLoop
    rw [ih, List.length_set, List.length_set]

/-- The swaps stay among the characters behind the leading ones. -/
theorem storeReversal_written (zeros turns y : Nat) {out : Output} {cs : List UInt8}
    (h : Written out cs) (hturns : zeros + 2 * (y + turns) ≤ cs.length) :
    Written (storeReversal cs.length zeros turns y out) (reversalLoop zeros turns y cs) := by
  induction turns generalizing y out cs with
  | zero => exact h
  | succ turns ih =>
    unfold storeReversal reversalLoop
    simp only
    rw [h.get (by omega : y + zeros < cs.length), h.get (by omega : cs.length - y - 1 < cs.length)]
    obtain ⟨cs', hcs'⟩ : ∃ cs', cs' = (cs.set (y + zeros) (cs.getD (cs.length - y - 1) 0)).set
        (cs.length - y - 1) (cs.getD (y + zeros) 0) := ⟨_, rfl⟩
    have hlen : cs'.length = cs.length := by rw [hcs', List.length_set, List.length_set]
    have hswap : Written ((out.store (y + zeros) (cs.getD (cs.length - y - 1) 0)).store
        (cs.length - y - 1) (cs.getD (y + zeros) 0)) cs' := by
      rw [hcs']
      apply Written.set
      · exact h.set (by omega) _
      · rw [List.length_set]
        omega
    have hnext := ih (y + 1) hswap (by omega)
    rw [hlen] at hnext
    rw [← hcs']
    exact hnext

/-- The encoder returns the same over the buffer, and leaves there what is listed. -/
theorem cbEncodeBase58Into_written {bi : BigNumber} {maxStrLen : Nat} {ok : Bool}
    {cs : List UInt8} (str : Memory) (hrun : cbEncodeBase58 bi maxStrLen = some (ok, cs)) :
    ∃ out, cbEncodeBase58Into bi maxStrLen { str := str, stores := [] } = some (ok, out) ∧
      Written out cs := by
  unfold cbEncodeBase58 at hrun
  unfold cbEncodeBase58Into
  split at hrun
  · rename_i hshort
    cases hrun
    rw [if_pos hshort]
    exact ⟨_, rfl, Written.nothing str⟩
  rename_i hshort
  rw [if_neg hshort]
  split at hrun
  · cases hrun
  rename_i hlen
  rw [if_neg hlen]
  obtain ⟨out1, hones, hwritten1⟩ := storeZeros_written bi.data bi.length (Written.nothing str)
  obtain ⟨ones, hlist⟩ : ∃ ones, ones = leadingZeros bi.data bi.length [] := ⟨_, rfl⟩
  rw [List.length_nil, ← hlist] at hones
  rw [← hlist] at hrun hwritten1
  simp only [Option.bind_eq_bind, Option.bind_eq_some_iff] at hrun
  obtain ⟨⟨room, bi2, cs2⟩, hloop, hrun⟩ := hrun
  obtain ⟨out2, hdigits, hwritten2, hgrow⟩ := storeDigits_written hwritten1 hloop
  simp only [Option.bind_eq_bind, hones, hdigits, Option.bind_some]
  cases room with
  | false =>
    simp only [Bool.false_eq_true, if_false] at hrun ⊢
    cases hrun
    exact ⟨out2, rfl, hwritten2⟩
  | true =>
    simp only [if_true, Option.bind_eq_some_iff] at hrun ⊢
    obtain ⟨c, hc, hrun⟩ := hrun
    cases hrun
    have hturned := storeReversal_written ones.length ((cs2.length + 1 - ones.length) / 2) 0
      (hwritten2.append c) (by rw [List.length_append, List.length_singleton]; omega)
    have hclosed := hturned.append 0
    rw [reversalLoop_length, List.length_append, List.length_singleton] at hclosed
    refine ⟨_, ⟨c, hc, rfl⟩, ?_⟩
    rw [List.length_append, List.length_singleton]
    exact hclosed

theorem encodeBase58Into_written {bytes : List UInt8} {length maxStrLen : Nat}
    {isBigEndian ok : Bool} {cs : List UInt8} (str : Memory)
    (hrun : encodeBase58 bytes length isBigEndian maxStrLen = some (ok, cs)) :
    ∃ out, encodeBase58Into bytes length isBigEndian maxStrLen str = some (ok, out) ∧
      Written out cs := by
  unfold encodeBase58 at hrun
  unfold encodeBase58Into
  by_cases hlen : length ≤ 25
  · rw [if_pos hlen] at hrun ⊢
    cases isBigEndian <;>
    · simp only [Bool.false_eq_true, if_false, if_true, Option.bind_eq_bind,
        Option.bind_eq_some_iff] at hrun ⊢
      obtain ⟨hash, hcopy, hrun⟩ := hrun
      obtain ⟨out, hinto, hwritten⟩ := cbEncodeBase58Into_written str hrun
      exact ⟨out, ⟨hash, hcopy, hinto⟩, hwritten⟩
  · rw [if_neg hlen] at hrun
    cases hrun

/-! ## The room that the caller gives -/

/-- For 25 bytes there is one text. Whatever room the caller gives, nothing is
stored outside of it, and the encoder succeeds, with the text and its closing zero
in the buffer, exactly when there is room for 25 characters and for both. -/
theorem the_encoder_stays_inside_and_fails_only_for_lack_of_room (bytes : Vector UInt8 25) :
    ∃ text : List UInt8, 0 ∉ text ∧ ∀ (maxStrLen : Nat) (str : Memory), ∃ ok out,
      encodeBase58Into bytes.toList 25 true maxStrLen str = some (ok, out) ∧
      (∀ i ∈ out.stores, i < maxStrLen) ∧
      (ok = true ↔ 25 ≤ maxStrLen ∧ text.length + 1 ≤ maxStrLen) ∧
      (ok = true → Holds out.str 0 (text ++ [0])) := by
  refine ⟨writtenText bytes.toList, writtenText_ne_zero bytes, ?_⟩
  intro maxStrLen str
  rcases Nat.lt_or_ge maxStrLen 25 with hshort | hfits
  · obtain ⟨out, hrun, hwritten⟩ := encodeBase58Into_written str (encodeBase58_short bytes hshort)
    refine ⟨false, out, hrun, ?_, iff_of_false (by simp) (by omega), by simp⟩
    intro i hi
    exact absurd (hwritten.stores i hi) (Nat.not_lt_zero i)
  rcases Nat.lt_or_ge (writtenText bytes.toList).length maxStrLen with hroom | hfull
  · obtain ⟨out, hrun, hwritten⟩ :=
      encodeBase58Into_written str (encodeBase58_room bytes hfits hroom)
    refine ⟨true, out, hrun, ?_, iff_of_true rfl ⟨hfits, hroom⟩, fun _ => hwritten.str⟩
    intro i hi
    have hlt := hwritten.stores i hi
    rw [List.length_append, List.length_singleton] at hlt
    omega
  · obtain ⟨cs, hlist, hcs⟩ := encodeBase58_full bytes hfits hfull
    obtain ⟨out, hrun, hwritten⟩ := encodeBase58Into_written str hlist
    refine ⟨false, out, hrun, ?_, iff_of_false (by simp) (by omega), by simp⟩
    intro i hi
    have hlt := hwritten.stores i hi
    omega

end bitcoinstats.base58
