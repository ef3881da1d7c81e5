-- Little-endian byte strings and byte memories: the bytes of a number, the
-- window of a memory, and what it means that a memory holds a byte string.
import Mathlib.Tactic

namespace byte_memory

/-! ## The bytes of a number -/

/-- The number that a byte string spells, lowest byte first. -/
def leVal : List UInt8 → Nat
  | [] => 0
  | b :: bs => b.toNat + 256 * leVal bs

/-- The `k` lowest bytes of `n`, lowest byte first. -/
def leBytes : Nat → Nat → List UInt8
  | 0, _ => []
  | k + 1, n => UInt8.ofNat (n % 256) :: leBytes k (n / 256)

@[simp] theorem leVal_nil : leVal [] = 0 := rfl

@[simp] theorem leVal_cons (b : UInt8) (bs : List UInt8) :
    leVal (b :: bs) = b.toNat + 256 * leVal bs := rfl

@[simp] theorem leBytes_length (k n : Nat) : (leBytes k n).length = k := by
  induction k generalizing n with
  | zero => rfl
  | succ k ih => simp [leBytes, ih]

theorem leVal_leBytes (k n : Nat) : leVal (leBytes k n) = n % 256 ^ k := by
  induction k generalizing n with
  | zero => simp [leBytes, Nat.mod_one]
  | succ k ih =>
    have hb : (UInt8.ofNat (n % 256)).toNat = n % 256 := by
      simp [UInt8.toNat_ofNat']
    simp only [leBytes, leVal_cons, ih, hb]
    rw [Nat.pow_succ', Nat.mod_mul]

theorem leVal_leBytes_of_lt {k n : Nat} (h : n < 256 ^ k) : leVal (leBytes k n) = n := by
  rw [leVal_leBytes, Nat.mod_eq_of_lt h]

theorem leVal_lt (bs : List UInt8) : leVal bs < 256 ^ bs.length := by
  induction bs with
  | nil => simp
  | cons b bs ih =>
    have hb := b.toNat_lt
    simp only [leVal_cons, List.length_cons, Nat.pow_succ]
    omega

/-- The bytes of a spelled number are the byte string itself. -/
theorem leBytes_leVal (bs : List UInt8) : leBytes bs.length (leVal bs) = bs := by
  induction bs with
  | nil => rfl
  | cons b bs ih =>
    have hb := b.toNat_lt
    have hmod : (b.toNat + 256 * leVal bs) % 256 = b.toNat := by omega
    have hdiv : (b.toNat + 256 * leVal bs) / 256 = leVal bs := by omega
    simp [leBytes, hmod, hdiv, ih]

theorem leVal_append (xs ys : List UInt8) :
    leVal (xs ++ ys) = leVal xs + 256 ^ xs.length * leVal ys := by
  induction xs with
  | nil => simp
  | cons x xs ih =>
    simp only [List.cons_append, leVal_cons, List.length_cons, ih, Nat.pow_succ]
    ring

/-! ## Memories -/

/-- A memory gives a byte at every position. -/
abbrev Memory := Nat → UInt8

/-- The `n` bytes of the memory from position `p` on. -/
def window (mem : Memory) (p : Nat) : Nat → List UInt8
  | 0 => []
  | n + 1 => mem p :: window mem (p + 1) n

/-- The memory has the byte string `bs` from position `p` on. -/
def Holds (mem : Memory) (p : Nat) (bs : List UInt8) : Prop := window mem p bs.length = bs

instance (mem : Memory) (p : Nat) (bs : List UInt8) : Decidable (Holds mem p bs) :=
  inferInstanceAs (Decidable (window mem p bs.length = bs))

@[simp] theorem window_zero (mem : Memory) (p : Nat) : window mem p 0 = [] := rfl

@[simp] theorem window_length (mem : Memory) (p n : Nat) : (window mem p n).length = n := by
  induction n generalizing p with
  | zero => rfl
  | succ n ih => simp [window, ih]

theorem window_add (mem : Memory) (p m n : Nat) :
    window mem p (m + n) = window mem p m ++ window mem (p + m) n := by
  induction m generalizing p with
  | zero => simp
  | succ m ih =>
    rw [show m + 1 + n = (m + n) + 1 by omega]
    simp only [window, List.cons_append, ih]
    rw [show p + 1 + m = p + (m + 1) by omega]

theorem window_getElem (mem : Memory) (p n i : Nat) (h : i < (window mem p n).length) :
    (window mem p n)[i] = mem (p + i) := by
  induction n generalizing p i with
  | zero => simp at h
  | succ n ih =>
    cases i with
    | zero => rfl
    | succ i =>
      simp only [window, List.getElem_cons_succ]
      rw [ih (p + 1) i (by simpa [window] using h)]
      congr 1
      omega

/-- A window sees nothing but its own positions. -/
theorem window_congr {mem mem' : Memory} {p p' n : Nat}
    (h : ∀ i < n, mem (p + i) = mem' (p' + i)) : window mem p n = window mem' p' n := by
  apply List.ext_getElem
  · simp
  · intro i h1 h2
    rw [window_getElem, window_getElem]
    exact h i (by simpa using h1)

theorem holds_iff {mem : Memory} {p : Nat} {bs : List UInt8} :
    Holds mem p bs ↔ ∀ i (h : i < bs.length), mem (p + i) = bs[i] := by
  constructor
  · intro h i hi
    have := List.getElem_of_eq h (i := i) (by simpa using hi)
    rwa [window_getElem] at this
  · intro h
    apply List.ext_getElem
    · simp
    · intro i h1 h2
      rw [window_getElem]
      exact h i h2

@[simp] theorem holds_nil (mem : Memory) (p : Nat) : Holds mem p [] := rfl

@[simp] theorem holds_cons (mem : Memory) (p : Nat) (b : UInt8) (bs : List UInt8) :
    Holds mem p (b :: bs) ↔ mem p = b ∧ Holds mem (p + 1) bs := by
  simp [Holds, window]

@[simp] theorem holds_append (mem : Memory) (p : Nat) (xs ys : List UInt8) :
    Holds mem p (xs ++ ys) ↔ Holds mem p xs ∧ Holds mem (p + xs.length) ys := by
  unfold Holds
  rw [List.length_append, window_add]
  constructor
  · intro h
    exact List.append_inj h (by simp)
  · rintro ⟨h1, h2⟩
    rw [h1, h2]

/-- The part of a list of strings that belongs to its entry `i`. -/
theorem Holds.flatMap_getElem {ω : Type} {f : ω → List UInt8} {mem : Memory} {p : Nat}
    {ws : List ω} (h : Holds mem p (ws.flatMap f)) (i : Nat) (hi : i < ws.length) :
    Holds mem (p + ((ws.take i).flatMap f).length) (f ws[i]) := by
  have hsplit : ws = ws.take i ++ ws[i] :: ws.drop (i + 1) := by
    rw [List.getElem_cons_drop, List.take_append_drop]
  rw [hsplit, List.flatMap_append, List.flatMap_cons, holds_append, holds_append] at h
  exact h.2.1

theorem holds_window (mem : Memory) (p n : Nat) : Holds mem p (window mem p n) := by
  simp [Holds]

theorem Holds.window_eq {mem : Memory} {p n : Nat} {bs : List UInt8} (h : Holds mem p bs)
    (hn : bs.length = n) : window mem p n = bs := by
  rw [← hn]
  exact h

theorem window_take {mem : Memory} {p : Nat} {bs : List UInt8} (h : Holds mem p bs) (n : Nat)
    (hn : n ≤ bs.length) : window mem p n = bs.take n := by
  have hsplit := window_add mem p n (bs.length - n)
  rw [Nat.add_sub_cancel' hn, h] at hsplit
  rw [hsplit, List.take_left' (window_length mem p n)]

/-- A memory holds one string of each length at each place. -/
theorem Holds.unique {mem : Memory} {p : Nat} {xs ys : List UInt8} (hx : Holds mem p xs)
    (hy : Holds mem p ys) (h : xs.length = ys.length) : xs = ys := by
  rw [← hx.window_eq h]
  exact hy

/-- Two strings that one memory holds at one place: the shorter starts the longer. -/
theorem Holds.isPrefix {mem : Memory} {p : Nat} {xs ys : List UInt8} (hx : Holds mem p xs)
    (hy : Holds mem p ys) (h : xs.length ≤ ys.length) : xs <+: ys := by
  refine ⟨window mem (p + xs.length) (ys.length - xs.length), ?_⟩
  have hsplit := window_add mem p xs.length (ys.length - xs.length)
  rw [Nat.add_sub_cancel' h, hx, hy] at hsplit
  exact hsplit.symm

/-- The memory after the bytes `chunk` were copied to its start. -/
def overlay (chunk : List UInt8) (mem : Memory) : Memory := fun i => chunk.getD i (mem i)

theorem holds_overlay (chunk : List UInt8) (mem : Memory) : Holds (overlay chunk mem) 0 chunk := by
  rw [holds_iff]
  intro i hi
  simp [overlay, List.getD_eq_getElem?_getD, List.getElem?_eq_getElem hi]

/-- A window that lies in the bytes. -/
theorem window_overlay {chunk : List UInt8} {p n : Nat} (h : p + n ≤ chunk.length)
    (mem : Memory) : window (overlay chunk mem) p n = (chunk.drop p).take n := by
  apply List.ext_getElem
  · rw [window_length, List.length_take, List.length_drop]
    omega
  · intro i hi hi'
    have hlt : i < n := by rwa [window_length] at hi
    rw [window_getElem, List.getElem_take, List.getElem_drop, overlay, List.getD_eq_getElem?_getD,
      List.getElem?_eq_getElem (by omega), Option.getD_some]

/-- What the bytes start with is at the start of the memory. -/
theorem holds_overlay_append {chunk xs rest : List UInt8} (h : chunk = xs ++ rest) (mem : Memory) :
    Holds (overlay chunk mem) 0 xs := by
  subst h
  exact ((holds_append _ _ _ _).mp (holds_overlay (xs ++ rest) mem)).1

/-- The part of a slice of a list that lies between two others. -/
theorem slice_of_slice {l xs ys zs : List UInt8} {start n : Nat}
    (h : (l.drop start).take n = xs ++ ys ++ zs) :
    (l.drop (start + xs.length)).take ys.length = ys := by
  have hsplit : l.drop start = xs ++ (ys ++ (zs ++ (l.drop start).drop n)) := by
    rw [← List.append_assoc, ← List.append_assoc, ← h, List.take_append_drop]
  rw [← List.drop_drop, hsplit, List.drop_left, List.take_left]

/-! ## Numbers in a memory -/

/-- The value of `n` little-endian bytes of the memory. -/
def readLe (mem : Memory) (p n : Nat) : Nat := leVal (window mem p n)

theorem readLe_lt (mem : Memory) (p n : Nat) : readLe mem p n < 256 ^ n := by
  have h := leVal_lt (window mem p n)
  rwa [window_length] at h

theorem holds_readLe (mem : Memory) (p n : Nat) : Holds mem p (leBytes n (readLe mem p n)) := by
  have h := leBytes_leVal (window mem p n)
  rw [window_length] at h
  rw [readLe, h]
  exact holds_window mem p n

theorem readLe_of_holds {mem : Memory} {p k n : Nat} (h : Holds mem p (leBytes k n))
    (hn : n < 256 ^ k) : readLe mem p k = n := by
  rw [readLe, h.window_eq (leBytes_length k n), leVal_leBytes_of_lt hn]

theorem readLe_succ (mem : Memory) (p n : Nat) :
    readLe mem p (n + 1) = (mem p).toNat + 256 * readLe mem (p + 1) n := rfl

theorem readLe_add (mem : Memory) (p m n : Nat) :
    readLe mem p (m + n) = readLe mem p m + 256 ^ m * readLe mem (p + m) n := by
  simp only [readLe, window_add, leVal_append, window_length]

/-- The highest byte is the last one. -/
theorem readLe_snoc (mem : Memory) (p n : Nat) :
    readLe mem p (n + 1) = readLe mem p n + 256 ^ n * (mem (p + n)).toNat := by
  rw [readLe_add]
  simp [readLe, window]

theorem readLe_congr {mem mem' : Memory} {p p' n : Nat}
    (h : ∀ i < n, mem (p + i) = mem' (p' + i)) : readLe mem p n = readLe mem' p' n := by
  rw [readLe, readLe, window_congr h]

theorem readLe_zero (p n : Nat) : readLe (fun _ => 0) p n = 0 := by
  induction n generalizing p with
  | zero => rfl
  | succ n ih => simp [readLe_succ, ih]

/-- A number below `256 ^ k` has only zeros from the byte `k` on. -/
theorem readLe_zero_above {mem : Memory} {p k n i : Nat} (h : readLe mem p n < 256 ^ k) (hk : k ≤ i)
    (hi : i < n) : mem (p + i) = 0 := by
  obtain ⟨r, rfl⟩ := Nat.exists_eq_add_of_lt hi
  by_contra hne
  have hbyte : 0 < (mem (p + i)).toNat :=
    Nat.pos_of_ne_zero (fun h0 => hne (UInt8.toNat_inj.mp h0))
  have hpow : 256 ^ k ≤ 256 ^ i := Nat.pow_le_pow_right (by omega) hk
  have hmul : 256 ^ i * 1 ≤ 256 ^ i * (mem (p + i)).toNat := Nat.mul_le_mul_left _ hbyte
  rw [show i + r + 1 = i + 1 + r by omega, readLe_add, readLe_snoc] at h
  omega

theorem leBytes_snoc {k m q : Nat} (hm : m < 256 ^ k) (hq : q < 256) :
    leBytes (k + 1) (m + 256 ^ k * q) = leBytes k m ++ [UInt8.ofNat q] := by
  have hlast : (UInt8.ofNat q).toNat = q := by simp [Nat.mod_eq_of_lt hq]
  have hval : leVal (leBytes k m ++ [UInt8.ofNat q]) = m + 256 ^ k * q := by
    rw [leVal_append, leVal_leBytes_of_lt hm]
    simp [hlast]
  have h := leBytes_leVal (leBytes k m ++ [UInt8.ofNat q])
  rw [hval] at h
  simpa using h

theorem leBytes_take {j k : Nat} (h : j ≤ k) (n : Nat) : (leBytes k n).take j = leBytes j n := by
  induction j generalizing k n with
  | zero => rfl
  | succ j ih =>
    obtain ⟨k, rfl⟩ : ∃ m, k = m + 1 := ⟨k - 1, by omega⟩
    simp [leBytes, ih (Nat.le_of_succ_le_succ h)]

/-- The byte at the top. -/
theorem leBytes_top {k q : Nat} (hq : q < 256 ^ (k + 1)) :
    (leBytes (k + 1) q).getD k 0 = UInt8.ofNat (q / 256 ^ k) := by
  have hpow : 0 < 256 ^ k := by positivity
  have hlt : q / 256 ^ k < 256 := by
    rw [Nat.div_lt_iff_lt_mul hpow]
    rwa [Nat.pow_succ'] at hq
  have hsplit := leBytes_snoc (Nat.mod_lt q hpow) hlt
  rw [Nat.mod_add_div] at hsplit
  rw [hsplit]
  simp [List.getD_eq_getElem?_getD]

/-- The low bytes of a number that are copied to the start of a memory. -/
theorem readLe_copied (mem : Memory) {j k q : Nat} (h : j ≤ k) (hq : q < 256 ^ j) :
    readLe (fun i => if i < j then (leBytes k q).getD i 0 else mem i) 0 j = q := by
  refine readLe_of_holds ?_ hq
  rw [holds_iff, ← leBytes_take h]
  intro i hi
  have hi' : i < j := by simpa [leBytes_take h] using hi
  rw [List.getElem_take, Nat.zero_add, if_pos hi', List.getD_eq_getElem?_getD,
    List.getElem?_eq_getElem (by simp; omega), Option.getD_some]

/-! ## What a loop leaves alone -/

/-- The two memories agree outside the positions `p` to `p + n - 1`. -/
def AgreeOutside (p n : Nat) (mem mem' : Memory) : Prop :=
  ∀ i, i < p ∨ p + n ≤ i → mem' i = mem i

theorem AgreeOutside.refl (p n : Nat) (mem : Memory) : AgreeOutside p n mem mem := fun _ _ => rfl

theorem AgreeOutside.readLe_eq {p n q k : Nat} {mem mem' : Memory} (h : AgreeOutside p n mem mem')
    (hq : q + k ≤ p ∨ p + n ≤ q) : readLe mem' q k = readLe mem q k := by
  apply readLe_congr
  intro i hi
  exact h (q + i) (by omega)

/-- A store at the first position, and then only stores behind it. -/
theorem AgreeOutside.store {p n : Nat} {mem mem' : Memory} {v : UInt8}
    (h : AgreeOutside (p + 1) n (Function.update mem p v) mem') : AgreeOutside p (n + 1) mem mem' := by
  intro i hi
  rw [h i (by omega), Function.update_of_ne (by omega)]

theorem AgreeOutside.stored {p n : Nat} {mem mem' : Memory} {v : UInt8}
    (h : AgreeOutside (p + 1) n (Function.update mem p v) mem') : mem' p = v := by
  rw [h p (by omega), Function.update_self]

theorem readLe_update {mem : Memory} {p q n : Nat} {v : UInt8} (h : p < q ∨ q + n ≤ p) :
    readLe (Function.update mem p v) q n = readLe mem q n := by
  apply readLe_congr
  intro i hi
  rw [Function.update_of_ne (by omega)]

end byte_memory
