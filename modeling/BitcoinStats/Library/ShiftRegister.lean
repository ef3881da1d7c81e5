-- Shift registers with linear feedback, as cyclic redundancy checks use them:
-- linearity, the register after many bits, and the bursts that it notices.
import Mathlib.Tactic

namespace shift_register

variable {w : ℕ} (p : BitVec w)

/-- One step: the lowest bit leaves the register, and feeds back when it is set. -/
def shift (c : BitVec w) : BitVec w := if c.getLsbD 0 then (c >>> 1) ^^^ p else c >>> 1

/-- `n` steps. -/
def advance (n : ℕ) (c : BitVec w) : BitVec w := (shift p)^[n] c

@[simp] theorem advance_zero (c : BitVec w) : advance p 0 c = c := rfl

theorem advance_succ (n : ℕ) (c : BitVec w) : advance p (n + 1) c = advance p n (shift p c) := rfl

theorem advance_add (m n : ℕ) (c : BitVec w) :
    advance p (m + n) c = advance p m (advance p n c) :=
  Function.iterate_add_apply (shift p) m n c

/-! ## Linearity -/

theorem shift_xor (a b : BitVec w) : shift p (a ^^^ b) = shift p a ^^^ shift p b := by
  simp only [shift, BitVec.getLsbD_xor, BitVec.ushiftRight_xor_distrib]
  cases a.getLsbD 0 <;> cases b.getLsbD 0
  · rfl
  · exact BitVec.xor_assoc _ _ _
  · change a >>> 1 ^^^ b >>> 1 ^^^ p = a >>> 1 ^^^ p ^^^ b >>> 1
    rw [BitVec.xor_assoc, BitVec.xor_assoc, BitVec.xor_comm p]
  · change a >>> 1 ^^^ b >>> 1 = a >>> 1 ^^^ p ^^^ (b >>> 1 ^^^ p)
    rw [BitVec.xor_assoc, BitVec.xor_comm (b >>> 1), ← BitVec.xor_assoc p, BitVec.xor_self,
      BitVec.zero_xor]

theorem advance_xor (n : ℕ) (a b : BitVec w) :
    advance p n (a ^^^ b) = advance p n a ^^^ advance p n b := by
  induction n generalizing a b with
  | zero => rfl
  | succ n ih => rw [advance_succ, advance_succ, advance_succ, shift_xor, ih]

theorem shift_shiftLeft_one {y : BitVec w} (h : y.getLsbD (w - 1) = false) :
    shift p (y <<< 1) = y := by
  have hlow : (y <<< 1).getLsbD 0 = false := by simp
  rw [shift, if_neg (by simp [hlow])]
  apply BitVec.eq_of_getLsbD_eq
  intro i hi
  rw [BitVec.getLsbD_ushiftRight, BitVec.getLsbD_shiftLeft]
  by_cases hlast : i = w - 1
  · subst hlast
    rw [h]
    simp
    omega
  · simp [show 1 + i < w by omega]

/-- Steps that only move the register down. -/
theorem advance_shiftLeft (n : ℕ) {y : BitVec w} (h : ∀ i, w - n ≤ i → y.getLsbD i = false) :
    advance p n (y <<< n) = y := by
  induction n with
  | zero => simp
  | succ n ih =>
    rw [advance_succ, BitVec.shiftLeft_add, shift_shiftLeft_one]
    · exact ih (fun i hi => h i (by omega))
    · rw [BitVec.getLsbD_shiftLeft]
      by_cases hn : w - 1 < n
      · simp [hn]
      · rw [h _ (by omega)]
        simp

/-- The low bits feed back, the others only move down. -/
theorem advance_split (n : ℕ) (x : BitVec w) :
    advance p n x = advance p n (x ^^^ ((x >>> n) <<< n)) ^^^ (x >>> n) := by
  have hhigh : advance p n ((x >>> n) <<< n) = x >>> n := by
    apply advance_shiftLeft
    intro i hi
    rw [BitVec.getLsbD_ushiftRight]
    exact BitVec.getLsbD_of_ge x _ (by omega)
  rw [advance_xor, hhigh, BitVec.xor_assoc, BitVec.xor_self, BitVec.xor_zero]

/-! ## Feeding bits -/

/-- A bit at the low end of the register. -/
def bit (b : Bool) : BitVec w := if b then 1#w else 0#w

def feed (c : BitVec w) (b : Bool) : BitVec w := shift p (c ^^^ bit b)

/-- The register after some bits. -/
def feedBits (c : BitVec w) (bits : List Bool) : BitVec w := bits.foldl (feed p) c

/-- Bits side by side, the first one lowest. -/
def load : List Bool → BitVec w
  | [] => 0#w
  | b :: bits => bit b ^^^ (load bits <<< 1)

theorem feedBits_append (c : BitVec w) (xs ys : List Bool) :
    feedBits p c (xs ++ ys) = feedBits p (feedBits p c xs) ys := List.foldl_append

theorem bit_getLsbD (b : Bool) (i : ℕ) :
    (bit b : BitVec w).getLsbD i = (decide (i = 0) && decide (0 < w) && b) := by
  cases b
  · simp [bit]
  · simp only [bit, if_true, BitVec.getLsbD_one, Bool.and_true]
    by_cases h : i = 0
    · simp [h]
    · simp [h]

theorem load_getLsbD (bits : List Bool) (i : ℕ) :
    (load bits : BitVec w).getLsbD i = (decide (i < w) && bits.getD i false) := by
  induction bits generalizing i with
  | nil => simp [load]
  | cons b bits ih =>
    rw [load, BitVec.getLsbD_xor, bit_getLsbD, BitVec.getLsbD_shiftLeft, ih]
    cases i with
    | zero => simp
    | succ i =>
      by_cases hi : i + 1 < w
      · simp [hi, show i < w by omega]
      · simp [hi]

theorem load_injective {xs ys : List Bool} (hlen : xs.length = ys.length) (hw : xs.length ≤ w)
    (h : (load xs : BitVec w) = load ys) : xs = ys := by
  apply List.ext_getElem hlen
  intro i hx hy
  have hbit := congrArg (fun c : BitVec w => c.getLsbD i) h
  simp only [load_getLsbD] at hbit
  simpa [show i < w by omega, hx, hy, List.getD_eq_getElem?_getD] using hbit

/-- Bits that fit the register may as well come all at once. -/
theorem feedBits_eq (c : BitVec w) (bits : List Bool) (hw : bits.length ≤ w) :
    feedBits p c bits = advance p bits.length (c ^^^ load bits) := by
  induction bits generalizing c with
  | nil => simp [feedBits, load]
  | cons b bits ih =>
    rw [List.length_cons] at hw
    have hmove : shift p (load bits <<< 1) = load bits := by
      apply shift_shiftLeft_one
      rw [load_getLsbD, List.getD_eq_getElem?_getD, List.getElem?_eq_none (by omega)]
      simp
    change feedBits p (feed p c b) bits = _
    rw [ih _ (by omega), feed, List.length_cons, advance_succ, load, ← BitVec.xor_assoc,
      shift_xor p (c ^^^ bit b), hmove]

/-! ## Bursts -/

/-- The feedback fills the top of the register, so a step loses nothing. -/
theorem shift_injective (hp : p.getLsbD (w - 1) = true) : Function.Injective (shift p) := by
  intro a b h
  have hw : 0 < w := by
    by_contra hw
    rw [BitVec.getLsbD_of_ge p _ (by omega)] at hp
    cases hp
  have hzero : shift p (a ^^^ b) = 0#w := by rw [shift_xor, h, BitVec.xor_self]
  have htop : ∀ x : BitVec w, (x >>> 1).getLsbD (w - 1) = false := by
    intro x
    rw [BitVec.getLsbD_ushiftRight]
    exact BitVec.getLsbD_of_ge x _ (by omega)
  have hlow : (a ^^^ b).getLsbD 0 = false := by
    by_contra hlow
    rw [shift, if_pos (by simpa using hlow)] at hzero
    have hbit := congrArg (fun c : BitVec w => c.getLsbD (w - 1)) hzero
    rw [BitVec.getLsbD_xor, htop, hp] at hbit
    simp at hbit
  rw [shift, if_neg (by simp [hlow])] at hzero
  have hall : a ^^^ b = 0#w := by
    apply BitVec.eq_of_getLsbD_eq
    intro i hi
    cases i with
    | zero => simpa using hlow
    | succ i =>
      have hbit := congrArg (fun c : BitVec w => c.getLsbD i) hzero
      simpa [Nat.add_comm] using hbit
  exact BitVec.xor_eq_zero_iff.mp hall

theorem feedBits_injective (hp : p.getLsbD (w - 1) = true) (bits : List Bool) :
    Function.Injective (fun c => feedBits p c bits) := by
  induction bits with
  | nil => exact fun _ _ h => h
  | cons b bits ih =>
    intro c d h
    have hstep := shift_injective p hp (ih h)
    exact (BitVec.xor_left_inj (bit b)).mp hstep

/-- Two bit strings that differ only in a window of at most `w` bits leave different registers. -/
theorem feedBits_burst (hp : p.getLsbD (w - 1) = true) (c : BitVec w) (front : List Bool)
    {xs ys : List Bool} (hlen : xs.length = ys.length) (hw : xs.length ≤ w) (back : List Bool) :
    feedBits p c (front ++ xs ++ back) = feedBits p c (front ++ ys ++ back) ↔ xs = ys := by
  constructor
  · intro h
    rw [feedBits_append, feedBits_append, feedBits_append, feedBits_append] at h
    have hwindow := feedBits_injective p hp back h
    have hxs := feedBits_eq p (feedBits p c front) xs hw
    have hys := feedBits_eq p (feedBits p c front) ys (by omega)
    have hsame : feedBits p (feedBits p c front) xs = feedBits p (feedBits p c front) ys := hwindow
    rw [hxs, hys, hlen] at hsame
    have hstart := (shift_injective p hp).iterate ys.length hsame
    exact load_injective hlen hw ((BitVec.xor_right_inj _).mp hstart)
  · rintro rfl
    rfl

end shift_register
