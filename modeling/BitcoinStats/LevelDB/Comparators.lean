-- The order of slices (`slice.h`) and the comparators (`util/comparator.cc`): a
-- total order, and short keys that lie where the index blocks need them.
import BitcoinStats.LevelDB.Coding

namespace bitcoinstats.leveldb

/-- The sign of `memcmp` on the first `n` bytes of two slices that have them. -/
def memcmp : Nat → Slice → Slice → Ordering
  | n + 1, a :: s, b :: t => (compare a b).then (memcmp n s t)
  | _, _, _ => .eq

/-- The sign of the result. -/
def Slice.compare (a b : Slice) : Ordering :=
  let min_len := if a.length < b.length then a.length else b.length
  let r := memcmp min_len a b
  if r = .eq then
    if a.length < b.length then .lt else if a.length > b.length then .gt else r
  else r

structure Comparator where
  Compare : Slice → Slice → Ordering
  FindShortestSeparator : Slice → Slice → Slice
  FindShortSuccessor : Slice → Slice

/-- The length of the common prefix: the loop of `FindShortestSeparator`. -/
def diffIndex : Slice → Slice → Nat
  | a :: start, b :: limit => if a = b then diffIndex start limit + 1 else 0
  | _, _ => 0

def BytewiseComparator : Comparator where
  Compare := Slice.compare
  FindShortestSeparator start limit :=
    let min_length := min start.length limit.length
    let diff_index := diffIndex start limit
    if diff_index ≥ min_length then start
    else
      let diff_byte := start.getD diff_index 0
      if diff_byte < 255 ∧ diff_byte.toNat + 1 < (limit.getD diff_index 0).toNat then
        (start.set diff_index (diff_byte + 1)).take (diff_index + 1)
      else start
  FindShortSuccessor key :=
    match key.findIdx? (fun byte => byte ≠ 255) with
    | some i => (key.set i (key.getD i 0 + 1)).take (i + 1)
    | none => key

/-! ## The order -/

theorem memcmp_cons (n : ℕ) (a b : UInt8) (s t : Slice) :
    memcmp (n + 1) (a :: s) (b :: t) = (compare a b).then (memcmp n s t) := rfl

/-- The bytes decide, and then the lengths: the lexicographic order. -/
theorem Slice.compare_eq (a b : Slice) : Slice.compare a b = Ord.compare a b := by
  induction a generalizing b with
  | nil =>
    cases b with
    | nil => rfl
    | cons y b => simp [Slice.compare, memcmp, List.compare_nil_cons]
  | cons x a ih =>
    cases b with
    | nil => simp [Slice.compare, memcmp, List.compare_cons_nil]
    | cons y b =>
      have hmin : (if (x :: a).length < (y :: b).length then (x :: a).length else (y :: b).length) =
          (if a.length < b.length then a.length else b.length) + 1 := by
        simp only [List.length_cons, Nat.add_lt_add_iff_right]
        split <;> rfl
      rw [List.compare_cons_cons, ← ih, Slice.compare, hmin, memcmp_cons]
      cases hxy : Ord.compare x y with
      | lt => simp
      | gt => simp
      | eq => simp [Slice.compare]

instance : Std.TransCmp BytewiseComparator.Compare := by
  have heq : BytewiseComparator.Compare = Ord.compare := funext fun a => funext (Slice.compare_eq a)
  rw [heq]
  infer_instance

instance : Std.LawfulEqCmp BytewiseComparator.Compare := by
  have heq : BytewiseComparator.Compare = Ord.compare := funext fun a => funext (Slice.compare_eq a)
  rw [heq]
  infer_instance

/-! ## Separators -/

/-- What `comparator.h` asks of a comparator. -/
structure Comparator.Lawful (c : Comparator) : Prop where
  total : Std.TransCmp c.Compare
  same : Std.LawfulEqCmp c.Compare
  separator : ∀ start limit, c.Compare start limit = .lt →
    (c.Compare start (c.FindShortestSeparator start limit)).isLE ∧
      c.Compare (c.FindShortestSeparator start limit) limit = .lt
  unchanged : ∀ start, c.FindShortestSeparator start start = start
  successor : ∀ key, (c.Compare key (c.FindShortSuccessor key)).isLE

theorem Slice.compare_cons_self (x : UInt8) (a b : Slice) :
    Slice.compare (x :: a) (x :: b) = Slice.compare a b := by
  rw [compare_eq, compare_eq, List.compare_cons_cons, Std.ReflOrd.compare_self, Ordering.then]

theorem Slice.compare_cons_of_lt {x y : UInt8} (h : x < y) (a b : Slice) :
    Slice.compare (x :: a) (y :: b) = .lt := by
  have hlt : Ord.compare x y = .lt := by
    rw [Std.compare_eq_lt]
    exact h
  rw [compare_eq, List.compare_cons_cons, hlt]
  rfl

theorem Slice.compare_self (a : Slice) : Slice.compare a a = .eq := by
  rw [compare_eq, Std.ReflOrd.compare_self]

/-- A common first byte stays. -/
theorem FindShortestSeparator_cons_self (x : UInt8) (start limit : Slice) :
    BytewiseComparator.FindShortestSeparator (x :: start) (x :: limit) =
      x :: BytewiseComparator.FindShortestSeparator start limit := by
  simp only [BytewiseComparator, diffIndex, if_pos, List.length_cons, Nat.add_min_add_right,
    ge_iff_le, Nat.add_le_add_iff_right, List.getD_cons_succ, List.set_cons_succ,
    List.take_succ_cons]
  split_ifs <;> rfl

theorem FindShortestSeparator_cons_ne {x y : UInt8} (h : x ≠ y) (start limit : Slice) :
    BytewiseComparator.FindShortestSeparator (x :: start) (y :: limit) =
      if x < 255 ∧ x.toNat + 1 < y.toNat then [x + 1] else x :: start := by
  simp [BytewiseComparator, diffIndex, h]

theorem FindShortSuccessor_cons (x : UInt8) (key : Slice) :
    BytewiseComparator.FindShortSuccessor (x :: key) =
      if x ≠ 255 then [x + 1] else x :: BytewiseComparator.FindShortSuccessor key := by
  by_cases hx : x = 255
  · simp only [BytewiseComparator, List.findIdx?_cons, hx]
    cases key.findIdx? (fun byte => decide (byte ≠ 255)) <;> simp
  · simp [BytewiseComparator, List.findIdx?_cons, hx]

theorem toNat_succ {x : UInt8} (h : x < 255) : (x + 1).toNat = x.toNat + 1 := by
  have hlt : x.toNat < 255 := h
  rw [UInt8.toNat_add]
  change (x.toNat + 1) % 256 = _
  omega

theorem separator_bounds (start limit : Slice) (h : Slice.compare start limit = .lt) :
    (Slice.compare start (BytewiseComparator.FindShortestSeparator start limit)).isLE ∧
      Slice.compare (BytewiseComparator.FindShortestSeparator start limit) limit = .lt := by
  induction start generalizing limit with
  | nil =>
    have hsep : BytewiseComparator.FindShortestSeparator [] limit = [] := by
      simp [BytewiseComparator]
    rw [hsep]
    exact ⟨by simp [Slice.compare_self], h⟩
  | cons x start ih =>
    cases limit with
    | nil => simp [Slice.compare_eq, List.compare_cons_nil] at h
    | cons y limit =>
      by_cases hxy : x = y
      · subst hxy
        rw [Slice.compare_cons_self] at h
        rw [FindShortestSeparator_cons_self, Slice.compare_cons_self, Slice.compare_cons_self]
        exact ih limit h
      · rw [FindShortestSeparator_cons_ne hxy]
        split
        · rename_i hbyte
          have hsucc := toNat_succ hbyte.1
          have hlow : x < x + 1 := by
            change x.toNat < (x + 1).toNat
            omega
          have hhigh : x + 1 < y := by
            change (x + 1).toNat < y.toNat
            omega
          exact ⟨by rw [Slice.compare_cons_of_lt hlow]; rfl, Slice.compare_cons_of_lt hhigh _ _⟩
        · exact ⟨by simp [Slice.compare_self], h⟩

theorem separator_self (start : Slice) :
    BytewiseComparator.FindShortestSeparator start start = start := by
  induction start with
  | nil => rfl
  | cons x start ih => rw [FindShortestSeparator_cons_self, ih]

theorem successor_bound (key : Slice) :
    (Slice.compare key (BytewiseComparator.FindShortSuccessor key)).isLE := by
  induction key with
  | nil => rfl
  | cons x key ih =>
    rw [FindShortSuccessor_cons]
    split
    · rename_i hx
      have hlt : x < 255 := by
        have hne : x.toNat ≠ 255 := fun heq => hx (UInt8.toNat_inj.mp heq)
        have := x.toNat_lt
        change x.toNat < 255
        omega
      have hsucc := toNat_succ hlt
      have hlow : x < x + 1 := by
        change x.toNat < (x + 1).toNat
        omega
      rw [Slice.compare_cons_of_lt hlow]
      rfl
    · rw [Slice.compare_cons_self]
      exact ih

theorem bytewise_lawful : BytewiseComparator.Lawful where
  total := inferInstance
  same := inferInstance
  separator := separator_bounds
  unchanged := separator_self
  successor := successor_bound

end bitcoinstats.leveldb
