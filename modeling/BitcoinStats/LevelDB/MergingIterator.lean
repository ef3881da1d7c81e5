-- The iterator over several others (`table/merger.cc`): the entries of all the
-- children in one order, forwards and backwards.
import BitcoinStats.Library.OrderedCursor
import BitcoinStats.LevelDB.Comparators
import BitcoinStats.LevelDB.Files

open ordered_cursor

namespace bitcoinstats.leveldb

/-- The interface of `leveldb/iterator.h`. -/
abbrev Iterator := Cursor Slice Slice Status

abbrev KeyValue := Slice × Slice

inductive Direction where
  | kForward
  | kReverse
  deriving DecidableEq

/-- The children, each with its wrapper up to date; the children of one iterator share their code. -/
structure MergingIterator (it : Iterator) (n : ℕ) where
  children : Fin n → it.State
  current : Option (Fin n)
  direction : Direction

namespace MergingIterator

variable {it : Iterator} {n : ℕ}

def new (children : Fin n → it.State) : MergingIterator it n :=
  { children, current := none, direction := .kForward }

/-- The loop of `FindSmallest` and of `FindLargest`: the first valid child, in the order of the loop,
that no other comes before. -/
def pick (before : Slice → Slice → Bool) (children : Fin n → it.State) (order : List (Fin n)) :
    Option (Fin n) :=
  order.foldl (fun best i =>
    if it.valid (children i) then
      match best with
      | none => some i
      | some b => if before (it.key (children i)) (it.key (children b)) then some i else some b
    else best) none

def FindSmallest (c : Comparator) (m : MergingIterator it n) : MergingIterator it n :=
  { m with current := pick (fun a b => c.Compare a b = .lt) m.children (List.finRange n) }

def FindLargest (c : Comparator) (m : MergingIterator it n) : MergingIterator it n :=
  { m with current := pick (fun a b => c.Compare a b = .gt) m.children (List.finRange n).reverse }

def Valid (m : MergingIterator it n) : Bool := m.current.isSome

def SeekToFirst (c : Comparator) (m : MergingIterator it n) : MergingIterator it n :=
  { FindSmallest c { m with children := fun i => it.seekToFirst (m.children i) } with
    direction := .kForward }

def SeekToLast (c : Comparator) (m : MergingIterator it n) : MergingIterator it n :=
  { FindLargest c { m with children := fun i => it.seekToLast (m.children i) } with
    direction := .kReverse }

def Seek (c : Comparator) (m : MergingIterator it n) (target : Slice) : MergingIterator it n :=
  { FindSmallest c { m with children := fun i => it.seek (m.children i) target } with
    direction := .kForward }

/-- A child that is not the current one, moved behind the key. -/
def moveBehind (c : Comparator) (key : Slice) (child : it.State) : it.State :=
  let child := it.seek child key
  if it.valid child ∧ c.Compare key (it.key child) = .eq then it.next child else child

/-- A child that is not the current one, moved before the key. -/
def moveBefore (key : Slice) (child : it.State) : it.State :=
  let child := it.seek child key
  if it.valid child then it.prev child else it.seekToLast child

def Next (c : Comparator) (m : MergingIterator it n) : MergingIterator it n :=
  match m.current with
  | none => m
  | some cur =>
    let key := it.key (m.children cur)
    let children := if m.direction ≠ .kForward then
      fun i => if i ≠ cur then moveBehind c key (m.children i) else m.children i else m.children
    FindSmallest c
      { children := fun i => if i = cur then it.next (children i) else children i
        current := some cur
        direction := .kForward }

def Prev (c : Comparator) (m : MergingIterator it n) : MergingIterator it n :=
  match m.current with
  | none => m
  | some cur =>
    let key := it.key (m.children cur)
    let children := if m.direction ≠ .kReverse then
      fun i => if i ≠ cur then moveBefore key (m.children i) else m.children i else m.children
    FindLargest c
      { children := fun i => if i = cur then it.prev (children i) else children i
        current := some cur
        direction := .kReverse }

def key (m : MergingIterator it n) : Slice :=
  match m.current with
  | none => []
  | some cur => it.key (m.children cur)

def value (m : MergingIterator it n) : Slice :=
  match m.current with
  | none => []
  | some cur => it.value (m.children cur)

/-- The status of the first child that is not well, or of the last one. -/
def status (m : MergingIterator it n) : Status :=
  (List.finRange n).foldl (fun s i => if s.ok then it.status (m.children i) else s) .OK

def iterator (c : Comparator) (it : Iterator) (n : ℕ) : Iterator where
  State := MergingIterator it n
  valid := Valid
  key := key
  value := value
  status := status
  seekToFirst := SeekToFirst c
  seekToLast := SeekToLast c
  seek := Seek c
  next := Next c
  prev := Prev c

/-! ## The child that is picked -/

/-- What the loop keeps: no child so far comes before the best one. -/
theorem pick_spec {cmp : Slice → Slice → Ordering} [Std.TransCmp cmp] {before : Slice → Slice → Bool}
    (hbefore : ∀ a b, before a b = true ↔ cmp a b = .lt) (children : Fin n → it.State)
    (order : List (Fin n)) :
    (pick before children order = none → ∀ i ∈ order, it.valid (children i) = false) ∧
      ∀ best, pick before children order = some best → it.valid (children best) = true ∧
        ∀ i ∈ order, it.valid (children i) = true →
          (cmp (it.key (children best)) (it.key (children i))).isLE := by
  induction order using List.reverseRecOn with
  | nil => simp [pick]
  | append_singleton order i ih =>
    obtain ⟨hnone, hsome⟩ := ih
    have hstep : pick before children (order ++ [i]) =
        if it.valid (children i) then
          match pick before children order with
          | none => some i
          | some b => if before (it.key (children i)) (it.key (children b)) then some i else some b
        else pick before children order := by
      rw [pick, List.foldl_append]
      rfl
    rw [hstep]
    by_cases hvalid : it.valid (children i)
    · rw [if_pos hvalid]
      cases hbest : pick before children order with
      | none =>
        refine ⟨by simp, ?_⟩
        rintro best ⟨rfl⟩
        refine ⟨hvalid, List.forall_mem_append.mpr ⟨fun j hj hvj => ?_, by simp [Std.ReflCmp.isLE_rfl]⟩⟩
        rw [hnone hbest j hj] at hvj
        exact absurd hvj (by simp)
      | some b =>
        obtain ⟨hb, hmin⟩ := hsome b hbest
        by_cases hlt : before (it.key (children i)) (it.key (children b)) = true
        · simp only [if_pos hlt]
          refine ⟨by simp, ?_⟩
          rintro best ⟨rfl⟩
          refine ⟨hvalid, List.forall_mem_append.mpr ⟨fun j hj hvj => ?_, by simp [Std.ReflCmp.isLE_rfl]⟩⟩
          have hij := Std.TransCmp.lt_of_lt_of_isLE ((hbefore _ _).mp hlt) (hmin j hj hvj)
          simp [hij]
        · simp only [if_neg hlt]
          refine ⟨by simp, ?_⟩
          rintro best ⟨rfl⟩
          have hge : ¬ cmp (it.key (children i)) (it.key (children b)) = .lt :=
            fun h => hlt ((hbefore _ _).mpr h)
          have hle := isLE_of_not_lt hge
          exact ⟨hb, List.forall_mem_append.mpr ⟨hmin, List.forall_mem_singleton.mpr fun _ => hle⟩⟩
    · rw [if_neg hvalid]
      refine ⟨fun hbest => ?_, fun best hbest => ?_⟩
      · exact List.forall_mem_append.mpr ⟨hnone hbest, by simpa using hvalid⟩
      · obtain ⟨hb, hmin⟩ := hsome best hbest
        exact ⟨hb, List.forall_mem_append.mpr
          ⟨hmin, List.forall_mem_singleton.mpr fun h => absurd h hvalid⟩⟩

/-- What is in one child compares different from what is in another. -/
def Disjoint (cmp : Slice → Slice → Ordering) (S : Fin n → Set KeyValue) : Prop :=
  ∀ i j, i ≠ j → ∀ x ∈ S i, ∀ y ∈ S j, cmp x.1 y.1 ≠ .eq

/-- Over children that stand at their first entries with a property, the picked one stands at the first
entry of all, and each of the others at its first entry behind that one. -/
theorem pick_least (cmp : Slice → Slice → Ordering) [Std.TransCmp cmp] (before : Slice → Slice → Bool)
    (hbefore : ∀ a b, before a b = true ↔ cmp a b = .lt) {children : Fin n → it.State}
    {order : List (Fin n)} (horder : ∀ i, i ∈ order) {S : Fin n → Set KeyValue} {p : Fin n → Option KeyValue}
    (hvalid : ∀ i, it.valid (children i) = (p i).isSome)
    (hkey : ∀ i e, p i = some e → it.key (children i) = e.1) {P : Slice → Prop} (hP : Upward cmp P)
    (hp : ∀ i, Least cmp (S i) P (p i)) (hS : Disjoint cmp S) :
    (pick before children order = none ∧ Least cmp (⋃ i, S i) P none) ∨
      ∃ cur e, pick before children order = some cur ∧ p cur = some e ∧
        Least cmp (⋃ i, S i) P (some e) ∧
        ∀ i, i ≠ cur → Least cmp (S i) (fun k => cmp e.1 k = .lt) (p i) := by
  obtain ⟨hnone, hsome⟩ := pick_spec hbefore children order
  cases hpick : pick before children order with
  | none =>
    refine .inl ⟨rfl, Least.iUnion_none fun i => ?_⟩
    have hi := hnone hpick i (horder i)
    rw [hvalid i, Option.isSome_eq_false_iff, Option.isNone_iff_eq_none] at hi
    rw [← hi]
    exact hp i
  | some cur =>
    obtain ⟨hcur, hmin⟩ := hsome cur hpick
    rw [hvalid cur] at hcur
    obtain ⟨e, he⟩ := Option.isSome_iff_exists.mp hcur
    have hle : ∀ i x, p i = some x → (cmp e.1 x.1).isLE := by
      intro i x hx
      have h := hmin i (horder i) (by rw [hvalid i, hx]; rfl)
      rwa [hkey cur e he, hkey i x hx] at h
    have hcure : Least cmp (S cur) P (some e) := he ▸ hp cur
    refine .inr ⟨cur, e, rfl, he, Least.iUnion hp he hle, fun i hi => ?_⟩
    refine (hp i).behind hP hcure.holds fun x hx => ?_
    have hxi : x ∈ S i := by
      have h := hp i
      rw [hx] at h
      exact h.mem
    exact lt_of_isLE_of_ne (hle i x hx) (hS cur i hi.symm e hcure.mem x hxi)

/-! ## Moving the other children -/

theorem moveBehind_least {c : Comparator} (htotal : Std.TransCmp c.Compare) {S : Set KeyValue}
    {At : it.State → Option KeyValue → Prop} (h : Walks c.Compare S it .OK At) {child : it.State}
    {o : Option KeyValue} (hchild : At child o) (key : Slice) :
    ∃ o', At (moveBehind c key child) o' ∧ Least c.Compare S (fun k => c.Compare key k = .lt) o' := by
  obtain ⟨o', hat, hleast⟩ := h.seek hchild key
  have hbehind : ∀ k, c.Compare key k = .lt → ¬ c.Compare k key = .lt :=
    fun k hlt => Std.OrientedCmp.not_lt_of_isLE (isLE_of_lt hlt)
  cases o' with
  | none =>
    refine ⟨none, ?_, fun x hx hlt => hleast x hx (hbehind _ hlt)⟩
    rw [moveBehind, if_neg]
    · exact hat
    · rw [h.valid hat]
      simp
  | some x =>
    have hkey := h.key hat
    by_cases heq : c.Compare key x.1 = .eq
    · obtain ⟨o'', hat', hleast'⟩ := h.next hat
      refine ⟨o'', ?_, hleast'.congr fun y _ => ?_⟩
      · rw [moveBehind, if_pos ⟨h.valid hat, by rw [hkey]; exact heq⟩]
        exact hat'
      · rw [Std.TransCmp.congr_left heq]
    · refine ⟨some x, ?_, hleast.mem, ?_, fun y hy hlt => hleast.2.2 y hy (hbehind _ hlt)⟩
      · rw [moveBehind, if_neg]
        · exact hat
        · rw [hkey]
          exact fun hboth => heq hboth.2
      · exact lt_of_isLE_of_ne (isLE_of_not_lt hleast.holds) heq

theorem moveBefore_greatest {c : Comparator} (htotal : Std.TransCmp c.Compare) {S : Set KeyValue}
    {At : it.State → Option KeyValue → Prop} (h : Walks c.Compare S it .OK At) {child : it.State}
    {o : Option KeyValue} (hchild : At child o) (key : Slice) :
    ∃ o', At (moveBefore key child) o' ∧
      Greatest c.Compare S (fun k => c.Compare k key = .lt) o' := by
  obtain ⟨o', hat, hleast⟩ := h.seek hchild key
  cases o' with
  | none =>
    obtain ⟨o'', hat', hgreatest⟩ := h.seekToLast hat
    refine ⟨o'', ?_, hgreatest.congr fun x hx => ?_⟩
    · rw [moveBefore, if_neg (by rw [h.valid hat]; simp)]
      exact hat'
    · simpa using hleast x hx
  | some x =>
    obtain ⟨o'', hat', hgreatest⟩ := h.prev hat
    refine ⟨o'', ?_, hgreatest.congr fun y hy => ?_⟩
    · have hvalid : it.valid (it.seek child key) = true := h.valid hat
      rw [moveBefore, if_pos hvalid]
      exact hat'
    · constructor
      · intro hlt
        by_contra hge
        exact Std.OrientedCmp.not_lt_of_isLE (hleast.2.2 y hy hge) hlt
      · intro hlt
        exact Std.TransCmp.lt_of_lt_of_isLE hlt (isLE_of_not_lt hleast.holds)

/-! ## Where the iterator stands -/

/-- The current child is at the entry; going forward the others are at their first entries behind it,
going in reverse at their last ones before it. -/
inductive MergedAt (c : Comparator) (S : Fin n → Set KeyValue)
    (At : Fin n → it.State → Option KeyValue → Prop) : MergingIterator it n → Option KeyValue → Prop
  | nowhere {m} (hcur : m.current = none) (hchildren : ∀ i, ∃ o, At i (m.children i) o) :
      MergedAt c S At m none
  | forward {m cur e} (hcur : m.current = some cur) (hdir : m.direction = .kForward)
      (he : At cur (m.children cur) (some e))
      (hothers : ∀ i, i ≠ cur → ∃ o, At i (m.children i) o ∧
        Least c.Compare (S i) (fun k => c.Compare e.1 k = .lt) o) : MergedAt c S At m (some e)
  | reverse {m cur e} (hcur : m.current = some cur) (hdir : m.direction = .kReverse)
      (he : At cur (m.children cur) (some e))
      (hothers : ∀ i, i ≠ cur → ∃ o, At i (m.children i) o ∧
        Greatest c.Compare (S i) (fun k => c.Compare k e.1 = .lt) o) : MergedAt c S At m (some e)

section

variable {c : Comparator} {S : Fin n → Set KeyValue} {At : Fin n → it.State → Option KeyValue → Prop}
  (htotal : Std.TransCmp c.Compare) (hwalks : ∀ i, Walks c.Compare (S i) it .OK (At i))
  (hS : Disjoint c.Compare S)

theorem MergedAt.children {m : MergingIterator it n} {o : Option KeyValue} (h : MergedAt c S At m o) (i : Fin n) :
    ∃ o, At i (m.children i) o := by
  cases h with
  | nowhere _ hchildren => exact hchildren i
  | @forward cur _ _ _ he hothers =>
    by_cases hi : i = cur
    · exact ⟨_, hi ▸ he⟩
    · obtain ⟨o, hat, -⟩ := hothers i hi
      exact ⟨o, hat⟩
  | @reverse cur _ _ _ he hothers =>
    by_cases hi : i = cur
    · exact ⟨_, hi ▸ he⟩
    · obtain ⟨o, hat, -⟩ := hothers i hi
      exact ⟨o, hat⟩

include htotal hwalks hS in
theorem find_smallest {children : Fin n → it.State} {P : Slice → Prop} (hP : Upward c.Compare P)
    (h : ∀ i, ∃ o, At i (children i) o ∧ Least c.Compare (S i) P o) :
    ∃ o, MergedAt c S At
        { children, current := pick (fun a b => c.Compare a b = .lt) children (List.finRange n),
          direction := .kForward } o ∧
      Least c.Compare (⋃ i, S i) P o := by
  choose p hat hleast using h
  have hfound := pick_least c.Compare (fun a b => c.Compare a b = .lt) (by simp) List.mem_finRange
    (fun i => (hwalks i).valid (hat i)) (fun i e he => (hwalks i).key (he ▸ hat i)) hP hleast hS
  rcases hfound with ⟨hpick, hnone⟩ | ⟨cur, e, hpick, he, hmin, hothers⟩
  · exact ⟨none, .nowhere hpick fun i => ⟨_, hat i⟩, hnone⟩
  · exact ⟨some e, .forward hpick rfl (he ▸ hat cur) fun i hi => ⟨_, hat i, hothers i hi⟩, hmin⟩

include htotal hwalks hS in
theorem find_largest {children : Fin n → it.State} {P : Slice → Prop}
    (hP : Upward (fun a b => c.Compare b a) P)
    (h : ∀ i, ∃ o, At i (children i) o ∧ Greatest c.Compare (S i) P o) :
    ∃ o, MergedAt c S At
        { children, current := pick (fun a b => c.Compare a b = .gt) children (List.finRange n).reverse,
          direction := .kReverse } o ∧
      Greatest c.Compare (⋃ i, S i) P o := by
  choose p hat hgreatest using h
  have hflip : Disjoint (fun a b => c.Compare b a) S :=
    fun i j hij x hx y hy => hS j i hij.symm y hy x hx
  have hfound := pick_least (fun a b => c.Compare b a) (fun a b => c.Compare a b = .gt)
    (by simp [Std.OrientedCmp.gt_iff_lt]) (fun i => List.mem_reverse.mpr (List.mem_finRange i))
    (fun i => (hwalks i).valid (hat i)) (fun i e he => (hwalks i).key (he ▸ hat i)) hP hgreatest hflip
  rcases hfound with ⟨hpick, hnone⟩ | ⟨cur, e, hpick, he, hmin, hothers⟩
  · exact ⟨none, .nowhere hpick fun i => ⟨_, hat i⟩, hnone⟩
  · exact ⟨some e, .reverse hpick rfl (he ▸ hat cur) fun i hi => ⟨_, hat i, hothers i hi⟩, hmin⟩

include htotal hwalks hS in
/-- A step forward, the others moved behind the entry first where the last step was in reverse. -/
theorem next_found {m : MergingIterator it n} {e : KeyValue} (h : MergedAt c S At m (some e)) :
    ∃ o, MergedAt c S At (Next c m) o ∧
      Least c.Compare (⋃ i, S i) (fun k => c.Compare e.1 k = .lt) o := by
  cases h with
  | @forward cur _ hcur hdir he hothers =>
    rw [Next, hcur]
    refine find_smallest htotal hwalks hS (upward_lt e.1) fun i => ?_
    by_cases hi : i = cur
    · subst hi
      simpa [hdir] using (hwalks i).next he
    · simpa [hdir, hi] using hothers i hi
  | @reverse cur _ hcur hdir he hothers =>
    have hkey := (hwalks cur).key he
    rw [Next, hcur]
    refine find_smallest htotal hwalks hS (upward_lt e.1) fun i => ?_
    by_cases hi : i = cur
    · subst hi
      simpa [hdir] using (hwalks i).next he
    · obtain ⟨o, hat, -⟩ := hothers i hi
      simpa [hdir, hi, hkey] using moveBehind_least htotal (hwalks i) hat e.1

include htotal hwalks hS in
theorem prev_found {m : MergingIterator it n} {e : KeyValue} (h : MergedAt c S At m (some e)) :
    ∃ o, MergedAt c S At (Prev c m) o ∧
      Greatest c.Compare (⋃ i, S i) (fun k => c.Compare k e.1 = .lt) o := by
  have hup : Upward (fun a b => c.Compare b a) (fun k => c.Compare k e.1 = .lt) :=
    upward_lt e.1
  cases h with
  | @forward cur _ hcur hdir he hothers =>
    have hkey := (hwalks cur).key he
    rw [Prev, hcur]
    refine find_largest htotal hwalks hS hup fun i => ?_
    by_cases hi : i = cur
    · subst hi
      simpa [hdir] using (hwalks i).prev he
    · obtain ⟨o, hat, -⟩ := hothers i hi
      simpa [hdir, hi, hkey] using moveBefore_greatest htotal (hwalks i) hat e.1
  | @reverse cur _ hcur hdir he hothers =>
    rw [Prev, hcur]
    refine find_largest htotal hwalks hS hup fun i => ?_
    by_cases hi : i = cur
    · subst hi
      simpa [hdir] using (hwalks i).prev he
    · simpa [hdir, hi] using hothers i hi

include hwalks in
theorem status_of_children {m : MergingIterator it n} (h : ∀ i, ∃ o, At i (m.children i) o) :
    m.status = .OK := by
  have hok : ∀ order : List (Fin n),
      order.foldl (fun s i => if s.ok then it.status (m.children i) else s) .OK = .OK := by
    intro order
    induction order with
    | nil => rfl
    | cons i order ih =>
      obtain ⟨o, hat⟩ := h i
      rw [List.foldl_cons, ok_OK, if_pos rfl, (hwalks i).status hat]
      exact ih
  exact hok _

end

/-- Over children that walk sets with no key in common the iterator walks their union, wherever it
stands and whichever way it went before. -/
theorem merging_iterator_walks_the_union (it : Iterator) (n : ℕ) (c : Comparator)
    (S : Fin n → Set KeyValue) (At : Fin n → it.State → Option KeyValue → Prop)
    (htotal : Std.TransCmp c.Compare) (hwalks : ∀ i, Walks c.Compare (S i) it .OK (At i))
    (hS : Disjoint c.Compare S) :
    Walks c.Compare (⋃ i, S i) (iterator c it n) .OK (MergedAt c S At) ∧
      ∀ children : Fin n → it.State, (∀ i, ∃ o, At i (children i) o) →
        MergedAt c S At (new children) none := by
  refine ⟨?_, fun children hchildren => .nowhere rfl hchildren⟩
  refine
    { valid := ?valid, key := ?key, value := ?value, status := ?status, inside := ?inside,
      seekToFirst := ?first, seekToLast := ?last, seek := ?seek, next := ?next, prev := ?prev }
  case valid =>
    intro m o h
    cases h with
    | nowhere hcur => exact congrArg Option.isSome hcur
    | forward hcur => exact congrArg Option.isSome hcur
    | reverse hcur => exact congrArg Option.isSome hcur
  case key =>
    intro m e h
    cases h with
    | forward hcur _ he => simpa [iterator, key, hcur] using (hwalks _).key he
    | reverse hcur _ he => simpa [iterator, key, hcur] using (hwalks _).key he
  case value =>
    intro m e h
    cases h with
    | forward hcur _ he => simpa [iterator, value, hcur] using (hwalks _).value he
    | reverse hcur _ he => simpa [iterator, value, hcur] using (hwalks _).value he
  case status =>
    intro m o h
    exact status_of_children hwalks h.children
  case inside =>
    intro m e h
    cases h with
    | forward _ _ he => exact Set.mem_iUnion.mpr ⟨_, (hwalks _).inside he⟩
    | reverse _ _ he => exact Set.mem_iUnion.mpr ⟨_, (hwalks _).inside he⟩
  case first =>
    intro m o h
    refine find_smallest htotal hwalks hS upward_true fun i => ?_
    obtain ⟨o', hat⟩ := h.children i
    exact (hwalks i).seekToFirst hat
  case last =>
    intro m o h
    refine find_largest htotal hwalks hS upward_true fun i => ?_
    obtain ⟨o', hat⟩ := h.children i
    exact (hwalks i).seekToLast hat
  case seek =>
    intro m o h target
    refine find_smallest htotal hwalks hS (upward_not_lt target) fun i => ?_
    obtain ⟨o', hat⟩ := h.children i
    exact (hwalks i).seek hat target
  case next =>
    intro m e h
    exact next_found htotal hwalks hS h
  case prev =>
    intro m e h
    exact prev_found htotal hwalks hS h

def twoLists : Fin 2 → List KeyValue := ![[([1], [10]), ([3], [30])], [([2], [20])]]

theorem two_lists_walk_as_one :
    Walks BytewiseComparator.Compare (⋃ i, entries (twoLists i))
      (iterator BytewiseComparator (family fun i => ofList BytewiseComparator.Compare .OK (twoLists i)) 2)
      .OK (MergedAt BytewiseComparator (fun i => entries (twoLists i))
        (fun i => AtMember i (AtPlace (twoLists i)))) := by
  have hsorted : ∀ i, Sorted BytewiseComparator.Compare (twoLists i) := by
    unfold Sorted
    decide
  have hdisjoint : ∀ i j, i ≠ j → ∀ x ∈ twoLists i, ∀ y ∈ twoLists j,
      BytewiseComparator.Compare x.1 y.1 ≠ .eq := by decide
  have hwalks : ∀ i, Walks BytewiseComparator.Compare (entries (twoLists i))
      (family fun i => ofList BytewiseComparator.Compare Status.OK (twoLists i)) .OK
      (AtMember i (AtPlace (twoLists i))) :=
    fun i => family_walks (i := i) (ofList_walks Status.OK (hsorted i))
  exact (merging_iterator_walks_the_union _ 2 BytewiseComparator _ _ inferInstance hwalks hdisjoint).1

end MergingIterator

end bitcoinstats.leveldb
