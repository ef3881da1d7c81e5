-- Cursors over a set of entries in the order of their keys: the least and the
-- greatest entry with a property, and what the moves of a cursor owe its users.
import Mathlib.Tactic
import Mathlib.Data.Set.Lattice
import Mathlib.Data.Set.Card

namespace ordered_cursor

variable {K V E : Type}

/-- The operations of a cursor; `status` tells what went wrong. -/
structure Cursor (K V E : Type) where
  State : Type
  valid : State → Bool
  key : State → K
  value : State → V
  status : State → E
  seekToFirst : State → State
  seekToLast : State → State
  seek : State → K → State
  next : State → State
  prev : State → State

/-- The first entry, in the order, whose key has a property, if there is one. -/
def Least (cmp : K → K → Ordering) (S : Set (K × V)) (P : K → Prop) : Option (K × V) → Prop
  | none => ∀ x ∈ S, ¬ P x.1
  | some e => e ∈ S ∧ P e.1 ∧ ∀ x ∈ S, P x.1 → (cmp e.1 x.1).isLE

/-- The last entry is the first one in the opposite order. -/
def Greatest (cmp : K → K → Ordering) (S : Set (K × V)) (P : K → Prop) : Option (K × V) → Prop :=
  Least (fun a b => cmp b a) S P

/-- A cursor walks a set: wherever it stands, at an entry or nowhere, a move takes it to the entry
that it is to find. -/
structure Walks (cmp : K → K → Ordering) (S : Set (K × V)) (c : Cursor K V E) (ok : E)
    (At : c.State → Option (K × V) → Prop) : Prop where
  valid : ∀ {s o}, At s o → c.valid s = o.isSome
  key : ∀ {s e}, At s (some e) → c.key s = e.1
  value : ∀ {s e}, At s (some e) → c.value s = e.2
  status : ∀ {s o}, At s o → c.status s = ok
  inside : ∀ {s e}, At s (some e) → e ∈ S
  seekToFirst : ∀ {s o}, At s o → ∃ o', At (c.seekToFirst s) o' ∧ Least cmp S (fun _ => True) o'
  seekToLast : ∀ {s o}, At s o → ∃ o', At (c.seekToLast s) o' ∧ Greatest cmp S (fun _ => True) o'
  seek : ∀ {s o}, At s o → ∀ target,
    ∃ o', At (c.seek s target) o' ∧ Least cmp S (fun k => ¬ cmp k target = .lt) o'
  next : ∀ {s e}, At s (some e) → ∃ o', At (c.next s) o' ∧ Least cmp S (fun k => cmp e.1 k = .lt) o'
  prev : ∀ {s e}, At s (some e) →
    ∃ o', At (c.prev s) o' ∧ Greatest cmp S (fun k => cmp k e.1 = .lt) o'

/-- No two entries have keys that compare equal. -/
def Apart (cmp : K → K → Ordering) (S : Set (K × V)) : Prop :=
  ∀ x ∈ S, ∀ y ∈ S, cmp x.1 y.1 = .eq → x = y

variable {cmp : K → K → Ordering} {S : Set (K × V)} {P Q : K → Prop} {o : Option (K × V)}

theorem isLE_of_not_lt [Std.OrientedCmp cmp] {a b : K} (h : ¬ cmp a b = .lt) : (cmp b a).isLE :=
  Std.OrientedCmp.isGE_iff_isLE.mp (Ordering.isGE_iff_ne_lt.mpr h)

theorem lt_of_isLE_of_ne {a b : K} (h : (cmp a b).isLE) (hne : cmp a b ≠ .eq) : cmp a b = .lt :=
  (Ordering.isLE_iff_eq_lt_or_eq_eq.mp h).resolve_right hne

theorem isLE_of_lt {a b : K} (h : cmp a b = .lt) : (cmp a b).isLE := by
  rw [h]
  rfl

theorem Least.congr (h : Least cmp S P o) (hPQ : ∀ x ∈ S, (P x.1 ↔ Q x.1)) : Least cmp S Q o := by
  cases o with
  | none => exact fun x hx hQ => h x hx ((hPQ x hx).mpr hQ)
  | some e =>
    obtain ⟨he, hP, hmin⟩ := h
    exact ⟨he, (hPQ e he).mp hP, fun x hx hQ => hmin x hx ((hPQ x hx).mpr hQ)⟩

theorem Least.mem {e : K × V} (h : Least cmp S P (some e)) : e ∈ S := h.1

theorem Least.holds {e : K × V} (h : Least cmp S P (some e)) : P e.1 := h.2.1

/-- Where keys tell entries apart there is one first entry. -/
theorem Least.unique [Std.TransCmp cmp] (hS : Apart cmp S) {o o' : Option (K × V)}
    (h : Least cmp S P o) (h' : Least cmp S P o') : o = o' := by
  cases o with
  | none =>
    cases o' with
    | none => rfl
    | some e' => exact absurd h'.holds (h e' h'.mem)
  | some e =>
    cases o' with
    | none => exact absurd h.holds (h' e h.mem)
    | some e' =>
      have hle := h.2.2 e' h'.mem h'.holds
      have hge := h'.2.2 e h.mem h.holds
      rw [hS e h.mem e' h'.mem (Std.OrientedCmp.isLE_antisymm hle hge)]

/-- Of the first entries of several sets, none of the others lies before the first of them all. -/
theorem Least.iUnion {ι : Type} {T : ι → Set (K × V)} {p : ι → Option (K × V)}
    (h : ∀ i, Least cmp (T i) P (p i)) {c : ι} {e : K × V} (hc : p c = some e)
    (hmin : ∀ i x, p i = some x → (cmp e.1 x.1).isLE) [Std.TransCmp cmp] :
    Least cmp (⋃ i, T i) P (some e) := by
  have he := h c
  rw [hc] at he
  refine ⟨Set.mem_iUnion.mpr ⟨c, he.mem⟩, he.holds, ?_⟩
  intro x hx hP
  obtain ⟨i, hxi⟩ := Set.mem_iUnion.mp hx
  have hi := h i
  cases hp : p i with
  | none =>
    rw [hp] at hi
    exact absurd hP (hi x hxi)
  | some y =>
    rw [hp] at hi
    exact Std.TransCmp.isLE_trans (hmin i y hp) (hi.2.2 x hxi hP)

theorem Least.iUnion_none {ι : Type} {T : ι → Set (K × V)} (h : ∀ i, Least cmp (T i) P none) :
    Least cmp (⋃ i, T i) P none := by
  intro x hx
  obtain ⟨i, hxi⟩ := Set.mem_iUnion.mp hx
  exact h i x hxi

/-- A property that later keys inherit. -/
def Upward (cmp : K → K → Ordering) (P : K → Prop) : Prop :=
  ∀ a b, (cmp a b).isLE → P a → P b

/-- From an entry with the property on, what lies behind the entry is what comes first with it. -/
theorem Least.behind [Std.TransCmp cmp] (h : Least cmp S P o) (hP : Upward cmp P) {e : K × V} (he : P e.1)
    (hbefore : ∀ x, o = some x → cmp e.1 x.1 = .lt) : Least cmp S (fun k => cmp e.1 k = .lt) o := by
  have hup : ∀ k, cmp e.1 k = .lt → P k := fun k hlt => hP e.1 k (by rw [hlt]; rfl) he
  cases o with
  | none => exact fun x hx hlt => h x hx (hup x.1 hlt)
  | some y => exact ⟨h.mem, hbefore y rfl, fun x hx hlt => h.2.2 x hx (hup x.1 hlt)⟩

theorem upward_true : Upward cmp (fun _ => True) := fun _ _ _ _ => trivial

theorem upward_lt [Std.TransCmp cmp] (k : K) : Upward cmp (fun x => cmp k x = .lt) :=
  fun _ _ hle hlt => Std.TransCmp.lt_of_lt_of_isLE hlt hle

theorem upward_not_lt [Std.TransCmp cmp] (k : K) : Upward cmp (fun x => ¬ cmp x k = .lt) :=
  fun _ _ hle hge hlt => hge (Std.TransCmp.lt_of_isLE_of_lt hle hlt)

/-! ## Cursors of several kinds -/

/-- Cursors of different kinds as those of one, which knows of each state whose it is. -/
def family {ι : Type} (its : ι → Cursor K V E) : Cursor K V E where
  State := (i : ι) × (its i).State
  valid s := (its s.1).valid s.2
  key s := (its s.1).key s.2
  value s := (its s.1).value s.2
  status s := (its s.1).status s.2
  seekToFirst s := ⟨s.1, (its s.1).seekToFirst s.2⟩
  seekToLast s := ⟨s.1, (its s.1).seekToLast s.2⟩
  seek s target := ⟨s.1, (its s.1).seek s.2 target⟩
  next s := ⟨s.1, (its s.1).next s.2⟩
  prev s := ⟨s.1, (its s.1).prev s.2⟩

/-- A state of the given member, where that one stands. -/
inductive AtMember {ι : Type} {its : ι → Cursor K V E} (i : ι) (At : (its i).State → Option (K × V) → Prop) :
    (family its).State → Option (K × V) → Prop
  | mk {s o} (h : At s o) : AtMember i At ⟨i, s⟩ o

theorem family_walks {ι : Type} {its : ι → Cursor K V E} {i : ι} {ok : E}
    {At : (its i).State → Option (K × V) → Prop} (h : Walks cmp S (its i) ok At) :
    Walks cmp S (family its) ok (AtMember i At) where
  valid := fun ⟨hs⟩ => h.valid hs
  key := fun ⟨hs⟩ => h.key hs
  value := fun ⟨hs⟩ => h.value hs
  status := fun ⟨hs⟩ => h.status hs
  inside := fun ⟨hs⟩ => h.inside hs
  seekToFirst := fun ⟨hs⟩ => (h.seekToFirst hs).imp fun _ ⟨hat, hleast⟩ => ⟨⟨hat⟩, hleast⟩
  seekToLast := fun ⟨hs⟩ => (h.seekToLast hs).imp fun _ ⟨hat, hleast⟩ => ⟨⟨hat⟩, hleast⟩
  seek := fun ⟨hs⟩ target => (h.seek hs target).imp fun _ ⟨hat, hleast⟩ => ⟨⟨hat⟩, hleast⟩
  next := fun ⟨hs⟩ => (h.next hs).imp fun _ ⟨hat, hleast⟩ => ⟨⟨hat⟩, hleast⟩
  prev := fun ⟨hs⟩ => (h.prev hs).imp fun _ ⟨hat, hleast⟩ => ⟨⟨hat⟩, hleast⟩

/-! ## Sorted lists -/

/-- The entries of a list. -/
def entries (l : List (K × V)) : Set (K × V) := {x | x ∈ l}

/-- The keys of a list go up. -/
def Sorted (cmp : K → K → Ordering) (l : List (K × V)) : Prop :=
  l.Pairwise (fun x y => cmp x.1 y.1 = .lt)

variable {l : List (K × V)}

theorem entries_finite (l : List (K × V)) : (entries l).Finite := l.finite_toSet

theorem ncard_entries_le (l : List (K × V)) : (entries l).ncard ≤ l.length := by
  classical
  have hset : entries l = ↑l.toFinset := by
    ext x
    simp [entries]
  rw [hset, Set.ncard_coe_finset]
  exact l.toFinset_card_le

theorem Sorted.lt (h : Sorted cmp l) {i j : ℕ} {x y : K × V} (hi : l[i]? = some x) (hj : l[j]? = some y)
    (hij : i < j) : cmp x.1 y.1 = .lt := by
  obtain ⟨hi', rfl⟩ := List.getElem?_eq_some_iff.mp hi
  obtain ⟨hj', rfl⟩ := List.getElem?_eq_some_iff.mp hj
  exact List.pairwise_iff_getElem.mp h i j hi' hj' hij

theorem Sorted.le [Std.TransCmp cmp] (h : Sorted cmp l) {i j : ℕ} {x y : K × V} (hi : l[i]? = some x)
    (hj : l[j]? = some y) (hij : i ≤ j) : (cmp x.1 y.1).isLE := by
  rcases hij.lt_or_eq with hlt | rfl
  · rw [h.lt hi hj hlt]
    rfl
  · rw [hi] at hj
    cases hj
    exact Std.ReflCmp.isLE_rfl

/-- The keys tell which of two places comes first. -/
theorem Sorted.lt_iff [Std.TransCmp cmp] (h : Sorted cmp l) {i j : ℕ} {x y : K × V} (hi : l[i]? = some x)
    (hj : l[j]? = some y) : cmp x.1 y.1 = .lt ↔ i < j := by
  refine ⟨fun hlt => ?_, h.lt hi hj⟩
  by_contra hge
  exact Std.OrientedCmp.not_lt_of_isLE (h.le hj hi (Nat.not_lt.mp hge)) hlt

theorem Sorted.apart [Std.TransCmp cmp] (h : Sorted cmp l) : Apart cmp (entries l) := by
  intro x hx y hy heq
  obtain ⟨i, hi⟩ := List.mem_iff_getElem?.mp hx
  obtain ⟨j, hj⟩ := List.mem_iff_getElem?.mp hy
  rcases lt_trichotomy i j with hij | rfl | hij
  · rw [h.lt hi hj hij] at heq
    cases heq
  · rw [hi] at hj
    exact Option.some.inj hj
  · rw [Std.OrientedCmp.eq_comm, h.lt hj hi hij] at heq
    cases heq

/-- What holds from a place on holds first at that place. -/
theorem Sorted.least [Std.TransCmp cmp] (h : Sorted cmp l) {i : ℕ}
    (hP : ∀ j x, l[j]? = some x → (P x.1 ↔ i ≤ j)) : Least cmp (entries l) P l[i]? := by
  cases hi : l[i]? with
  | none =>
    intro x hx hPx
    obtain ⟨j, hj⟩ := List.mem_iff_getElem?.mp hx
    have hij := (hP j x hj).mp hPx
    have hlen := List.getElem?_eq_none_iff.mp hi
    rw [List.getElem?_eq_none_iff.mpr (by omega)] at hj
    cases hj
  | some e =>
    refine ⟨List.mem_of_getElem? hi, (hP i e hi).mpr le_rfl, fun x hx hPx => ?_⟩
    obtain ⟨j, hj⟩ := List.mem_iff_getElem?.mp hx
    exact h.le hi hj ((hP j x hj).mp hPx)

/-- What holds before a place holds last just before it. -/
theorem Sorted.greatest [Std.TransCmp cmp] (h : Sorted cmp l) {i : ℕ} (hi : i ≤ l.length)
    (hP : ∀ j x, l[j]? = some x → (P x.1 ↔ j < i)) :
    Greatest cmp (entries l) P (if i = 0 then none else l[i - 1]?) := by
  split
  · rename_i hzero
    intro x hx hPx
    obtain ⟨j, hj⟩ := List.mem_iff_getElem?.mp hx
    have hji := (hP j x hj).mp hPx
    omega
  · rename_i hpos
    have hlt : i - 1 < l.length := by omega
    rw [List.getElem?_eq_getElem hlt]
    have he := List.getElem?_eq_getElem hlt
    refine ⟨List.mem_of_getElem? he, (hP _ _ he).mpr (by omega), fun x hx hPx => ?_⟩
    obtain ⟨j, hj⟩ := List.mem_iff_getElem?.mp hx
    have hji := (hP j x hj).mp hPx
    exact h.le hj he (by omega)

/-- The entries from one on. -/
def fromEntry (cmp : K → K → Ordering) (l : List (K × V)) : Option (K × V) → List (K × V)
  | none => []
  | some e => l.filter (fun x => (cmp e.1 x.1).isLE)

/-- From the first entry with a property on lie the entries with it. -/
theorem fromEntry_least [Std.TransCmp cmp] [DecidablePred P] (hP : Upward cmp P)
    (h : Least cmp (entries l) P o) : fromEntry cmp l o = l.filter (fun x => P x.1) := by
  cases o with
  | none =>
    refine (List.filter_eq_nil_iff.mpr fun x hx => ?_).symm
    simpa using h x hx
  | some e =>
    refine List.filter_congr fun x hx => ?_
    rw [Bool.eq_iff_iff, decide_eq_true_iff]
    exact ⟨fun hle => hP _ _ hle h.holds, h.2.2 x hx⟩

/-- From an entry on comes the entry, and then what lies behind it. -/
theorem fromEntry_cons [Std.TransCmp cmp] (h : Sorted cmp l) {e : K × V} (he : e ∈ l) :
    fromEntry cmp l (some e) = e :: l.filter (fun x => cmp e.1 x.1 = .lt) := by
  induction l with
  | nil => cases he
  | cons a l ih =>
    obtain ⟨ha, hl⟩ := List.pairwise_cons.mp h
    rcases List.mem_cons.mp he with rfl | he
    · have hself : cmp e.1 e.1 = .eq := Std.ReflCmp.compare_self
      have hle : l.filter (fun x => (cmp e.1 x.1).isLE) = l :=
        List.filter_eq_self.mpr fun x hx => isLE_of_lt (ha x hx)
      have hlt : l.filter (fun x => cmp e.1 x.1 = .lt) = l :=
        List.filter_eq_self.mpr fun x hx => by simp [ha x hx]
      rw [fromEntry, List.filter_cons_of_pos (by simp [hself]), hle,
        List.filter_cons_of_neg (by simp [hself]), hlt]
    · have hgt := ha e he
      have hnle : ¬ (cmp e.1 a.1).isLE := fun hle => Std.OrientedCmp.not_lt_of_isLE hle hgt
      have hnlt : ¬ cmp e.1 a.1 = .lt := fun hlt => hnle (isLE_of_lt hlt)
      rw [List.filter_cons_of_neg (by simpa using hnlt), ← ih hl he]
      exact List.filter_cons_of_neg (p := fun x : K × V => (cmp e.1 x.1).isLE) hnle

/-- Behind the entries before a key lie those that are not before it. -/
theorem dropWhile_lt [Std.TransCmp cmp] (h : Sorted cmp l) (target : K) :
    l.dropWhile (fun x => cmp x.1 target = .lt) = l.filter (fun x => ¬ cmp x.1 target = .lt) := by
  induction l with
  | nil => rfl
  | cons a l ih =>
    obtain ⟨ha, hl⟩ := List.pairwise_cons.mp h
    by_cases hlt : cmp a.1 target = .lt
    · rw [List.dropWhile_cons_of_pos (by simpa using hlt), List.filter_cons_of_neg (by simpa using hlt),
        ih hl]
    · have hall : ∀ x ∈ a :: l, ¬ cmp x.1 target = .lt := by
        intro x hx
        rcases List.mem_cons.mp hx with rfl | hx
        · exact hlt
        · exact upward_not_lt target _ _ (isLE_of_lt (ha x hx)) hlt
      rw [List.dropWhile_cons_of_neg (by simpa using hlt),
        List.filter_eq_self.mpr fun x hx => by simpa using hall x hx]

/-- The cursor over a list: a place in it, or its end. -/
def ofList (cmp : K → K → Ordering) [Inhabited K] [Inhabited V] (ok : E) (l : List (K × V)) :
    Cursor K V E where
  State := ℕ
  valid i := l[i]?.isSome
  key i := (l[i]?.map Prod.fst).getD default
  value i := (l[i]?.map Prod.snd).getD default
  status _ := ok
  seekToFirst _ := 0
  seekToLast _ := l.length - 1
  seek _ target := l.findIdx (fun e => ¬ cmp e.1 target = .lt)
  next i := i + 1
  prev i := if i = 0 then l.length else i - 1

/-- Before the place that a search finds the keys are too small, and from there on they are not. -/
theorem Sorted.findIdx [Std.TransCmp cmp] (h : Sorted cmp l) (target : K) {j : ℕ} {x : K × V}
    (hj : l[j]? = some x) :
    ¬ cmp x.1 target = .lt ↔ l.findIdx (fun e => ¬ cmp e.1 target = .lt) ≤ j := by
  obtain ⟨hlen, rfl⟩ := List.getElem?_eq_some_iff.mp hj
  constructor
  · intro hge
    by_contra hlt
    have hno := List.not_of_lt_findIdx (Nat.not_le.mp hlt)
    simp only [decide_eq_false_iff_not, not_not] at hno
    exact hge hno
  · intro hle
    have hlt := lt_of_le_of_lt hle hlen
    have hfound := List.findIdx_getElem (w := hlt)
    exact upward_not_lt target _ _ (h.le (List.getElem?_eq_getElem hlt) hj hle) (by simpa using hfound)

/-- The entry at a place. -/
def AtPlace (l : List (K × V)) (i : ℕ) (o : Option (K × V)) : Prop := l[i]? = o

theorem ofList_walks [Std.TransCmp cmp] [Inhabited K] [Inhabited V] (ok : E) (h : Sorted cmp l) :
    Walks cmp (entries l) (ofList cmp ok l) ok (AtPlace l) where
  valid := fun hi => congrArg Option.isSome hi
  key := fun he => congrArg (fun o => (o.map Prod.fst).getD default) he
  value := fun he => congrArg (fun o => (o.map Prod.snd).getD default) he
  status := fun _ => rfl
  inside := fun he => List.mem_of_getElem? he
  seekToFirst := fun _ => ⟨_, rfl, h.least (i := 0) (by simp)⟩
  seekToLast := by
    intro _ _ _
    refine ⟨_, rfl, ?_⟩
    have hlast := h.greatest (P := fun _ => True) le_rfl
      (fun j x hj => by simpa using (List.getElem?_eq_some_iff.mp hj).1)
    by_cases hzero : l.length = 0
    · rw [if_pos hzero] at hlast
      rw [List.eq_nil_of_length_eq_zero hzero] at hlast ⊢
      exact hlast
    · rw [if_neg hzero] at hlast
      exact hlast
  seek := fun _ target => ⟨_, rfl, h.least fun _ _ hj => h.findIdx target hj⟩
  next := fun he => ⟨_, rfl, h.least fun _ _ hj => h.lt_iff he hj⟩
  prev := by
    intro (i : ℕ) e he
    refine ⟨l[if i = 0 then l.length else i - 1]?, rfl, ?_⟩
    have hi := (List.getElem?_eq_some_iff.mp he).1
    have hbefore := h.greatest (P := fun k => cmp k e.1 = .lt) hi.le fun _ _ hj => h.lt_iff hj he
    by_cases hzero : i = 0
    · rw [if_pos hzero] at hbefore ⊢
      rwa [List.getElem?_eq_none le_rfl]
    · rw [if_neg hzero] at hbefore ⊢
      exact hbefore

end ordered_cursor
