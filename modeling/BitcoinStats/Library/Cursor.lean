-- Programs that read a byte memory through one cursor. `Reads` says what a
-- program consumes, what it returns and how it changes the rest of its state,
-- so a format is read by the program whose parts read the parts of the format.
import BitcoinStats.Library.Bytes
import BitcoinStats.Library.Exec

open byte_memory exec

namespace cursor

/-! ## States with a cursor -/

/-- A state with a memory, a position in it, and a record of the ranges (start
and length) that were read. -/
class Cursor (σ : Type) where
  position : σ → Nat
  memory : σ → Memory
  ranges : σ → List (Nat × Nat)
  /-- The position moves over `n` bytes, and the ranges go on record. -/
  moved : σ → Nat → List (Nat × Nat) → σ
  position_moved : ∀ s n ws, position (moved s n ws) = position s + n
  memory_moved : ∀ s n ws, memory (moved s n ws) = memory s
  ranges_moved : ∀ s n ws, ranges (moved s n ws) = ranges s ++ ws
  moved_zero : ∀ s, moved s 0 [] = s
  moved_moved : ∀ s m n ws vs, moved (moved s m ws) n vs = moved s (m + n) (ws ++ vs)

export Cursor (position memory ranges moved)

attribute [simp] Cursor.position_moved Cursor.memory_moved Cursor.ranges_moved Cursor.moved_zero

variable {ε σ α β : Type} [Cursor σ]

/-- The memory has `bytes` at the cursor. -/
def Sees (s : σ) (bytes : List UInt8) : Prop := Holds (memory s) (position s) bytes

instance (s : σ) (bytes : List UInt8) : Decidable (Sees s bytes) :=
  inferInstanceAs (Decidable (Holds _ _ _))

theorem sees_append {s : σ} {xs ys : List UInt8} (ws : List (Nat × Nat)) :
    Sees s (xs ++ ys) ↔ Sees s xs ∧ Sees (moved s xs.length ws) ys := by
  simp [Sees]

/-! ## Changes of the state -/

/-- A change of the state that has nothing to do with the cursor. -/
structure Change (σ : Type) [Cursor σ] where
  apply : σ → σ
  position : ∀ s, position (apply s) = Cursor.position s
  memory : ∀ s, memory (apply s) = Cursor.memory s
  moved : ∀ s n ws, apply (moved s n ws) = Cursor.moved (apply s) n ws

attribute [simp] Change.position Change.memory

/-- No change. -/
def Change.none : Change σ :=
  { apply := id, position := fun _ => rfl, memory := fun _ => rfl, moved := fun _ _ _ => rfl }

/-- One change, and then another. -/
def Change.andThen (g h : Change σ) : Change σ :=
  { apply := fun s => h.apply (g.apply s)
    position := by simp
    memory := by simp
    moved := by simp [g.moved, h.moved] }

@[simp] theorem Change.none_apply (s : σ) : Change.none.apply s = s := rfl

@[simp] theorem Change.andThen_apply (g h : Change σ) (s : σ) :
    (g.andThen h).apply s = h.apply (g.apply s) := rfl

theorem sees_apply {s : σ} (g : Change σ) {bytes : List UInt8} :
    Sees (g.apply s) bytes ↔ Sees s bytes := by
  simp [Sees]

section Each

variable {ω γ : Type} (bytes : ω → List UInt8) (change : Nat → Nat → ω → Change σ)

/-- The changes for the entries of a list: the first is entry `k`, and its
bytes start at `p`. -/
def changeEach : Nat → Nat → List ω → Change σ
  | _, _, [] => Change.none
  | k, p, w :: ws => (change k p w).andThen (changeEach (k + 1) (p + (bytes w).length) ws)

/-- What the change for one entry keeps, the changes for all of them keep. -/
theorem changeEach_keeps (f : σ → γ) (h : ∀ k p w s, f ((change k p w).apply s) = f s)
    (k p : Nat) (ws : List ω) (s : σ) : f ((changeEach bytes change k p ws).apply s) = f s := by
  induction ws generalizing k p s with
  | nil => rfl
  | cons w ws ih =>
    unfold changeEach
    rw [Change.andThen_apply, ih, h]

variable (rel : Nat → ω → γ → Prop)

/-- The array has the entries of the list from `k` on, where `rel p w e` says
that `e` is what is stored for `w` when its bytes start at `p`. -/
def StoredFrom (m : Nat → γ) : Nat → Nat → List ω → Prop
  | _, _, [] => True
  | k, p, w :: ws => rel p w (m k) ∧ StoredFrom m (k + 1) (p + (bytes w).length) ws

variable {bytes change rel}

theorem StoredFrom.congr {m m' : Nat → γ} {k p : Nat} {ws : List ω}
    (h : StoredFrom bytes rel m k p ws) (heq : ∀ j, k ≤ j → j < k + ws.length → m' j = m j) :
    StoredFrom bytes rel m' k p ws := by
  induction ws generalizing k p with
  | nil => trivial
  | cons w ws ih =>
    rw [List.length_cons] at heq
    obtain ⟨hw, hws⟩ := h
    refine ⟨?_, ih hws fun j hj hlt => heq j (by omega) (by omega)⟩
    rw [heq k (Nat.le_refl k) (by omega)]
    exact hw

theorem changeEach_below {a : σ → Nat → γ}
    (h : ∀ k p w s, ∀ j ≠ k, a ((change k p w).apply s) j = a s j)
    (k p : Nat) (ws : List ω) (s : σ) {j : Nat} (hj : j < k) :
    a ((changeEach bytes change k p ws).apply s) j = a s j := by
  induction ws generalizing k p s with
  | nil => rfl
  | cons w ws ih =>
    unfold changeEach
    rw [Change.andThen_apply, ih (k + 1) _ _ (by omega), h k p w s j (by omega)]

/-- Changes that each store one entry store all of them. -/
theorem changeEach_stored {a : σ → Nat → γ}
    (h : ∀ k p w s, ∀ j ≠ k, a ((change k p w).apply s) j = a s j)
    (hk : ∀ k p w s, rel p w (a ((change k p w).apply s) k))
    (k p : Nat) (ws : List ω) (s : σ) :
    StoredFrom bytes rel (a ((changeEach bytes change k p ws).apply s)) k p ws := by
  induction ws generalizing k p s with
  | nil => trivial
  | cons w ws ih =>
    refine ⟨?_, ih (k + 1) _ _⟩
    unfold changeEach
    rw [Change.andThen_apply, changeEach_below h (k + 1) _ ws _ (Nat.lt_succ_self k)]
    exact hk k p w s

theorem StoredFrom.get {m : Nat → γ} {k p : Nat} {ws : List ω}
    (h : StoredFrom bytes rel m k p ws) {i : Nat} {w : ω} (hi : ws[i]? = some w) :
    ∃ q, rel q w (m (k + i)) := by
  induction ws generalizing k p i with
  | nil => cases hi
  | cons first ws ih =>
    cases i with
    | zero =>
      obtain rfl : first = w := by simpa using hi
      exact ⟨p, h.1⟩
    | succ i =>
      rcases ih h.2 (by simpa using hi) with ⟨q, hq⟩
      refine ⟨q, ?_⟩
      rwa [Nat.add_assoc, Nat.add_comm 1 i] at hq

/-- The values of the stored entries are those of the list. -/
theorem StoredFrom.map_range {δ : Type} {m : Nat → γ} {k p : Nat} {ws : List ω}
    {mem : Memory} {view : γ → δ} {value : ω → δ}
    (hview : ∀ p w e, rel p w e → Holds mem p (bytes w) → view e = value w)
    (h : StoredFrom bytes rel m k p ws) (hmem : Holds mem p (ws.flatMap bytes)) :
    (List.range ws.length).map (fun i => view (m (k + i))) = ws.map value := by
  induction ws generalizing k p with
  | nil => rfl
  | cons w ws ih =>
    obtain ⟨hw, hws⟩ := h
    rw [List.flatMap_cons, holds_append] at hmem
    have htail := ih hws hmem.2
    rw [List.length_cons, List.range_succ_eq_map, List.map_cons, List.map_cons, List.map_map,
      ← htail]
    refine congrArg₂ List.cons (hview p w _ hw hmem.1) ?_
    refine List.map_congr_left fun i _ => ?_
    rw [Function.comp_apply, Nat.add_assoc k 1 i, Nat.add_comm 1 i]

end Each

/-! ## What a program reads -/

/-- When the memory has `bytes` at the cursor, the program reads exactly them,
returns `a`, and changes the rest of the state by `g`. -/
def Reads (s : σ) (x : EStateM ε σ α) (bytes : List UInt8) (a : α) (g : Change σ) : Prop :=
  Sees s bytes → ∃ ws, x.run s = .ok a (g.apply (moved s bytes.length ws))

variable {s : σ} {g h : Change σ} {xs ys : List UInt8} {a : α} {b : β}

/-- What a sequence reads is what its parts read, one after the other. -/
theorem Reads.bind {x : EStateM ε σ α} {f : α → EStateM ε σ β} (hx : Reads s x xs a g)
    (hf : ∀ ws, Reads (g.apply (moved s xs.length ws)) (f a) ys b h) :
    Reads s (x >>= f) (xs ++ ys) b (g.andThen h) := by
  intro hs
  obtain ⟨ws, hrun⟩ := hx ((sees_append []).mp hs).1
  obtain ⟨vs, hrun'⟩ := hf ws ((sees_apply g).mpr ((sees_append ws).mp hs).2)
  refine ⟨ws ++ vs, ?_⟩
  rw [run_bind_ok hrun, hrun', ← g.moved, Cursor.moved_moved, List.length_append]
  rfl

/-- A first part that changes nothing but the cursor. -/
theorem Reads.next {x : EStateM ε σ α} {f : α → EStateM ε σ β} (hx : Reads s x xs a Change.none)
    (hf : ∀ ws, Reads (moved s xs.length ws) (f a) ys b h) :
    Reads s (x >>= f) (xs ++ ys) b h := hx.bind hf

/-- A last part that reads nothing. -/
theorem Reads.last {x : EStateM ε σ α} {f : α → EStateM ε σ β} (hx : Reads s x xs a Change.none)
    (hf : ∀ ws, Reads (moved s xs.length ws) (f a) [] b h) : Reads s (x >>= f) xs b h := by
  simpa using hx.next hf

/-- A rest that does nothing but return. -/
theorem Reads.bind_pure {x : EStateM ε σ α} {f : α → EStateM ε σ β} (hx : Reads s x xs a g)
    (hf : f a = Pure.pure b) : Reads s (x >>= f) xs b g := by
  intro hs
  obtain ⟨ws, hrun⟩ := hx hs
  refine ⟨ws, ?_⟩
  rw [run_bind_ok hrun, hf]
  rfl

theorem Reads.pure (a : α) : Reads s (pure a : EStateM ε σ α) [] a Change.none := by
  intro _
  exact ⟨[], by simp⟩

/-- A first part that runs on its own, without a look at the memory. -/
theorem Reads.of_run {x : EStateM ε σ α} {f : α → EStateM ε σ β} (hx : x.run s = .ok a s)
    (hf : Reads s (f a) ys b h) : Reads s (x >>= f) ys b h := by
  intro hs
  obtain ⟨ws, hrun⟩ := hf hs
  exact ⟨ws, by rw [run_bind_ok hx, hrun]⟩

theorem Reads.get_bind {f : σ → EStateM ε σ β} (hf : Reads s (f s) ys b h) :
    Reads s (get >>= f) ys b h := Reads.of_run rfl hf

theorem Reads.modify_bind {m : σ → σ} {f : PUnit → EStateM ε σ β} (g : Change σ)
    (hm : m = g.apply) (hf : Reads (g.apply s) (f ⟨⟩) ys b h) :
    Reads s (modify m >>= f) ys b (g.andThen h) := by
  intro hs
  obtain ⟨ws, hrun⟩ := hf ((sees_apply g).mpr hs)
  refine ⟨ws, ?_⟩
  rw [Change.andThen_apply, g.moved, ← hrun, hm]
  rfl

/-- A last part that changes the state. -/
theorem Reads.modify_pure {m : σ → σ} (g : Change σ) (hm : m = g.apply) :
    Reads s (modify m >>= fun _ => Pure.pure a : EStateM ε σ α) [] a g := by
  have h := Reads.modify_bind (s := s) (f := fun _ => (Pure.pure a : EStateM ε σ α)) g hm
    (Reads.pure a)
  exact h

/-! ## Where a program ends early -/

/-- When the memory has `bytes` at the cursor, the program ends right behind
them, with a result in `Q`. -/
def Ends (s : σ) (x : EStateM ε σ α) (bytes : List UInt8) (Q : EStateM.Result ε σ α → Prop) : Prop :=
  Sees s bytes → Q (x.run s) ∧ position (finalState (x.run s)) = position s + bytes.length

variable {Q : EStateM.Result ε σ β → Prop}

theorem Ends.mono {Q' : EStateM.Result ε σ β → Prop} {x : EStateM ε σ β} (hx : Ends s x xs Q)
    (h : ∀ r, Q r → Q' r) : Ends s x xs Q' := by
  intro hs
  obtain ⟨hq, hp⟩ := hx hs
  exact ⟨h _ hq, hp⟩

/-- A program that comes back ends with what it returns. -/
theorem Reads.ends_with {x : EStateM ε σ β} (hx : Reads s x xs b g) (h : ∀ s', Q (.ok b s')) :
    Ends s x xs Q := by
  intro hs
  obtain ⟨ws, hrun⟩ := hx hs
  rw [hrun]
  refine ⟨h _, ?_⟩
  rw [finalState_ok, g.position, Cursor.position_moved]

theorem ends_throw (e : ε) : Ends s (throw e : EStateM ε σ α) [] IsError := by
  intro _
  exact ⟨trivial, rfl⟩

/-- An error of the first part is one of the whole. -/
theorem Ends.bind {x : EStateM ε σ α} {f : α → EStateM ε σ β} (hx : Ends s x xs IsError) :
    Ends s (x >>= f) xs IsError := by
  intro hs
  obtain ⟨he, hp⟩ := hx hs
  rcases hr : x.run s with ⟨a, s'⟩ | ⟨e, s'⟩
  · rw [hr] at he
    exact he.elim
  · rw [hr] at hp
    rw [run_bind_error hr]
    exact ⟨trivial, hp⟩

/-- A first part that says no, before a second part that needs a yes. -/
theorem Ends.bind_ite {x y : EStateM ε σ Bool} (hx : Ends s x xs Rejects) :
    Ends s (x >>= fun answer => if answer then y else Pure.pure false) xs Rejects := by
  intro hs
  obtain ⟨hq, hp⟩ := hx hs
  rcases hr : x.run s with ⟨answer, s'⟩ | ⟨e, s'⟩
  · rw [hr] at hp hq
    have hno : answer = false := hq
    rw [run_bind_ok hr, hno]
    exact ⟨rfl, hp⟩
  · rw [hr] at hp
    rw [run_bind_error hr]
    exact ⟨trivial, hp⟩

/-- The end comes in the second part. -/
theorem Reads.ends {x : EStateM ε σ α} {f : α → EStateM ε σ β} (hx : Reads s x xs a g)
    (hf : ∀ ws, Ends (g.apply (moved s xs.length ws)) (f a) ys Q) :
    Ends s (x >>= f) (xs ++ ys) Q := by
  intro hs
  obtain ⟨ws, hrun⟩ := hx ((sees_append []).mp hs).1
  obtain ⟨hq, hp⟩ := hf ws ((sees_apply g).mpr ((sees_append ws).mp hs).2)
  rw [run_bind_ok hrun]
  refine ⟨hq, ?_⟩
  rw [hp, g.position, Cursor.position_moved, List.length_append, Nat.add_assoc]

/-- The end comes in the second part, which reads nothing more. -/
theorem Reads.ends_last {x : EStateM ε σ α} {f : α → EStateM ε σ β} (hx : Reads s x xs a g)
    (hf : ∀ ws, Ends (g.apply (moved s xs.length ws)) (f a) [] Q) : Ends s (x >>= f) xs Q := by
  simpa using hx.ends hf

theorem Ends.of_run {x : EStateM ε σ α} {f : α → EStateM ε σ β} (hx : x.run s = .ok a s)
    (hf : Ends s (f a) ys Q) : Ends s (x >>= f) ys Q := by
  intro hs
  rw [run_bind_ok hx]
  exact hf hs

theorem Ends.get_bind {f : σ → EStateM ε σ β} (hf : Ends s (f s) ys Q) :
    Ends s (get >>= f) ys Q := Ends.of_run rfl hf

theorem Ends.modify_bind {m : σ → σ} {f : PUnit → EStateM ε σ β} (g : Change σ)
    (hm : m = g.apply) (hf : Ends (g.apply s) (f ⟨⟩) ys Q) : Ends s (modify m >>= f) ys Q := by
  intro hs
  have h := hf ((sees_apply g).mpr hs)
  rw [g.position, ← hm] at h
  exact h

end cursor
