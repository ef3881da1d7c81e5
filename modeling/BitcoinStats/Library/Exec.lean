-- Programs with a state and an error, as `EStateM`: how a run of a sequence
-- goes, and the properties of the state that a program keeps.
import Mathlib.Tactic

namespace exec

variable {ε σ α β : Type}

/-! ## Runs of a sequence -/

theorem run_bind_ok {x : EStateM ε σ α} {f : α → EStateM ε σ β} {s s' : σ} {a : α}
    (h : x.run s = .ok a s') : (x >>= f).run s = (f a).run s' := by
  rw [EStateM.run_bind, h]

theorem run_bind_error {x : EStateM ε σ α} {f : α → EStateM ε σ β} {s s' : σ} {e : ε}
    (h : x.run s = .error e s') : (x >>= f).run s = .error e s' := by
  rw [EStateM.run_bind, h]

/-- A sequence that ends well is two computations that end well. -/
theorem bind_eq_ok {x : Except ε α} {f : α → Except ε β} {b : β} :
    (x >>= f) = .ok b ↔ ∃ a, x = .ok a ∧ f a = .ok b := by
  cases x with
  | ok a =>
    constructor
    · intro h
      exact ⟨a, rfl, h⟩
    · rintro ⟨a', h1, h2⟩
      cases h1
      exact h2
  | error e =>
    constructor
    · intro h
      cases h
    · rintro ⟨a, h, -⟩
      cases h

theorem toOption_eq_some {x : Except ε α} {a : α} : x.toOption = some a ↔ x = .ok a := by
  cases x with
  | ok b => simp [Except.toOption]
  | error e => simp [Except.toOption]

/-! ## The state at the end of a run -/

/-- The state in which a run ends, well or not. -/
def finalState : EStateM.Result ε σ α → σ
  | .ok _ s => s
  | .error _ s => s

@[simp] theorem finalState_ok (a : α) (s : σ) :
    finalState (.ok a s : EStateM.Result ε σ α) = s := rfl

@[simp] theorem finalState_error (e : ε) (s : σ) :
    finalState (.error e s : EStateM.Result ε σ α) = s := rfl

/-- The program stopped with an error. -/
def IsError : EStateM.Result ε σ α → Prop
  | .ok _ _ => False
  | .error _ _ => True

/-- The program stopped with an error, or answered no. -/
def Rejects : EStateM.Result ε σ Bool → Prop
  | .ok answer _ => answer = false
  | .error _ _ => True

theorem IsError.rejects {r : EStateM.Result ε σ Bool} (h : IsError r) : Rejects r := by
  cases r with
  | ok a s => exact h.elim
  | error e s => trivial

/-! ## Two runs side by side -/

/-- The runs end in one way, with one answer, in states that `R` relates. -/
inductive Agree (R : σ → σ → Prop) : EStateM.Result ε σ α → EStateM.Result ε σ α → Prop
  | ok (a : α) {s s' : σ} (h : R s s') : Agree R (.ok a s) (.ok a s')
  | error (e : ε) {s s' : σ} (h : R s s') : Agree R (.error e s) (.error e s')

/-- From related states the program runs alike, and into related states. -/
def Related (R : σ → σ → Prop) (x : EStateM ε σ α) : Prop :=
  ∀ s s', R s s' → Agree R (x.run s) (x.run s')

variable {R : σ → σ → Prop}

theorem related_pure (a : α) : Related R (pure a : EStateM ε σ α) := fun _ _ h => Agree.ok a h

theorem related_throw (e : ε) : Related R (throw e : EStateM ε σ α) :=
  fun _ _ h => Agree.error e h

theorem related_modifyGet {f : σ → α × σ} (hval : ∀ s s', R s s' → (f s).1 = (f s').1)
    (h : ∀ s s', R s s' → R (f s).2 (f s').2) : Related R (modifyGet f : EStateM ε σ α) := by
  intro s s' hs
  have hrun : ∀ s, (modifyGet f : EStateM ε σ α).run s = .ok (f s).1 (f s).2 := fun _ => rfl
  rw [hrun, hrun, hval s s' hs]
  exact Agree.ok _ (h s s' hs)

theorem related_modify {f : σ → σ} (h : ∀ s s', R s s' → R (f s) (f s')) :
    Related R (modify f : EStateM ε σ PUnit) := by
  intro s s' hs
  have hrun : ∀ s, (modify f : EStateM ε σ PUnit).run s = .ok ⟨⟩ (f s) := fun _ => rfl
  rw [hrun, hrun]
  exact Agree.ok PUnit.unit (h s s' hs)

theorem related_bind {x : EStateM ε σ α} {f : α → EStateM ε σ β} (hx : Related R x)
    (hf : ∀ a, Related R (f a)) : Related R (x >>= f) := by
  intro s s' hs
  have hagree := hx s s' hs
  rw [EStateM.run_bind, EStateM.run_bind]
  generalize x.run s = r at hagree ⊢
  generalize x.run s' = r' at hagree ⊢
  cases hagree with
  | ok a h => exact hf a _ _ h
  | error e h => exact Agree.error e h

/-- The rest may look at the state where related states agree. -/
theorem related_get_bind {f : σ → EStateM ε σ β} (hval : ∀ s s', R s s' → f s = f s')
    (hf : ∀ s, Related R (f s)) : Related R (get >>= f) := by
  intro s s' hs
  have hrun : ∀ s, (get >>= f : EStateM ε σ β).run s = (f s).run s := fun _ => rfl
  rw [hrun, hrun, ← hval s s' hs]
  exact hf s s s' hs

theorem related_ite {p : Prop} [Decidable p] {x y : EStateM ε σ α} (hx : Related R x)
    (hy : Related R y) : Related R (if p then x else y) := by
  split
  · exact hx
  · exact hy

/-! ## Properties and changes that a program keeps -/

/-- The program keeps the property `I` of the state, on every way out. -/
def Keeps (I : σ → Prop) (x : EStateM ε σ α) : Prop := ∀ s, I s → I (finalState (x.run s))

/-- A property is kept when the run side by side with itself keeps it. -/
theorem keeps_of_related {I : σ → Prop} {x : EStateM ε σ α}
    (h : Related (fun s s' => s = s' ∧ I s) x) : Keeps I x := by
  intro s hs
  have hagree := h s s ⟨rfl, hs⟩
  generalize x.run s = r at hagree ⊢
  cases hagree with
  | ok a h => exact h.2
  | error e h => exact h.2

/-- `φ` before the program is `φ` behind it. -/
theorem run_map_of_related {φ : σ → σ} {x : EStateM ε σ α}
    (h : Related (fun s s' => s' = φ s) x) (s : σ) :
    x.run (φ s) = match x.run s with
      | .ok a s' => .ok a (φ s')
      | .error e s' => .error e (φ s') := by
  have hagree := h s (φ s) rfl
  generalize x.run s = r at hagree ⊢
  generalize x.run (φ s) = r' at hagree ⊢
  cases hagree with
  | ok a h => rw [h]
  | error e h => rw [h]

end exec
