-- Runs of a labelled step relation: the invariants that every step keeps, and
-- the runs whose steps all meet a condition.
import Mathlib.Tactic

namespace runs

variable {σ α : Type} {step step' : σ → α → σ → Prop} {init s s' : σ} {as bs : List α} {a : α}

/-- The state that the steps with the given labels lead to. -/
inductive Run (step : σ → α → σ → Prop) (init : σ) : List α → σ → Prop
  | nil : Run step init [] init
  | snoc {as : List α} {s : σ} {a : α} {s' : σ} (before : Run step init as s)
      (last : step s a s') : Run step init (as ++ [a]) s'

/-- The steps that meet a condition on the state before them. -/
def Meeting (meets : σ → α → Prop) (step : σ → α → σ → Prop) (s : σ) (a : α) (s' : σ) : Prop :=
  meets s a ∧ step s a s'

/-- What holds at the start and is kept by each step holds after every run. -/
theorem Run.invariant (I : List α → σ → Prop) (hinit : I [] init)
    (hstep : ∀ as s a s', Run step init as s → I as s → step s a s' → I (as ++ [a]) s')
    (h : Run step init as s) : I as s := by
  induction h with
  | nil => exact hinit
  | snoc before last ih => exact hstep _ _ _ _ before ih last

theorem Run.mono (h : Run step init as s) (hle : ∀ s a s', step s a s' → step' s a s') :
    Run step' init as s := by
  induction h with
  | nil => exact Run.nil
  | snoc _ last ih => exact ih.snoc (hle _ _ _ last)

theorem Run.append (h : Run step init as s) (h' : Run step s bs s') :
    Run step init (as ++ bs) s' := by
  induction h' with
  | nil => simpa using h
  | snoc _ last ih =>
    rw [← List.append_assoc]
    exact ih.snoc last

/-- A run of steps that each are a step of a smaller machine, or none at all. -/
theorem Run.simulates {τ β : Type} {small : τ → β → τ → Prop} (view : σ → τ) (label : α → Option β)
    (hstep : ∀ s a s', step s a s' →
      (label a = none ∧ view s' = view s) ∨ ∃ b, label a = some b ∧ small (view s) b (view s'))
    (h : Run step init as s) : Run small (view init) (as.filterMap label) (view s) := by
  induction h with
  | nil => exact Run.nil
  | @snoc as s a s' before last ih =>
    rw [List.filterMap_append]
    rcases hstep s a s' last with ⟨hnone, hsame⟩ | ⟨b, hb, hsmall⟩
    · simpa [hnone, hsame] using ih
    · simpa [hb] using ih.snoc hsmall

/-- The last step of a run. -/
theorem Run.of_concat (h : Run step init (as ++ [a]) s') :
    ∃ s, Run step init as s ∧ step s a s' := by
  generalize hl : as ++ [a] = l at h
  cases h with
  | nil => simp at hl
  | snoc before last =>
    obtain ⟨rfl, rfl⟩ := List.append_inj' hl rfl |>.imp id (fun h => by simpa using h)
    exact ⟨_, before, last⟩

/-- A run taken apart where one list of labels ends. -/
theorem Run.of_append (h : Run step init (as ++ bs) s') :
    ∃ s, Run step init as s ∧ Run step s bs s' := by
  induction bs using List.reverseRecOn generalizing s' with
  | nil => exact ⟨s', by simpa using h, Run.nil⟩
  | append_singleton bs b ih =>
    rw [← List.append_assoc] at h
    obtain ⟨t, hbefore, hlast⟩ := h.of_concat
    obtain ⟨s, hs, hrest⟩ := ih hbefore
    exact ⟨s, hs, hrest.snoc hlast⟩

end runs
