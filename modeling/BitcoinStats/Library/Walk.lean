-- Walks along a partial successor function, such as the links of a list that
-- is kept in a set: the walk as a list, when it ends, and that it repeats nothing.
import Mathlib.Tactic

namespace walk

variable {α : Type}

/-- `a` leads to `b`. -/
def Leads (next : α → Option α) (a b : α) : Prop := next a = some b

/-- No element leads back to itself. -/
def Acyclic (next : α → Option α) : Prop := ∀ a, ¬ Relation.TransGen (Leads next) a a

/-- The elements of the walk from `o` on, for a walk of fewer than `fuel` steps. -/
def steps (next : α → Option α) : Nat → Option α → Option (List α)
  | 0, _ => none
  | _ + 1, none => some []
  | fuel + 1, some a => (steps next fuel (next a)).map (a :: ·)

variable {next : α → Option α} {o : Option α} {a : α} {l l' : List α} {m n : Nat}

@[simp] theorem steps_none (n : Nat) : steps next (n + 1) none = some [] := rfl

@[simp] theorem steps_some (n : Nat) (a : α) :
    steps next (n + 1) (some a) = (steps next n (next a)).map (a :: ·) := rfl

theorem steps_some_eq (h : steps next n (some a) = some l) :
    ∃ m l', n = m + 1 ∧ l = a :: l' ∧ steps next m (next a) = some l' := by
  cases n with
  | zero => cases h
  | succ m =>
    obtain ⟨l', hl', rfl⟩ := Option.map_eq_some_iff.mp h
    exact ⟨m, l', rfl, rfl, hl'⟩

theorem steps_none_eq (h : steps next n none = some l) : l = [] := by
  cases n with
  | zero => cases h
  | succ m => exact (Option.some.inj h).symm

theorem steps_mono (h : steps next n o = some l) (hnm : n ≤ m) : steps next m o = some l := by
  induction n generalizing m o l with
  | zero => cases h
  | succ n ih =>
    obtain ⟨m, rfl⟩ : ∃ k, m = k + 1 := ⟨m - 1, by omega⟩
    cases o with
    | none => exact h
    | some a =>
      obtain ⟨_, l', hn, rfl, hl'⟩ := steps_some_eq h
      obtain rfl := Nat.succ.inj hn
      rw [steps_some, ih hl' (by omega)]
      rfl

/-- The walk does not depend on the fuel. -/
theorem steps_unique (h : steps next m o = some l) (h' : steps next n o = some l') : l = l' := by
  have hm := steps_mono h (Nat.le_max_left m n)
  have hn := steps_mono h' (Nat.le_max_right m n)
  exact Option.some.inj (hm.symm.trans hn)

theorem steps_length (h : steps next n o = some l) : steps next (l.length + 1) o = some l := by
  induction l generalizing n o with
  | nil =>
    cases o with
    | none => rfl
    | some a =>
      obtain ⟨_, _, _, hl, _⟩ := steps_some_eq h
      cases hl
  | cons b l ih =>
    cases o with
    | none => cases steps_none_eq h
    | some a =>
      obtain ⟨_, l', _, hl, hl'⟩ := steps_some_eq h
      obtain ⟨rfl, rfl⟩ := List.cons.inj hl
      rw [List.length_cons, steps_some, ih hl']
      rfl

theorem steps_lt (h : steps next n o = some l) : l.length < n := by
  induction n generalizing o l with
  | zero => cases h
  | succ n ih =>
    cases o with
    | none =>
      rw [steps_none_eq h]
      exact Nat.succ_pos n
    | some a =>
      obtain ⟨_, l', hn, rfl, hl'⟩ := steps_some_eq h
      obtain rfl := Nat.succ.inj hn
      exact Nat.succ_lt_succ (ih hl')

/-- What is left of a walk from one of its elements on is the walk from there. -/
theorem steps_suffix {p q : List α} (h : steps next n o = some (p ++ a :: q)) :
    ∃ m, steps next m (some a) = some (a :: q) := by
  induction p generalizing n o with
  | nil =>
    cases o with
    | none => cases steps_none_eq h
    | some b =>
      obtain ⟨_, l', _, hl, _⟩ := steps_some_eq h
      obtain ⟨rfl, rfl⟩ := List.cons.inj hl
      exact ⟨n, h⟩
  | cons c p ih =>
    cases o with
    | none => cases steps_none_eq h
    | some b =>
      obtain ⟨_, l', _, hl, hl'⟩ := steps_some_eq h
      obtain ⟨rfl, rfl⟩ := List.cons.inj hl
      exact ih hl'

/-- A walk that ends meets nothing twice: from the second time on it would be
as long as from the first. -/
theorem steps_nodup (h : steps next n o = some l) : l.Nodup := by
  induction l generalizing n o with
  | nil => exact List.nodup_nil
  | cons b l ih =>
    cases o with
    | none => cases steps_none_eq h
    | some a =>
      obtain ⟨m, l', _, hl, hl'⟩ := steps_some_eq h
      obtain ⟨rfl, rfl⟩ := List.cons.inj hl
      refine List.nodup_cons.mpr ⟨?_, ih hl'⟩
      intro hmem
      obtain ⟨p, q, hpq⟩ := List.append_of_mem hmem
      rw [hpq] at hl'
      obtain ⟨k, hk⟩ := steps_suffix hl'
      have hsame := steps_unique hk h
      have hlen := congrArg List.length (hsame.trans (congrArg (b :: ·) hpq))
      simp at hlen
      omega

theorem steps_leads (h : steps next n o = some l) : l.IsChain (Leads next) := by
  induction l generalizing n o with
  | nil => exact List.isChain_nil
  | cons b l ih =>
    cases o with
    | none => cases steps_none_eq h
    | some a =>
      obtain ⟨m, l', _, hl, hl'⟩ := steps_some_eq h
      obtain ⟨rfl, rfl⟩ := List.cons.inj hl
      cases l with
      | nil => exact List.isChain_singleton b
      | cons c l =>
        refine List.isChain_cons_cons.mpr ⟨?_, ih hl'⟩
        cases hb : next b with
        | none =>
          rw [hb] at hl'
          cases steps_none_eq hl'
        | some d =>
          rw [hb] at hl'
          obtain ⟨_, _, _, hd, _⟩ := steps_some_eq hl'
          obtain ⟨rfl, _⟩ := List.cons.inj hd
          exact hb

/-- The last element of a walk leads nowhere. -/
theorem steps_last (h : steps next n o = some (l ++ [a])) : next a = none := by
  obtain ⟨m, hm⟩ := steps_suffix h
  obtain ⟨k, l', _, hl, hl'⟩ := steps_some_eq hm
  obtain ⟨-, rfl⟩ := List.cons.inj hl
  cases ha : next a with
  | none => rfl
  | some b =>
    rw [ha] at hl'
    obtain ⟨_, _, _, hb, _⟩ := steps_some_eq hl'
    cases hb

/-- A chain of elements that ends where nothing is led to is the walk. -/
theorem steps_of_isChain (h : (a :: l).IsChain (Leads next))
    (hlast : ∀ b, (a :: l).getLast? = some b → next b = none) :
    steps next (l.length + 2) (some a) = some (a :: l) := by
  induction l generalizing a with
  | nil =>
    rw [steps_some, hlast a rfl]
    rfl
  | cons b l ih =>
    obtain ⟨hab, hrest⟩ := List.isChain_cons_cons.mp h
    rw [List.length_cons, steps_some, show next a = some b from hab,
      ih hrest (by simpa [List.getLast?_cons_cons] using hlast)]
    rfl

/-- A walk that is longer than its fuel starts with that many steps. -/
theorem steps_eq_none (h : steps next (n + 1) (some a) = none) :
    ∃ path : List α, path.length = n ∧ (a :: path).IsChain (Leads next) := by
  induction n generalizing a with
  | zero => exact ⟨[], rfl, List.isChain_singleton a⟩
  | succ n ih =>
    rw [steps_some, Option.map_eq_none_iff] at h
    cases ha : next a with
    | none =>
      rw [ha] at h
      cases h
    | some b =>
      rw [ha] at h
      obtain ⟨path, hlen, hchain⟩ := ih h
      exact ⟨b :: path, by simp [hlen], List.isChain_cons_cons.mpr ⟨ha, hchain⟩⟩

theorem nodup_of_acyclic (h : Acyclic next) (hl : l.IsChain (Leads next)) : l.Nodup := by
  have htrans : l.IsChain (Relation.TransGen (Leads next)) :=
    hl.imp (fun _ _ => Relation.TransGen.single)
  refine (List.isChain_iff_pairwise.mp htrans).imp ?_
  rintro a b hab rfl
  exact h a hab

/-- There is no cycle where every step lowers a rank. -/
theorem acyclic_of_rank (rank : α → Nat) {S : List α} (hS : ∀ a b, next a = some b → b ∈ S)
    (hrank : ∀ a b, a ∈ S → next a = some b → rank b < rank a) : Acyclic next := by
  have hlower : ∀ a b, Relation.TransGen (Leads next) a b → b ∈ S ∧ (a ∈ S → rank b < rank a) := by
    intro a b hab
    induction hab with
    | single h => exact ⟨hS _ _ h, fun ha => hrank _ _ ha h⟩
    | tail _ h ih =>
      refine ⟨hS _ _ h, fun ha => ?_⟩
      exact Nat.lt_trans (hrank _ _ ih.1 h) (ih.2 ha)
  intro a ha
  obtain ⟨hmem, hlt⟩ := hlower a a ha
  exact Nat.lt_irrefl _ (hlt hmem)

/-- In a finite set without a cycle every walk ends. -/
theorem steps_of_acyclic {S : List α} (hacyclic : Acyclic next)
    (hS : ∀ a b, next a = some b → b ∈ S) (ho : ∀ a, o = some a → a ∈ S) :
    ∃ l, steps next (S.length + 1) o = some l := by
  cases h : steps next (S.length + 1) o with
  | some l => exact ⟨l, rfl⟩
  | none =>
    cases o with
    | none => cases h
    | some a =>
      obtain ⟨path, hlen, hchain⟩ := steps_eq_none h
      have hsub : ∀ (l : List α) (a : α), a ∈ S → (a :: l).IsChain (Leads next) →
          ∀ x ∈ a :: l, x ∈ S := by
        intro l
        induction l with
        | nil =>
          intro a ha _ x hx
          rwa [List.mem_singleton.mp hx]
        | cons b l ih =>
          intro a ha hc x hx
          obtain ⟨hab, hrest⟩ := List.isChain_cons_cons.mp hc
          rcases List.mem_cons.mp hx with rfl | hx
          · exact ha
          · exact ih b (hS a b hab) hrest x hx
      have hle := ((nodup_of_acyclic hacyclic hchain).subperm
        (hsub path a (ho a rfl) hchain)).length_le
      simp [hlen] at hle

/-- So a walk in a finite set that does not end within its size never ends. -/
theorem steps_never_ends {S : List α} (hS : ∀ a b, next a = some b → b ∈ S)
    (ho : ∀ a, o = some a → a ∈ S) (h : steps next (S.length + 1) o = none) (n : Nat) :
    steps next n o = none := by
  cases hn : steps next n o with
  | none => rfl
  | some l =>
    have hmem : ∀ x ∈ l, x ∈ S := by
      clear h
      induction l generalizing n o with
      | nil => simp
      | cons b l ih =>
        cases o with
        | none => cases steps_none_eq hn
        | some a =>
          obtain ⟨m, l', _, hl, hl'⟩ := steps_some_eq hn
          obtain ⟨rfl, rfl⟩ := List.cons.inj hl
          intro x hx
          rcases List.mem_cons.mp hx with rfl | hx
          · exact ho x rfl
          · exact ih (fun c hc => hS b c hc) m hl' x hx
    have hle := ((steps_nodup hn).subperm hmem).length_le
    rw [steps_mono (steps_length hn) (by omega)] at h
    cases h

end walk
