-- The maximal runs of a list: its longest parts whose elements all have a property,
-- in order, and what becomes of them when the list is cut off before its end.
import Mathlib.Data.List.TakeWhile
import Mathlib.Tactic

namespace maximal_runs

variable {α : Type} {p : α → Bool} {n : Nat} {l before run after : List α}

/-- The maximal runs of at least `n` elements: the elements without the property
split the list. -/
def longRuns (p : α → Bool) (n : Nat) (l : List α) : List (List α) :=
  (l.splitOnP (fun a => !p a)).filter (fun run => n ≤ run.length)

/-- All elements of the run have the property, and its neighbours do not. -/
structure IsRun (p : α → Bool) (before run after : List α) : Prop where
  all : ∀ a ∈ run, p a
  start : ∀ a ∈ before.getLast?, p a = false
  stop : ∀ a ∈ after.head?, p a = false

/-! ## The first run, and the rest of the list -/

/-- A list is one run, or it starts with a run that an element ends. -/
theorem runs_induction {motive : List α → Prop} (p : α → Bool)
    (whole : ∀ l, (∀ a ∈ l, p a) → motive l)
    (cut : ∀ first a rest, (∀ b ∈ first, p b) → p a = false → motive rest →
      motive (first ++ a :: rest)) (l : List α) : motive l := by
  induction hlength : l.length using Nat.strong_induction_on generalizing l with
  | _ k ih =>
    cases hrest : l.dropWhile p with
    | nil => exact whole l (List.dropWhile_eq_nil_iff.mp hrest)
    | cons a rest =>
      have hsplit : l = l.takeWhile p ++ a :: rest := by
        rw [← hrest, List.takeWhile_append_dropWhile]
      have hstop : p a = false := by
        have hhead := List.head?_dropWhile_not p l
        rw [hrest] at hhead
        simpa using hhead
      have hshort : rest.length < k := by
        rw [← hlength, hsplit, List.length_append, List.length_cons]
        omega
      rw [hsplit]
      exact cut _ a rest (fun b hb => List.mem_takeWhile_imp hb) hstop (ih _ hshort rest rfl)

theorem longRuns_whole (h : ∀ a ∈ l, p a) :
    longRuns p n l = if n ≤ l.length then [l] else [] := by
  rw [longRuns, List.splitOnP_eq_singleton (by simpa using h), List.filter_singleton]
  simp

theorem longRuns_cut {first rest : List α} {a : α} (h : ∀ b ∈ first, p b) (ha : p a = false) :
    longRuns p n (first ++ a :: rest) =
      (if n ≤ first.length then [first] else []) ++ longRuns p n rest := by
  rw [longRuns, List.splitOnP_append_cons_of_forall_mem (by simpa using h) a (by simpa using ha),
    List.filter_cons]
  simp only [decide_eq_true_eq]
  split
  · rfl
  · rfl

theorem longRuns_short (h : l.length < n) : longRuns p n l = [] := by
  induction l using runs_induction p with
  | whole l hall => rw [longRuns_whole hall, if_neg (by omega)]
  | cut first a rest hfirst ha ih =>
    rw [List.length_append, List.length_cons] at h
    rw [longRuns_cut hfirst ha, if_neg (by omega), ih (by omega)]
    rfl

/-! ## The runs as parts of the list -/

theorem IsRun.whole (h : IsRun p before run after) (hall : ∀ a ∈ before ++ (run ++ after), p a) :
    before = [] ∧ after = [] := by
  constructor
  · cases hlast : before.getLast? with
    | none => exact List.getLast?_eq_none_iff.mp hlast
    | some a =>
      have hp := hall a (List.mem_append_left _ (List.mem_of_getLast? hlast))
      rw [h.start a hlast] at hp
      cases hp
  · cases hhead : after.head? with
    | none => exact List.head?_eq_none_iff.mp hhead
    | some a =>
      have hp := hall a (List.mem_append_right _ (List.mem_append_right _
        (List.mem_of_head? hhead)))
      rw [h.stop a hhead] at hp
      cases hp

/-- A run is the first one, or it is a run of the rest. -/
theorem IsRun.cut {first rest : List α} {a : α} (h : IsRun p before run after) (hrun : run ≠ [])
    (hfirst : ∀ b ∈ first, p b) (ha : p a = false)
    (hsplit : first ++ a :: rest = before ++ (run ++ after)) :
    (before = [] ∧ run = first ∧ after = a :: rest) ∨
      ∃ before', rest = before' ++ (run ++ after) ∧ IsRun p before' run after := by
  have hnot : a ∉ run := by
    intro hmem
    rw [h.all a hmem] at ha
    cases ha
  rcases List.append_eq_append_iff.mp hsplit with ⟨c, hbefore, hrest⟩ | ⟨c, hin, hrest⟩
  · cases c with
    | nil =>
      obtain ⟨b, run', rfl⟩ := List.exists_cons_of_ne_nil hrun
      rw [List.nil_append, List.cons_append, List.cons.injEq] at hrest
      exact absurd (hrest.1 ▸ List.mem_cons_self) hnot
    | cons b before' =>
      rw [List.cons_append, List.cons.injEq] at hrest
      refine Or.inr ⟨before', hrest.2, h.all, ?_, h.stop⟩
      intro c hc
      refine h.start c ?_
      rw [hbefore, List.getLast?_append, List.getLast?_cons, Option.mem_def.mp hc]
      simp
  · -- an element before the run has the property
    have hnil : before = [] := by
      cases hlast : before.getLast? with
      | none => exact List.getLast?_eq_none_iff.mp hlast
      | some b =>
        have hp := hfirst b (hin ▸ List.mem_append_left _ (List.mem_of_getLast? hlast))
        rw [h.start b hlast] at hp
        cases hp
    rw [hnil, List.nil_append] at hin
    subst hin
    refine Or.inl ⟨hnil, ?_⟩
    rcases List.append_eq_append_iff.mp hrest with ⟨d, hmore, hafter⟩ | ⟨d, hless, hafter⟩
    · cases d with
      | nil => exact ⟨by simpa using hmore.symm, by simpa using hafter⟩
      | cons b d =>
        have hp := hfirst b (hmore ▸ List.mem_append_right _ List.mem_cons_self)
        rw [h.stop b (by rw [hafter]; rfl)] at hp
        cases hp
    · cases d with
      | nil => exact ⟨by simpa using hless, by simpa using hafter.symm⟩
      | cons b d =>
        rw [List.cons_append, List.cons.injEq] at hafter
        exact absurd (hless ▸ List.mem_append_right _ (hafter.1 ▸ List.mem_cons_self)) hnot

theorem isRun_first {first rest : List α} {a : α} (hfirst : ∀ b ∈ first, p b) (ha : p a = false) :
    IsRun p [] first (a :: rest) :=
  ⟨hfirst, by simp, by simpa using ha⟩

theorem IsRun.behind {first : List α} {a : α} (h : IsRun p before run after) (ha : p a = false) :
    IsRun p (first ++ a :: before) run after := by
  refine ⟨h.all, ?_, h.stop⟩
  intro b hb
  rw [List.getLast?_append, List.getLast?_cons] at hb
  cases hlast : before.getLast? with
  | none =>
    obtain rfl : a = b := by simpa [hlast] using hb
    exact ha
  | some c =>
    obtain rfl : c = b := by simpa [hlast] using hb
    exact h.start c hlast

/-- The reference lists the maximal runs that have the length, and no other parts. -/
theorem mem_longRuns (hn : 0 < n) : run ∈ longRuns p n l ↔
    n ≤ run.length ∧ ∃ before after, l = before ++ (run ++ after) ∧ IsRun p before run after := by
  induction l using runs_induction p with
  | whole l hall =>
    rw [longRuns_whole hall]
    constructor
    · intro hmem
      split at hmem
      · rename_i hlong
        obtain rfl := List.mem_singleton.mp hmem
        exact ⟨hlong, [], [], by simp, hall, by simp, by simp⟩
      · cases hmem
    · rintro ⟨hlong, before, after, rfl, hrun⟩
      obtain ⟨rfl, rfl⟩ := hrun.whole hall
      rw [List.nil_append, List.append_nil, if_pos hlong]
      exact List.mem_singleton_self _
  | cut first a rest hfirst ha ih =>
    rw [longRuns_cut hfirst ha, List.mem_append, ih]
    constructor
    · rintro (hmem | ⟨hlong, before, after, rfl, hrun⟩)
      · split at hmem
        · rename_i hlong
          obtain rfl := List.mem_singleton.mp hmem
          exact ⟨hlong, [], a :: rest, rfl, isRun_first hfirst ha⟩
        · cases hmem
      · exact ⟨hlong, first ++ a :: before, after, by simp, hrun.behind ha⟩
    · rintro ⟨hlong, before, after, hsplit, hrun⟩
      have hne : run ≠ [] := List.length_pos_iff.mp (by omega)
      rcases hrun.cut hne hfirst ha hsplit with ⟨-, rfl, -⟩ | ⟨before', hrest, hrun'⟩
      · rw [if_pos hlong]
        exact Or.inl (List.mem_singleton_self _)
      · exact Or.inr ⟨hlong, before', after, hrest, hrun'⟩

theorem longRuns_eq_nil_iff (hn : 0 < n) : longRuns p n l = [] ↔
    ∀ before run after, l = before ++ (run ++ after) → IsRun p before run after →
      ¬ n ≤ run.length := by
  rw [List.eq_nil_iff_forall_not_mem]
  constructor
  · intro h before run after hsplit hrun hlong
    exact h run ((mem_longRuns hn).mpr ⟨hlong, before, after, hsplit, hrun⟩)
  · intro h run hmem
    obtain ⟨hlong, before, after, hsplit, hrun⟩ := (mem_longRuns hn).mp hmem
    exact h before run after hsplit hrun hlong

/-! ## A list that is cut off -/

/-- Every run of at least `n` elements has at least `n` elements behind it. -/
def EndsEarly (p : α → Bool) (n : Nat) (l : List α) : Prop :=
  ∀ before run after, l = before ++ (run ++ after) → IsRun p before run after → n ≤ run.length →
    n ≤ after.length

theorem endsEarly_whole (hn : 0 < n) (hall : ∀ a ∈ l, p a) : EndsEarly p n l ↔ l.length < n := by
  constructor
  · intro h
    by_contra hlong
    have hafter := h [] l [] (by simp) ⟨hall, by simp, by simp⟩ (by omega)
    rw [List.length_nil] at hafter
    omega
  · rintro hshort before run after rfl - hlong
    simp only [List.length_append] at hshort
    omega

theorem endsEarly_cut {first rest : List α} {a : α} (hn : 0 < n) (hfirst : ∀ b ∈ first, p b)
    (ha : p a = false) : EndsEarly p n (first ++ a :: rest) ↔
      (n ≤ first.length → n ≤ rest.length + 1) ∧ EndsEarly p n rest := by
  constructor
  · intro h
    constructor
    · exact h [] first (a :: rest) rfl (isRun_first hfirst ha)
    · rintro before run after rfl hrun
      exact h (first ++ a :: before) run after (by simp) (hrun.behind ha)
  · rintro ⟨hown, hothers⟩ before run after hsplit hrun hlong
    have hne : run ≠ [] := List.length_pos_iff.mp (by omega)
    rcases hrun.cut hne hfirst ha hsplit with ⟨-, rfl, rfl⟩ | ⟨before', hrest, hrun'⟩
    · exact hown hlong
    · exact hothers before' run after hrest hrun' hlong

theorem endsEarly_short (h : l.length < n) : EndsEarly p n l := by
  rintro before run after rfl - hlong
  simp only [List.length_append] at h
  omega

/-- Without its last `n` elements a list has the same runs of at least `n` elements
exactly when none of them ends there. -/
theorem longRuns_take_eq_iff (hn : 0 < n) (hle : n ≤ l.length) :
    longRuns p n (l.take (l.length - n)) = longRuns p n l ↔ EndsEarly p n l := by
  induction l using runs_induction p with
  | whole l hall =>
    rw [endsEarly_whole hn hall, longRuns_whole hall, if_pos hle,
      longRuns_whole (fun a ha => hall a (List.mem_of_mem_take ha))]
    refine iff_of_false ?_ (by omega)
    intro heq
    split at heq
    · have hlength := congrArg List.length (List.singleton_inj.mp heq)
      rw [List.length_take] at hlength
      omega
    · cases heq
  | cut first a rest hfirst ha ih =>
    have hlength : (first ++ a :: rest).length = first.length + rest.length + 1 := by
      simp
      omega
    rw [endsEarly_cut hn hfirst ha, longRuns_cut hfirst ha, hlength]
    rcases Nat.lt_or_ge rest.length n with hshort | hlong
    · -- only the first run is long enough
      have htake : (first ++ a :: rest).take (first.length + rest.length + 1 - n) =
          first.take (first.length + rest.length + 1 - n) :=
        List.take_append_of_le_length (by omega)
      rw [htake, longRuns_short hshort, List.append_nil, and_iff_left (endsEarly_short hshort),
        longRuns_whole (fun b hb => hfirst b (List.mem_of_mem_take hb))]
      by_cases hown : n ≤ first.length
      · rw [if_pos hown]
        constructor
        · intro heq _
          split at heq
          · have hsame := congrArg List.length (List.singleton_inj.mp heq)
            rw [List.length_take] at hsame
            omega
          · cases heq
        · intro hroom
          have hroom := hroom hown
          rw [List.take_of_length_le (by omega), if_pos hown]
      · rw [if_neg hown, if_neg (by rw [List.length_take]; omega)]
        exact iff_of_true rfl (fun h => absurd h hown)
    · have htake : (first ++ a :: rest).take (first.length + rest.length + 1 - n) =
          first ++ a :: rest.take (rest.length - n) := by
        rw [List.take_append, List.take_of_length_le (by omega),
          show first.length + rest.length + 1 - n - first.length = rest.length - n + 1 by omega,
          List.take_succ_cons]
      rw [htake, longRuns_cut hfirst ha, List.append_right_inj, ih hlong]
      exact (and_iff_right (fun _ => by omega)).symm

end maximal_runs
