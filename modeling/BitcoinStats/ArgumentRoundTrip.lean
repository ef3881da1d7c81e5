-- A line that is written from arguments is split into them again: each argument
-- is quoted or bare, and stands between spaces and tabs.
import BitcoinStats.ArgumentTables

open cells

namespace bitcoinstats.getargs

/-! ## The lines that are written from arguments -/

/-- An argument with a space in it, or without characters, has to be quoted. -/
inductive WrittenAs (a : List UInt8) : List UInt8 → Prop
  | quoted : WrittenAs a (34 :: (a ++ [34]))
  | bare (hne : a ≠ []) (hspace : ∀ c ∈ a, isWhiteSpace c = false) : WrittenAs a a

/-- The arguments in a row, each with the spaces behind it. -/
inductive Rendered : List (List UInt8) → List UInt8 → Prop
  | nil : Rendered [] []
  | cons {a written gap rest : List UInt8} {args : List (List UInt8)} (hwritten : WrittenAs a written)
      (hgap : ∀ c ∈ gap, isWhiteSpace c) (hsep : args ≠ [] → gap ≠ [])
      (hrest : Rendered args rest) : Rendered (a :: args) (written ++ (gap ++ rest))

/-- Neither the end of the string nor a quote is in the argument. -/
def Plain (a : List UInt8) : Prop := 0 ∉ a ∧ 34 ∉ a

/-- The string that a pointer leads to. -/
def Pointer.string (mArgString : List UInt8) : Pointer → Option (List UInt8)
  | .literal => some []
  | .place p => stringAt mArgString p

variable {a written line rest input : List UInt8} {args done : List (List UInt8)}

theorem Rendered.ready (h : Rendered args line) : Ready line := by
  intro c hc
  cases h with
  | nil => simp at hc
  | cons hwritten hgap hsep hrest =>
    cases hwritten with
    | quoted =>
      simp at hc
      rw [← hc]
      decide
    | bare hne hspace =>
      obtain ⟨c', a', rfl⟩ := List.exists_cons_of_ne_nil hne
      simp at hc
      exact hspace c (by simp [hc])

theorem WrittenAs.noZero (h : WrittenAs a written) (ha : Plain a) : 0 ∉ written := by
  cases h with
  | quoted => simp [ha.1]
  | bare hne hspace => exact ha.1

theorem Rendered.noZero (h : Rendered args line) (hplain : ∀ a ∈ args, Plain a) : 0 ∉ line := by
  induction h with
  | nil => simp
  | cons hwritten hgap hsep hrest ih =>
    have hfirst := hwritten.noZero (hplain _ List.mem_cons_self)
    have hlast := ih (fun b hb => hplain b (List.mem_cons_of_mem _ hb))
    simp only [List.mem_append, not_or]
    refine ⟨hfirst, ?_, hlast⟩
    intro hmem
    exact absurd (hgap 0 hmem) (by decide)

/-- The spaces behind an argument are skipped. -/
theorem Rendered.skip {gap : List UInt8} (h : Rendered args rest) (hgap : ∀ c ∈ gap, isWhiteSpace c) :
    (gap ++ rest).dropWhile isWhiteSpace = rest := by
  rw [List.dropWhile_append_of_pos hgap]
  cases rest with
  | nil => rfl
  | cons c rest =>
    rw [List.dropWhile_cons, h.ready c rfl]
    rfl

theorem nextArgument_quoted {c : UInt8} (ha : Plain (c :: a)) (behind : List UInt8) :
    nextArgument 34 (c :: a ++ [34] ++ behind) =
      { text := c :: a, places := c :: a ++ [0], rest := behind.dropWhile isWhiteSpace } := by
  obtain ⟨hc, hmem⟩ : (34 : UInt8) ≠ c ∧ 34 ∉ a := by simpa using ha.2
  have hquote : ∀ d ∈ c :: a, (!isQuote d) = true := by
    intro d hd
    have hne : d ≠ 34 := fun heq => ha.2 (heq ▸ hd)
    simp [isQuote, hne]
  have htake : (c :: a ++ [34] ++ behind).takeWhile (fun c => !isQuote c) = c :: a := by
    rw [List.append_assoc, List.takeWhile_append_of_pos hquote]
    simp [isQuote]
  have hdrop : (c :: a ++ [34] ++ behind).dropWhile (fun c => !isQuote c) = 34 :: behind := by
    rw [List.append_assoc, List.dropWhile_append_of_pos hquote]
    simp [isQuote]
  rw [nextArgument, if_pos rfl, if_neg (by simpa using Ne.symm hc), htake, hdrop, List.tail_cons]

/-- A bare argument ends before a space, or at the end of the line. -/
theorem nextArgument_bare {c : UInt8} {behind : List UInt8} (hquote : c ≠ 34)
    (hspace : ∀ d ∈ a, isWhiteSpace d = false) (hstop : ∀ d ∈ behind.head?, isWhiteSpace d) :
    nextArgument c (a ++ behind) =
      { text := c :: a, places := c :: a ++ [0], rest := behind.dropWhile isWhiteSpace } := by
  have hword : ∀ d ∈ a, (!isWhiteSpace d) = true := by
    intro d hd
    simp [hspace d hd]
  have hbehind : behind.takeWhile (fun c => !isWhiteSpace c) = [] ∧
      behind.dropWhile (fun c => !isWhiteSpace c) = behind := by
    cases behind with
    | nil => simp
    | cons d behind =>
      have hd := hstop d rfl
      simp [hd]
  rw [nextArgument, if_neg hquote, List.takeWhile_append_of_pos hword,
    List.dropWhile_append_of_pos hword, hbehind.1, hbehind.2, List.append_nil]

/-- Behind an argument there is a space, or nothing. -/
theorem Rendered.behind {gap : List UInt8} (h : Rendered args rest)
    (hgap : ∀ c ∈ gap, isWhiteSpace c) (hsep : args ≠ [] → gap ≠ []) :
    ∀ d ∈ (gap ++ rest).head?, isWhiteSpace d := by
  intro d hd
  cases gap with
  | cons g gap =>
    simp at hd
    exact hgap d (by simp [hd])
  | nil =>
    have hnil : args = [] := by
      by_contra hargs
      exact hsep hargs rfl
    subst hnil
    cases h
    simp at hd

/-- The first argument of the line, and what stands behind it. -/
theorem nextArgument_rendered (h : Rendered (a :: args) line) (ha : Plain a) :
    ∃ c line', line = c :: line' ∧
      ((nextArgument c line').places = a ++ [0] ∨ a = [] ∧ (nextArgument c line').places = []) ∧
      Rendered args (nextArgument c line').rest := by
  cases h with
  | @cons _ written gap rest _ hwritten hgap hsep hrest =>
    have hskip := hrest.skip hgap
    cases hwritten with
    | quoted =>
      refine ⟨34, a ++ [34] ++ (gap ++ rest), rfl, ?_⟩
      cases a with
      | nil => simp [nextArgument, hskip, hrest]
      | cons c a =>
        rw [nextArgument_quoted ha, hskip]
        exact ⟨Or.inl rfl, hrest⟩
    | bare hne hspace =>
      obtain ⟨c, a', rfl⟩ := List.exists_cons_of_ne_nil hne
      have hquote : c ≠ 34 := fun heq => ha.2 (heq ▸ List.mem_cons_self)
      have hword : ∀ d ∈ a', isWhiteSpace d = false :=
        fun d hd => hspace d (List.mem_cons_of_mem _ hd)
      refine ⟨c, a' ++ (gap ++ rest), rfl, ?_⟩
      rw [nextArgument_bare hquote hword (hrest.behind hgap hsep), hskip]
      exact ⟨Or.inl rfl, hrest⟩

/-! ## The run over the line -/

variable {st st' : Splitting} {argc dest : ℕ} {mArgString : List UInt8}

/-- The pointer leads to the argument, which stands before the place `dest`. -/
def Pointer.Shows (mArgString : List UInt8) (dest : ℕ) (a : List UInt8) : Pointer → Prop
  | .literal => a = []
  | .place p => ∃ q : ℕ, p = q ∧ q + a.length + 1 ≤ dest ∧
      (mArgString.drop q).take (a.length + 1) = a ++ [0]

/-- The pointers to the arguments so far. -/
def Holding (st : Splitting) (done : List (List UInt8)) (dest : ℕ) : Prop :=
  ∀ (i : ℕ) (a : List UInt8), done[i]? = some a →
    ∃ p : Pointer, st.mArgv[i]? = some (some p) ∧ Pointer.Shows st.mArgString dest a p

theorem Pointer.Shows.string {p : Pointer} (h : Pointer.Shows mArgString dest a p) (ha : 0 ∉ a) :
    p.string mArgString = some a := by
  cases p with
  | literal => rw [show a = [] from h, Pointer.string]
  | place p =>
    obtain ⟨q, rfl, -, htake⟩ := h
    exact stringAt_of_take (Int.natCast_nonneg q) ha htake

/-- What is stored from `dest` on leaves the arguments before it. -/
theorem Pointer.Shows.overwrite {p : Pointer} (h : Pointer.Shows mArgString dest a p)
    (places : List UInt8) (hroom : dest + places.length ≤ mArgString.length) :
    Pointer.Shows (overwrite mArgString dest places) (dest + places.length) a p := by
  cases p with
  | literal => exact h
  | place p =>
    obtain ⟨q, rfl, hle, htake⟩ := h
    exact ⟨q, rfl, by omega, by rw [slice_overwrite hroom (Or.inl (by omega)), htake]⟩

theorem shows_overwrite (a : List UInt8) (hroom : dest + (a ++ [0]).length ≤ mArgString.length) :
    Pointer.Shows (overwrite mArgString dest (a ++ [0])) (dest + (a ++ [0]).length) a
      (.place dest) := by
  have hlength : (a ++ [0]).length = a.length + 1 := by simp
  refine ⟨dest, rfl, by omega, ?_⟩
  rw [drop_overwrite (by omega), ← hlength, List.take_left]

/-- The argument that a turn has stored, with the ones before. -/
theorem Stored.holding {argument : Argument} {n : ℕ} (h : Sized st n done.length dest)
    (hstored : Stored input st st' argument n done.length dest) (hargc : done.length < n)
    (hplaces : argument.places = a ++ [0] ∨ a = [] ∧ argument.places = [])
    (hdone : Holding st done dest) :
    Holding st' (done ++ [a]) (dest + argument.places.length) := by
  have hlenv := h.mArgv
  have hlen := h.mArgString
  have hwhole := hstored.whole
  unfold MAX_ARG_STRING at hlen
  intro i b hb
  rw [hstored.mArgv, hstored.mArgString]
  rcases Nat.lt_trichotomy i done.length with hlt | heq | hgt
  · rw [List.getElem?_append_left hlt] at hb
    obtain ⟨p, hp, hshows⟩ := hdone i b hb
    refine ⟨p, ?_, hshows.overwrite _ (by omega)⟩
    rw [List.getElem?_set_ne (by omega), hp]
  · subst heq
    rw [List.getElem?_concat_length] at hb
    obtain rfl := Option.some.inj hb
    refine ⟨_, List.getElem?_set_self (by omega), ?_⟩
    rcases hplaces with hplaces | ⟨rfl, hplaces⟩
    · rw [hplaces, if_neg (by simp)]
      rw [hplaces] at hwhole
      exact shows_overwrite a (by omega)
    · rw [if_pos hplaces]
      rfl
  · rw [List.getElem?_eq_none (by simp; omega)] at hb
    simp at hb

/-- Turn by turn the loop takes the arguments, while both tables have room. -/
theorem getArgsLoop_rendered {fuel n : ℕ} (h : Sized st n done.length dest)
    (hat : At input st.str rest) (hrendered : Rendered args rest) (hplain : ∀ a ∈ args, Plain a)
    (hcount : done.length + args.length ≤ n)
    (hroom : dest + (args.map (fun a => a.length + 1)).sum ≤ 16383) (hfuel : rest.length < fuel)
    (hdone : Holding st done dest) :
    ∃ st' dest', getArgsLoop input fuel st = some st' ∧
      Sized st' n (done ++ args).length dest' ∧ Holding st' (done ++ args) dest' := by
  induction fuel generalizing st done dest args rest with
  | zero => omega
  | succ fuel ih =>
    unfold getArgsLoop
    simp only [Option.bind_eq_bind]
    rw [hat.load, Option.bind_some]
    cases args with
    | nil =>
      cases hrendered
      rw [if_neg (by simp), List.append_nil]
      exact ⟨st, dest, rfl, h, hdone⟩
    | cons a args =>
      have hready := hrendered.ready
      have hzero := hrendered.noZero hplain
      obtain ⟨c, line', rfl, hplaces, hrest⟩ :=
        nextArgument_rendered hrendered (hplain a List.mem_cons_self)
      have hc : c ≠ 0 := fun heq => hzero (heq ▸ List.mem_cons_self)
      have hle := (nextArgument_rest_sublist c line').length_le
      have hdest := h.dest
      have hlength : (nextArgument c line').places.length ≤ a.length + 1 := by
        rcases hplaces with hplaces | ⟨-, hplaces⟩
        · rw [hplaces, List.length_append, List.length_singleton]
        · rw [hplaces]
          exact Nat.zero_le _
      rw [List.length_cons] at hcount hfuel
      rw [List.map_cons, List.sum_cons] at hroom
      rw [List.headD_cons, if_pos ⟨hc, by unfold stop MAX_ARG_STRING; omega⟩]
      obtain ⟨st1, hturn, hstored | hfull⟩ :=
        turn_spec h hat (hready c rfl) hzero (by omega) (by omega)
      · have hholding := hstored.holding h (by omega) hplaces hdone
        have hsized : Sized st1 n (done ++ [a]).length (dest + (nextArgument c line').places.length) := by
          rw [List.length_append]
          exact hstored.sized
        obtain ⟨st', dest', hrun, hsized', hholding'⟩ :=
          ih hsized hstored.str hrest (fun b hb => hplain b (List.mem_cons_of_mem _ hb))
            (by rw [List.length_append, List.length_singleton]; omega) (by omega) (by omega) hholding
        rw [List.append_assoc, List.singleton_append] at hsized' hholding'
        exact ⟨st', dest', by rw [hturn, Option.bind_some, hrun], hsized', hholding'⟩
      · have hlong := hfull.tooLong
        omega

/-- The arguments of a line that was written from them are the arguments again. -/
theorem getArgs_recovers_arguments (g : GetArgs) (args : List (List UInt8))
    (lead line : List UInt8) (hcount : args.length ≤ MAX_ARGS) (hplain : ∀ a ∈ args, Plain a)
    (hroom : (args.map (fun a => a.length + 1)).sum ≤ 16383)
    (hlead : ∀ c ∈ lead, isWhiteSpace c) (hline : Rendered args line) :
    ∃ st, getArgs g.mArgv g.mArgString (some (lead ++ line ++ [0])) = some st ∧
      st.argc = args.length ∧
      ∀ (i : ℕ) (a : List UInt8), args[i]? = some a →
        ∃ p : Pointer, st.mArgv[i]? = some (some p) ∧ p.string st.mArgString = some a := by
  have hstart := at_start (lead ++ line)
  obtain ⟨str, hskip, hat⟩ := skipSpaces_spec hstart hstart.length_lt
  rw [hline.skip hlead] at hat
  have hsized : Sized { str, dest := 0, argc := 0, mArgv := g.mArgv, mArgString := g.mArgString }
      MAX_ARGS ([] : List (List UInt8)).length 0 :=
    ⟨g.mArgv_length, g.mArgString_length, rfl, rfl⟩
  obtain ⟨st, dest, hrun, hsized', hholding⟩ :=
    getArgsLoop_rendered hsized hat hline hplain (by simpa using hcount) (by simpa using hroom)
      hat.length_lt (by intro i a ha; simp at ha)
  rw [List.nil_append] at hsized' hholding
  refine ⟨st, ?_, hsized'.argc, ?_⟩
  · unfold getArgs
    simp only [Option.bind_eq_bind]
    rw [hskip, Option.bind_some, hrun]
  · intro i a ha
    obtain ⟨p, hp, hshows⟩ := hholding i a ha
    exact ⟨p, hp, hshows.string (hplain a (List.mem_of_getElem? ha)).1⟩

/-- A bare argument, an empty one, and one with a space in it. -/
theorem three_arguments_recovered :
    ∃ st, getArgs GetArgs.fresh.mArgv GetArgs.fresh.mArgString
        (some ([32] ++ ([98] ++ ([9] ++ ([34, 34] ++ ([32] ++ ([34, 97, 32, 34] ++ ([] ++ []))))))
          ++ [0])) = some st ∧
      st.argc = ([[98], [], [97, 32]] : List (List UInt8)).length ∧
      ∀ (i : ℕ) (a : List UInt8), ([[98], [], [97, 32]] : List (List UInt8))[i]? = some a →
        ∃ p : Pointer, st.mArgv[i]? = some (some p) ∧ p.string st.mArgString = some a := by
  have hempty : WrittenAs [] [34, 34] := WrittenAs.quoted
  have hspace : WrittenAs [97, 32] [34, 97, 32, 34] := WrittenAs.quoted
  have hplain : ∀ a ∈ ([[98], [], [97, 32]] : List (List UInt8)), Plain a := by
    unfold Plain
    decide
  have hlast : Rendered [[97, 32]] ([34, 97, 32, 34] ++ ([] ++ [])) :=
    Rendered.cons hspace (by simp) (fun h => absurd rfl h) Rendered.nil
  have hmiddle : Rendered [[], [97, 32]] ([34, 34] ++ ([32] ++ ([34, 97, 32, 34] ++ ([] ++ [])))) :=
    Rendered.cons hempty (by simp [isWhiteSpace]) (by decide) hlast
  exact getArgs_recovers_arguments GetArgs.fresh _ [32] _ (by decide) hplain (by decide)
    (by simp [isWhiteSpace]) (Rendered.cons (WrittenAs.bare (by decide) (by simp [isWhiteSpace]))
      (by simp [isWhiteSpace]) (by decide) hmiddle)

end bitcoinstats.getargs
