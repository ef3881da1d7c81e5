-- The text behind a comment symbol: which arguments depend on it.
import Mathlib.Data.List.TakeWhile
import BitcoinStats.ArgumentStrings

open cells

namespace bitcoinstats.inparser

open SeparatorType

/-- What `ParseLine` reads: the strings of the arguments at the time of the call. -/
def passed (p : InPlaceParser) (args : ArgumentArray) (line : List UInt8) :
    Option (List (Option (List UInt8))) := do
  let (called, buffer) ← ProcessLine p args line 0
  return (called.getD []).map (fun argument => argument.bind (Argument.string p buffer))

/-- The text is read alike with either tail behind a comment symbol as without any. -/
def IgnoresTail (p : InPlaceParser) (args : ArgumentArray) (c : UInt8)
    (text tail1 tail2 : List UInt8) : Prop :=
  ∃ strings, passed p args (text ++ [0]) = some strings ∧
    passed p args (text ++ c :: (tail1 ++ [0])) = some strings ∧
    passed p args (text ++ c :: (tail2 ++ [0])) = some strings

/-! ## How a text ends -/

/-- A text that ends behind a separator, a hard one only where it ended an argument. -/
def EndsClean (p : InPlaceParser) (text : List UInt8) : Prop :=
  ∀ c ∈ text.getLast?, p.kind c = ST_SOFT ∨
    p.kind c = ST_HARD ∧ ∃ b ∈ text.dropLast.getLast?, inWord p b

/-- The text before the first character that ends a line. -/
def scanned (p : InPlaceParser) (text : List UInt8) : List UInt8 :=
  text.takeWhile (fun c => p.kind c ≠ ST_EOS)

def modeStep (p : InPlaceParser) (mode : Mode) (c : UInt8) : Mode :=
  match p.kind c with
  | ST_SOFT => .outer
  | ST_HARD => if mode = .word then .outer else .afterHard
  | ST_DATA | ST_LINE_FEED | ST_EOS => .word

/-- The mode behind a text in which nothing ends a line and no quote stands. -/
def modeAfter (p : InPlaceParser) (text : List UInt8) : Mode := text.foldl (modeStep p) .outer

variable {p : InPlaceParser} {text done w : List UInt8} {args : List Argument}
  {strings : List (Option (List UInt8))} {c : UInt8}

theorem modeAfter_snoc (text : List UInt8) (c : UInt8) :
    modeAfter p (text ++ [c]) = modeStep p (modeAfter p text) c := by
  simp [modeAfter]

theorem modeStep_word (mode : Mode) (c : UInt8) : modeStep p mode c = .word ↔ inWord p c := by
  unfold modeStep inWord
  cases p.kind c with
  | ST_HARD =>
    simp only
    split <;> simp
  | ST_SOFT | ST_DATA | ST_LINE_FEED | ST_EOS => simp

theorem modeAfter_word (text : List UInt8) :
    modeAfter p text = .word ↔ ∃ b ∈ text.getLast?, inWord p b := by
  cases text using List.reverseRecOn with
  | nil => simp [modeAfter]
  | append_singleton text c _ => simp [modeAfter_snoc, modeStep_word]

theorem modeAfter_outer (text : List UInt8) : modeAfter p text = .outer ↔ EndsClean p text := by
  cases text using List.reverseRecOn with
  | nil => simp [modeAfter, EndsClean]
  | append_singleton text c _ =>
    have hword := modeAfter_word (p := p) text
    rw [modeAfter_snoc, EndsClean, List.getLast?_append_cons, List.dropLast_concat, ← hword]
    unfold modeStep
    cases hkind : p.kind c with
    | ST_HARD | ST_SOFT | ST_DATA | ST_LINE_FEED | ST_EOS => simp [hkind]

/-! ## The scan over the text -/

/-- The arguments in the modes that a text without quotes leads to. -/
def Waiting (p : InPlaceParser) (mode : Mode) (done : List UInt8) (args : List Argument)
    (strings : List (Option (List UInt8))) (w : List UInt8) : Prop :=
  match mode with
  | .outer | .afterHard => Reading p done args strings
  | .word => Open p done args strings w
  | .quoted | .quotedAfterHard => False

/-- A character of a word goes on with it, or begins it. -/
theorem text_step_word {mode : Mode} (h : Waiting p mode done args strings w) (hword : inWord p c)
    (heos : p.kind c ≠ ST_EOS) (hquote : c ≠ p.mQuoteChar) (hzero : c ≠ 0) :
    ∃ pushed w', act p mode done.length c =
        some { next := some .word, written := c, pushed := pushed } ∧
      Open p (done ++ [c]) (args ++ pushed) strings w' := by
  obtain ⟨hsoft, hhard⟩ : p.kind c ≠ ST_SOFT ∧ p.kind c ≠ ST_HARD := by simpa [inWord] using hword
  have hbegins : Reading p done args strings →
      Open p (done ++ [c]) (args ++ [.line done.length]) strings [c] := by
    intro hreading
    simpa using hreading.begin.snoc hzero
  cases mode with
  | outer =>
    refine ⟨[.line done.length], [c], ?_, hbegins h⟩
    unfold act outerAction
    cases hkind : p.kind c with
    | ST_EOS => exact absurd hkind heos
    | ST_SOFT => exact absurd hkind hsoft
    | ST_HARD => exact absurd hkind hhard
    | ST_DATA | ST_LINE_FEED => simp only [if_neg hquote, if_neg hzero]
  | afterHard =>
    refine ⟨[.line done.length], [c], ?_, hbegins h⟩
    have hnon : IsNonSeparator (p.kind c) c = true := by
      simp [IsNonSeparator, hhard, hsoft, hzero]
    rw [act, afterHardAction, if_neg hhard, if_pos hnon, if_neg hquote,
      wordAction_data heos hsoft hhard]
  | word =>
    refine ⟨[], w ++ [c], ?_, ?_⟩
    · rw [act, wordAction_data heos hsoft hhard]
    · rw [List.append_nil]
      exact Open.snoc h hzero
  | quoted | quotedAfterHard => exact h.elim

/-- A separator ends a word, and is written over with its zero. -/
theorem text_step_separator {mode : Mode} (h : Waiting p mode done args strings w)
    (hword : ¬ inWord p c) (hquote : c ≠ p.mQuoteChar) :
    ∃ action strings', act p mode done.length c = some action ∧
      action.next = some (modeStep p mode c) ∧
      Reading p (done ++ [action.written]) (args ++ action.pushed) strings' := by
  by_cases hsoft : p.kind c = ST_SOFT
  · have hnext : modeStep p mode c = .outer := by simp [modeStep, hsoft]
    rw [hnext]
    cases mode with
    | outer =>
      refine ⟨{ next := some .outer, written := c, pushed := [] }, strings, ?_, rfl, ?_⟩
      · simp [act, outerAction, hsoft]
      · simpa using Reading.snoc h c
    | afterHard =>
      refine ⟨{ next := some .outer, written := c, pushed := [] }, strings, ?_, rfl, ?_⟩
      · simp [act, afterHardAction, IsNonSeparator, outerAction, hsoft]
      · simpa using Reading.snoc h c
    | word =>
      refine ⟨{ next := some .outer, written := 0, pushed := [] }, strings ++ [some w], ?_, rfl, ?_⟩
      · simp [act, wordAction, hsoft]
      · simpa using Open.close h
    | quoted | quotedAfterHard => exact h.elim
  · have hhard : p.kind c = ST_HARD := by
      simpa [inWord, hsoft] using hword
    cases mode with
    | outer =>
      refine ⟨{ next := some .afterHard, written := c, pushed := [hardString c] }, _, ?_, ?_,
        (Reading.snoc h c).hard c⟩
      · simp [act, outerAction, hhard, hquote]
      · simp [modeStep, hhard]
    | afterHard =>
      refine ⟨{ next := some .afterHard, written := c, pushed := [hardString c] }, _,
        if_pos hhard, ?_, (Reading.snoc h c).hard c⟩
      simp [modeStep, hhard]
    | word =>
      refine ⟨{ next := some .outer, written := 0, pushed := [hardString c] }, _, ?_, ?_,
        (Open.close h).hard c⟩
      · simp [act, wordAction, hhard]
      · simp [modeStep, hhard]
    | quoted | quotedAfterHard => exact h.elim

theorem text_step {mode : Mode} (h : Waiting p mode done args strings w) (heos : p.kind c ≠ ST_EOS)
    (hquote : c ≠ p.mQuoteChar) (hzero : c ≠ 0) :
    ∃ action strings' w', act p mode done.length c = some action ∧
      action.next = some (modeStep p mode c) ∧
      Waiting p (modeStep p mode c) (done ++ [action.written]) (args ++ action.pushed) strings' w' := by
  by_cases hword : inWord p c
  · obtain ⟨pushed, w', hact, hopen⟩ := text_step_word h hword heos hquote hzero
    have hmode : modeStep p mode c = .word := (modeStep_word mode c).mpr hword
    refine ⟨{ next := some .word, written := c, pushed := pushed }, strings, w', hact, ?_, ?_⟩
    · rw [hmode]
    · rw [hmode]
      exact hopen
  · obtain ⟨action, strings', hact, hnext, hreading⟩ := text_step_separator h hword hquote
    refine ⟨action, strings', [], hact, hnext, ?_⟩
    have hmode : modeStep p mode c = .outer ∨ modeStep p mode c = .afterHard := by
      unfold modeStep
      cases hkind : p.kind c with
      | ST_SOFT => exact Or.inl rfl
      | ST_HARD =>
        simp only
        split
        · exact Or.inl rfl
        · exact Or.inr rfl
      | ST_DATA | ST_LINE_FEED | ST_EOS => simp [inWord, hkind] at hword
    rcases hmode with hmode | hmode
    · rw [hmode]
      exact hreading
    · rw [hmode]
      exact hreading

/-- Behind the text the scanner is in the mode of its last characters. -/
theorem scan_text {mode : Mode} (heos : ∀ c ∈ text, p.kind c ≠ ST_EOS)
    (hquote : p.mQuoteChar ∉ text) (hzero : 0 ∉ text) (h : Waiting p mode done args strings w) :
    ∃ done' args' strings' w',
      Waiting p (text.foldl (modeStep p) mode) done' args' strings' w' ∧
      ∀ rest, scan p mode done args (text ++ rest) =
        scan p (text.foldl (modeStep p) mode) done' args' rest := by
  induction text generalizing mode done args strings w with
  | nil => exact ⟨done, args, strings, w, h, fun rest => rfl⟩
  | cons c text ih =>
    obtain ⟨hc, heos⟩ := List.forall_mem_cons.mp heos
    obtain ⟨hne, hquote⟩ : p.mQuoteChar ≠ c ∧ p.mQuoteChar ∉ text := by simpa using hquote
    obtain ⟨hne0, hzero⟩ : 0 ≠ c ∧ 0 ∉ text := by simpa using hzero
    obtain ⟨action, strings1, w1, hact, hnext, hwaiting⟩ :=
      text_step h hc (Ne.symm hne) (Ne.symm hne0)
    obtain ⟨done', args', strings', w', hwaiting', hscan⟩ := ih heos hquote hzero hwaiting
    refine ⟨done', args', strings', w', hwaiting', ?_⟩
    intro rest
    rw [List.cons_append, scan_go hact hnext, hscan rest]
    rfl

/-! ## The end of the scan -/

/-- The strings when the scan ends at `more`: the argument that no zero was written
behind goes on with it, and behind hard separators it is an argument itself. -/
def stringsAtEnd (mode : Mode) (strings : List (Option (List UInt8))) (w more : List UInt8) :
    List (Option (List UInt8)) :=
  match mode with
  | .word => strings ++ [some (w ++ more)]
  | .afterHard => if more = [] then strings else strings ++ [some more]
  | .outer | .quoted | .quotedAfterHard => strings

theorem scan_stops {mode : Mode} (h : Waiting p mode done args strings w) {more : List UInt8}
    (after : List UInt8) (hmore : 0 ∉ more) (hend : ∀ d ∈ (more ++ [0]).head?, p.kind d = ST_EOS)
    (hquote : mode = .afterHard → p.mQuoteChar ∉ more.head?) :
    ∃ buffer args', scan p mode done args (more ++ 0 :: after) = some (buffer, args') ∧
      args'.map (Argument.string p buffer) = stringsAtEnd mode strings w more := by
  cases more with
  | nil =>
    have heos : p.kind 0 = ST_EOS := hend 0 rfl
    refine ⟨done ++ 0 :: after, args, scan_zero heos, ?_⟩
    cases mode with
    | outer | afterHard => exact h _
    | word => exact Open.read h hmore _
    | quoted | quotedAfterHard => exact h.elim
  | cons d more =>
    have heos : p.kind d = ST_EOS := hend d rfl
    cases mode with
    | outer => exact ⟨_, args, scan_end heos, h _⟩
    | afterHard =>
      have hne : d ≠ p.mQuoteChar := by
        rintro rfl
        exact hquote rfl rfl
      have hne0 : d ≠ 0 := by
        rintro rfl
        simp at hmore
      have hact : act p .afterHard done.length d =
          some { next := none, written := d, pushed := [.line done.length] } := by
        simp [act, afterHardAction, IsNonSeparator, wordAction, heos, hne, hne0]
      refine ⟨done ++ d :: (more ++ 0 :: after), args ++ [.line done.length], scan_stop hact rfl, ?_⟩
      exact (Reading.begin h).read hmore _
    | word =>
      refine ⟨done ++ d :: (more ++ 0 :: after), args, ?_, Open.read h hmore _⟩
      rw [List.cons_append, scan_outer_of_word heos, scan_end heos]
    | quoted | quotedAfterHard => exact h.elim

/-- The arguments so far are never taken back. -/
theorem scan_length_le {mode : Mode} {rest buffer : List UInt8} {args' : List Argument}
    (h : scan p mode done args rest = some (buffer, args')) : args.length ≤ args'.length := by
  induction rest generalizing mode done args with
  | nil => simp [scan] at h
  | cons c rest ih =>
    cases hact : act p mode done.length c with
    | none => simp [scan_none hact] at h
    | some action =>
      cases hnext : action.next with
      | none =>
        rw [scan_stop hact hnext] at h
        obtain ⟨-, rfl⟩ := Prod.mk.inj (Option.some.inj h)
        simp
      | some next =>
        rw [scan_go hact hnext] at h
        have hle := ih h
        simp only [List.length_append] at hle
        omega

/-- Behind a hard separator a comment symbol that is the quote too opens an argument. -/
theorem scan_quote {rest buffer : List UInt8} {args' : List Argument}
    (heos : p.kind p.mQuoteChar = ST_EOS) (hzero : p.mQuoteChar ≠ 0)
    (h : scan p .afterHard done args (p.mQuoteChar :: rest) = some (buffer, args')) :
    args.length < args'.length := by
  have hact : act p .afterHard done.length p.mQuoteChar =
      some { next := some .quotedAfterHard, written := p.mQuoteChar
             pushed := [.line (done.length + 1)] } := by
    simp [act, afterHardAction, IsNonSeparator, heos, hzero]
  rw [scan_go hact rfl] at h
  have hle := scan_length_le h
  simpa using hle

theorem wordAction_goes_on (hc : p.kind c ≠ ST_EOS) : (wordAction p c).next ≠ none := by
  unfold wordAction
  cases hkind : p.kind c with
  | ST_EOS => exact absurd hkind hc
  | ST_SOFT | ST_HARD | ST_DATA | ST_LINE_FEED => simp

theorem outerAction_goes_on {pos : Nat} {action : Action} (hc : p.kind c ≠ ST_EOS)
    (h : outerAction p pos c = some action) : action.next ≠ none := by
  unfold outerAction at h
  cases hkind : p.kind c with
  | ST_EOS => exact absurd hkind hc
  | ST_SOFT =>
    rw [hkind] at h
    simp [← Option.some.inj h]
  | ST_HARD | ST_DATA | ST_LINE_FEED =>
    rw [hkind] at h
    simp only at h
    grind

/-- Where the zero does not end a line, no mode stops at it. -/
theorem zero_goes_on {mode : Mode} {pos : Nat} {action : Action} (hzero : p.kind 0 ≠ ST_EOS)
    (h : act p mode pos 0 = some action) : action.next ≠ none := by
  cases mode with
  | outer => exact outerAction_goes_on hzero h
  | afterHard =>
    rw [act, afterHardAction] at h
    by_cases hhard : p.kind 0 = ST_HARD
    · rw [if_pos hhard] at h
      simp [← Option.some.inj h]
    · rw [if_neg hhard, if_neg (by simp [IsNonSeparator])] at h
      exact outerAction_goes_on hzero h
  | word =>
    rw [← Option.some.inj h]
    exact wordAction_goes_on hzero
  | quoted =>
    rw [← Option.some.inj h, quotedAction, if_neg hzero]
    split
    · simp
    · simp
  | quotedAfterHard =>
    rw [← Option.some.inj h, quotedAfterHardAction, if_pos rfl]
    exact wordAction_goes_on hzero

theorem scan_leaves (hzero : p.kind 0 ≠ ST_EOS) (mode : Mode) (done : List UInt8)
    (args : List Argument) : scan p mode done args [0] = none := by
  cases hact : act p mode done.length 0 with
  | none => exact scan_none hact
  | some action =>
    cases hnext : action.next with
    | some next =>
      rw [scan_go hact hnext]
      rfl
    | none => exact absurd hnext (zero_goes_on hzero hact)

/-! ## The strings that are passed -/

theorem passed_eq (args : ArgumentArray) (line : List UInt8) :
    passed p args line = (scan p .outer [] [] line).map
      (fun result => result.2.map (Argument.string p result.1)) := by
  have hrun := ProcessLine_eq (p := p) args [] line
  rw [List.nil_append, List.length_nil, Int.natCast_zero] at hrun
  unfold passed
  simp only [Option.bind_eq_bind]
  rw [hrun]
  cases scan p .outer [] [] line with
  | none => rfl
  | some result =>
    simp only [Option.map_some, Option.bind_some, givenArray]
    by_cases hempty : result.2 = []
    · simp [hempty]
    · simp [hempty, Function.comp_def]

/-- What is passed for a text with something behind it: `strings` and `w` are those
of the scan behind the text. -/
structure PassedBehind (p : InPlaceParser) (args : ArgumentArray) (text : List UInt8)
    (strings : List (Option (List UInt8))) (w : List UInt8) : Prop where
  ends : ∀ more after, 0 ∉ more → (∀ d ∈ (more ++ [0]).head?, p.kind d = ST_EOS) →
    (modeAfter p text = .afterHard → p.mQuoteChar ∉ more.head?) →
    passed p args (text ++ (more ++ 0 :: after)) = some (stringsAtEnd (modeAfter p text) strings w more)
  opens : ∀ rest result, modeAfter p text = .afterHard → p.kind p.mQuoteChar = ST_EOS →
    p.mQuoteChar ≠ 0 → passed p args (text ++ p.mQuoteChar :: rest) = some result →
    strings.length < result.length
  leaves : p.kind 0 ≠ ST_EOS → passed p args (text ++ [0]) = none
  modes : modeAfter p text = .outer ∨ modeAfter p text = .afterHard ∨ modeAfter p text = .word

theorem passed_behind (args : ArgumentArray) (heos : ∀ c ∈ text, p.kind c ≠ ST_EOS)
    (hquote : p.mQuoteChar ∉ text) (hzero : 0 ∉ text) :
    ∃ strings w, PassedBehind p args text strings w := by
  have hnothing : Waiting p .outer [] [] [] [] := fun _ => rfl
  obtain ⟨done, arguments, strings, w, hwaiting, hscan⟩ := scan_text heos hquote hzero hnothing
  have hpassed : ∀ rest, passed p args (text ++ rest) =
      (scan p (modeAfter p text) done arguments rest).map
        (fun result => result.2.map (Argument.string p result.1)) := by
    intro rest
    rw [passed_eq, hscan rest]
    rfl
  change Waiting p (modeAfter p text) done arguments strings w at hwaiting
  refine ⟨strings, w, ⟨?_, ?_, ?_, ?_⟩⟩
  · intro more after hmore hend hne
    obtain ⟨buffer, args', hrun, hstrings⟩ := scan_stops hwaiting after hmore hend hne
    rw [hpassed, hrun, Option.map_some, hstrings]
  · intro rest result hmode heos hzero hrun
    rw [hpassed, hmode] at hrun
    rw [hmode] at hwaiting
    obtain ⟨⟨buffer, args'⟩, hscan', hresult⟩ := Option.map_eq_some_iff.mp hrun
    have hlt := scan_quote heos hzero hscan'
    have hlen : strings.length = arguments.length := by
      rw [← hwaiting [], List.length_map]
    rw [← hresult, List.length_map, hlen]
    exact hlt
  · intro hzero
    rw [hpassed, scan_leaves hzero]
    rfl
  · cases hmode : modeAfter p text with
    | outer => exact Or.inl rfl
    | afterHard => exact Or.inr (Or.inl rfl)
    | word => exact Or.inr (Or.inr rfl)
    | quoted | quotedAfterHard =>
      rw [hmode] at hwaiting
      exact hwaiting.elim

theorem exists_first_zero (t : List UInt8) : ∃ u after, t ++ [0] = u ++ 0 :: after ∧ 0 ∉ u := by
  induction t with
  | nil => exact ⟨[], [], rfl, List.not_mem_nil⟩
  | cons c t ih =>
    by_cases hc : c = 0
    · exact ⟨[], t ++ [0], by rw [hc]; rfl, List.not_mem_nil⟩
    · obtain ⟨u, after, heq, hu⟩ := ih
      refine ⟨c :: u, after, by rw [List.cons_append, heq]; rfl, ?_⟩
      simp [hu, Ne.symm hc]

/-- What goes on with the argument, or is one, has the tail in it. -/
theorem stringsAtEnd_append {mode : Mode}
    (hmode : mode = .outer ∨ mode = .afterHard ∨ mode = .word) (more u : List UInt8) :
    stringsAtEnd mode strings w (more ++ c :: u) = stringsAtEnd mode strings w more ↔
      mode = .outer := by
  rcases hmode with rfl | rfl | rfl
  · simp [stringsAtEnd]
  · by_cases hnil : more = []
    · simp [stringsAtEnd, hnil]
    · simp [stringsAtEnd, hnil]
  · simp [stringsAtEnd]

/-- With a tail the strings are those without one only where the text was complete. -/
theorem PassedBehind.tail_iff {args : ArgumentArray} (h : PassedBehind p args text strings w)
    (hc : p.kind c = ST_EOS) (hzero : c ≠ 0) {more : List UInt8} (hmore : 0 ∉ more)
    (hend : ∀ d ∈ more.head?, p.kind d = ST_EOS) (hquote : p.mQuoteChar ∉ more) (t : List UInt8) :
    passed p args (text ++ (more ++ c :: (t ++ [0]))) =
      some (stringsAtEnd (modeAfter p text) strings w more) ↔ modeAfter p text = .outer := by
  obtain ⟨u, after, htail, hu⟩ := exists_first_zero t
  by_cases hopens : modeAfter p text = .afterHard ∧ more = [] ∧ c = p.mQuoteChar
  · obtain ⟨hmode, rfl, rfl⟩ := hopens
    have hne : passed p args (text ++ ([] ++ p.mQuoteChar :: (t ++ [0]))) ≠ some strings := by
      intro hpassed
      have hlt := h.opens _ _ hmode hc hzero hpassed
      omega
    simpa [stringsAtEnd, hmode] using hne
  · have hnone : 0 ∉ more ++ c :: u := by simp [hmore, hu, Ne.symm hzero]
    have hend' : ∀ d ∈ (more ++ c :: u ++ [0]).head?, p.kind d = ST_EOS := by
      intro d hd
      cases more with
      | nil =>
        obtain rfl : c = d := by simpa using hd
        exact hc
      | cons e more => exact hend d (by simpa using hd)
    have hquote' : modeAfter p text = .afterHard → p.mQuoteChar ∉ (more ++ c :: u).head? := by
      intro hmode
      cases more with
      | nil => exact fun hd => hopens ⟨hmode, rfl, by simpa using hd⟩
      | cons e more =>
        intro hd
        obtain rfl : e = p.mQuoteChar := by simpa using hd
        exact hquote List.mem_cons_self
    have hrun := h.ends (more ++ c :: u) after hnone hend' hquote'
    have hline : more ++ c :: (t ++ [0]) = more ++ c :: u ++ 0 :: after := by
      rw [htail]
      simp
    rw [hline, hrun, Option.some.injEq]
    exact stringsAtEnd_append h.modes more u

/-! ## The comment symbol -/

/-- The text stops the scan before its zero is needed, or the zero does. -/
def Ended (p : InPlaceParser) (text : List UInt8) : Prop :=
  p.kind 0 = ST_EOS ∨ ∃ d ∈ text, p.kind d = ST_EOS

/-- A text is a part that is scanned, and what is behind it. -/
theorem scanned_split (p : InPlaceParser) (text : List UInt8) :
    ∃ more, text = scanned p text ++ more ∧ (∀ c ∈ scanned p text, p.kind c ≠ ST_EOS) ∧
      (∀ d ∈ more.head?, p.kind d = ST_EOS) ∧ (Ended p text ↔ p.kind 0 = ST_EOS ∨ more ≠ []) := by
  have hscanned : ∀ c ∈ scanned p text, p.kind c ≠ ST_EOS := by
    intro c hc
    have hgoes := List.mem_takeWhile_imp hc
    simpa using hgoes
  have hhead : ∀ d ∈ (text.dropWhile (fun c => p.kind c ≠ ST_EOS)).head?, p.kind d = ST_EOS := by
    intro d hd
    have hnot := List.head?_dropWhile_not (fun c => p.kind c ≠ ST_EOS) text
    rw [Option.mem_def.mp hd] at hnot
    simpa using hnot
  have hsplit : text = scanned p text ++ text.dropWhile (fun c => p.kind c ≠ ST_EOS) :=
    (List.takeWhile_append_dropWhile).symm
  refine ⟨text.dropWhile (fun c => p.kind c ≠ ST_EOS), hsplit, hscanned, hhead, ?_⟩
  refine or_congr Iff.rfl ?_
  cases hmore : text.dropWhile (fun c => p.kind c ≠ ST_EOS) with
  | nil =>
    rw [hmore, List.append_nil] at hsplit
    rw [hsplit]
    simpa using hscanned
  | cons d more =>
    rw [hmore] at hsplit hhead
    refine ⟨fun _ => List.cons_ne_nil d more, fun _ => ⟨d, ?_, hhead d rfl⟩⟩
    rw [hsplit]
    simp

/-- The tail is ignored when the text before the comment symbol ended behind a
separator: an argument at its end has the symbol and the tail in it. -/
theorem ignoresTail_iff (p : InPlaceParser) (args : ArgumentArray) (c : UInt8)
    (text tail1 tail2 : List UInt8) (hc : p.kind c = ST_EOS) (htext : 0 ∉ text)
    (hquote : p.mQuoteChar ∉ text) :
    IgnoresTail p args c text tail1 tail2 ↔
      c = 0 ∨ EndsClean p (scanned p text) ∧ Ended p text := by
  obtain ⟨more, hsplit, hscanned, hhead, hended⟩ := scanned_split p text
  generalize scanned p text = before at hsplit hscanned ⊢
  rw [hended]
  subst hsplit
  obtain ⟨hbefore0, hmore0⟩ : 0 ∉ before ∧ 0 ∉ more := by simpa using htext
  obtain ⟨hbeforeq, hmoreq⟩ : p.mQuoteChar ∉ before ∧ p.mQuoteChar ∉ more := by simpa using hquote
  obtain ⟨strings, w, hbehind⟩ := passed_behind args hscanned hbeforeq hbefore0
  have hheadq : modeAfter p before = .afterHard → p.mQuoteChar ∉ more.head? :=
    fun _ hd => hmoreq (List.mem_of_mem_head? hd)
  by_cases hstops : p.kind 0 = ST_EOS ∨ more ≠ []
  · have hend : ∀ d ∈ (more ++ [0]).head?, p.kind d = ST_EOS := by
      intro d hd
      cases more with
      | nil =>
        obtain rfl : 0 = d := by simpa using hd
        simpa using hstops
      | cons e more => exact hhead d (by simpa using hd)
    have halone := hbehind.ends more [] hmore0 hend hheadq
    rw [IgnoresTail, List.append_assoc, halone, List.append_assoc, List.append_assoc]
    by_cases hzero : c = 0
    · subst hzero
      have htail := fun t : List UInt8 => hbehind.ends more (t ++ [0]) hmore0 hend hheadq
      refine iff_of_true ⟨_, rfl, htail tail1, htail tail2⟩ (Or.inl rfl)
    · have htail := hbehind.tail_iff hc hzero hmore0 hhead hmoreq
      rw [← modeAfter_outer]
      constructor
      · rintro ⟨strings', hsame, h1, -⟩
        rw [← hsame] at h1
        exact Or.inr ⟨(htail tail1).mp h1, hstops⟩
      · rintro (hc0 | ⟨hmode, -⟩)
        · exact absurd hc0 hzero
        · exact ⟨_, rfl, (htail tail1).mpr hmode, (htail tail2).mpr hmode⟩
  · obtain ⟨hzero, rfl⟩ : p.kind 0 ≠ ST_EOS ∧ more = [] := by simpa using hstops
    refine iff_of_false ?_ ?_
    · rintro ⟨strings', halone, -⟩
      rw [List.append_nil, hbehind.leaves hzero] at halone
      simp at halone
    · rintro (rfl | ⟨-, hended⟩)
      · exact hzero hc
      · exact hstops hended

/-- The line `a #b` is read as the line `a `. -/
theorem ignores_behind_space :
    IgnoresTail (InPlaceParser.Init.SetCommentSymbol 35) ⟨[none], 1, rfl, by decide⟩ 35 [97, 32] [98]
      [99] := by
  refine (ignoresTail_iff (InPlaceParser.Init.SetCommentSymbol 35) ⟨[none], 1, rfl, by decide⟩ 35
    [97, 32] [98] [99] ?_ (by decide) (by decide)).mpr (Or.inr ⟨?_, Or.inl ?_⟩)
  · simp [InPlaceParser.SetCommentSymbol]
  · have hscanned : scanned (InPlaceParser.Init.SetCommentSymbol 35) [97, 32] = [97, 32] := by
      simp [scanned, InPlaceParser.SetCommentSymbol, kind_Init]
    rw [hscanned]
    simp [EndsClean, InPlaceParser.SetCommentSymbol, kind_Init]
  · simp [InPlaceParser.SetCommentSymbol, kind_Init]

/-- In the line `a#b` the argument is `a#b`, in `a#c` it is `a#c`. -/
theorem comment_in_argument :
    ¬ IgnoresTail (InPlaceParser.Init.SetCommentSymbol 35) ⟨[none], 1, rfl, by decide⟩ 35 [97] [98]
      [99] := by
  rintro ⟨strings, -, h1, h2⟩
  have hne : passed (InPlaceParser.Init.SetCommentSymbol 35) ⟨[none], 1, rfl, by decide⟩
      ([97] ++ 35 :: ([98] ++ [0])) ≠
    passed (InPlaceParser.Init.SetCommentSymbol 35) ⟨[none], 1, rfl, by decide⟩
      ([97] ++ 35 :: ([99] ++ [0])) := by decide
  exact hne (h1.trans h2.symm)

end bitcoinstats.inparser
