-- The lines of a text and the numbers they get when each terminator takes a line
-- feed behind it with it.
import Mathlib.Tactic

namespace bitcoinstats.inparser

/-- A line feed at the start is skipped. -/
def skipLineFeed : List UInt8 → List UInt8
  | [] => []
  | c :: text => if c = 10 then text else c :: text

theorem skipLineFeed_cons (c : UInt8) (text : List UInt8) :
    skipLineFeed (c :: text) = if c = 10 then text else c :: text := rfl

theorem skipLineFeed_sublist (text : List UInt8) : (skipLineFeed text).Sublist text := by
  cases text with
  | nil => exact List.Sublist.refl _
  | cons c text =>
    rw [skipLineFeed_cons]
    split
    · exact List.sublist_cons_self c text
    · exact List.Sublist.refl _

theorem skipLineFeed_length (text : List UInt8) : (skipLineFeed text).length ≤ text.length :=
  (skipLineFeed_sublist text).length_le

theorem mem_skipLineFeed {d : UInt8} {text : List UInt8} (h : d ∈ text) (hd : d ≠ 10) :
    d ∈ skipLineFeed text := by
  cases text with
  | nil => exact h
  | cons c text =>
    rw [skipLineFeed_cons]
    split
    · rename_i hc
      rcases List.mem_cons.mp h with rfl | h
      · exact absurd hc hd
      · exact h
    · exact h

/-- CR or LF. -/
def isTerminator (c : UInt8) : Prop := c = 13 ∨ c = 10

instance (c : UInt8) : Decidable (isTerminator c) := inferInstanceAs (Decidable (c = 13 ∨ c = 10))

/-- The lines of a text from inside a line on, `content` being its characters so far.
CR LF is one terminator, and the last line may lack one. -/
def linesFrom (content : List UInt8) : List UInt8 → List (List UInt8)
  | [] => [content]
  | c :: text =>
    if c = 13 then content :: linesFrom [] (skipLineFeed text)
    else if c = 10 then content :: linesFrom [] text
    else linesFrom (content ++ [c]) text
termination_by text => text.length
decreasing_by
  · have hle := skipLineFeed_length text
    simp only [List.length_cons]
    omega
  · simp
  · simp

def physicalLines (text : List UInt8) : List (List UInt8) := linesFrom [] text

/-- The lines that are passed on, with their numbers: a line feed is skipped behind
every terminator, and blank lines are left out but for the last one. -/
def passedLines (lineno : Nat) (content : List UInt8) : List UInt8 → List (Nat × List UInt8)
  | [] => [(lineno + 1, content)]
  | c :: text =>
    if isTerminator c then
      (if content = [] then [] else [(lineno + 1, content)]) ++
        passedLines (lineno + 1) [] (skipLineFeed text)
    else passedLines lineno (content ++ [c]) text
termination_by text => text.length
decreasing_by
  · have hle := skipLineFeed_length text
    simp only [List.length_cons]
    omega
  · simp

/-- The lines that are not blank, with their positions behind `lineno`. -/
def numbered (lineno : Nat) : List (List UInt8) → List (Nat × List UInt8)
  | [] => []
  | line :: lines =>
    (if line = [] then [] else [(lineno + 1, line)]) ++ numbered (lineno + 1) lines

def notBlank (line : Nat × List UInt8) : Bool := line.2 ≠ []

/-- Each line that is passed on has the number of its position, and the lines that are
not blank are passed on once each, in order. -/
structure Numbered (text : List UInt8) (passed : List (Nat × List UInt8)) : Prop where
  position : ∀ line ∈ passed, 0 < line.1 ∧ (physicalLines text)[line.1 - 1]? = some line.2
  inOrder : passed.filter notBlank = numbered 0 (physicalLines text)

/-- Behind a line feed that directly follows the line feed of another line there are
only blank lines. The line feed of a CR LF does not count. -/
def BlankBehindSkipped : List UInt8 → Prop
  | [] => True
  | c :: text =>
    if c = 13 then BlankBehindSkipped (skipLineFeed text)
    else (c = 10 → text.head? = some 10 → ∀ d ∈ text.tail, isTerminator d) ∧
      BlankBehindSkipped text
termination_by text => text.length
decreasing_by
  · have hle := skipLineFeed_length text
    simp only [List.length_cons]
    omega
  · simp

/-! ## One character -/

variable {content text : List UInt8} {c : UInt8} {lineno : ℕ}

/-- A line feed is skipped that is a terminator of its own. -/
def SkipsLine (c : UInt8) (text : List UInt8) : Prop := c = 10 ∧ text.head? = some 10

instance (c : UInt8) (text : List UInt8) : Decidable (SkipsLine c text) :=
  inferInstanceAs (Decidable (c = 10 ∧ text.head? = some 10))

theorem passedLines_terminator (h : isTerminator c) :
    passedLines lineno content (c :: text) =
      (if content = [] then [] else [(lineno + 1, content)]) ++
        passedLines (lineno + 1) [] (skipLineFeed text) := by
  rw [passedLines, if_pos h]

theorem passedLines_char (h : ¬ isTerminator c) :
    passedLines lineno content (c :: text) = passedLines lineno (content ++ [c]) text := by
  rw [passedLines, if_neg h]

theorem linesFrom_char (h : ¬ isTerminator c) :
    linesFrom content (c :: text) = linesFrom (content ++ [c]) text := by
  obtain ⟨h13, h10⟩ := not_or.mp h
  rw [linesFrom, if_neg h13, if_neg h10]

theorem linesFrom_terminator (h : isTerminator c) :
    linesFrom content (c :: text) =
      content :: ((if SkipsLine c text then [[]] else []) ++ linesFrom [] (skipLineFeed text)) := by
  rw [linesFrom]
  by_cases h13 : c = 13
  · rw [if_pos h13, if_neg (by simp [SkipsLine, h13])]
    rfl
  · have h10 : c = 10 := Or.resolve_left h h13
    rw [if_neg h13, if_pos h10]
    cases text with
    | nil => simp [SkipsLine, skipLineFeed]
    | cons d text =>
      by_cases hd : d = 10
      · rw [if_pos ⟨h10, by rw [hd]; rfl⟩, linesFrom, if_neg (by simp [hd]), if_pos hd, skipLineFeed,
          if_pos hd]
        rfl
      · rw [if_neg (by simp [SkipsLine, hd]), skipLineFeed, if_neg hd]
        rfl

theorem blankBehindSkipped_char (h : ¬ isTerminator c) :
    BlankBehindSkipped (c :: text) ↔ BlankBehindSkipped text := by
  obtain ⟨h13, h10⟩ := not_or.mp h
  rw [BlankBehindSkipped, if_neg h13]
  simp [h10]

theorem blankBehindSkipped_of_blank (h : ∀ d ∈ text, isTerminator d) : BlankBehindSkipped text := by
  induction text using BlankBehindSkipped.induct with
  | case1 => simp [BlankBehindSkipped]
  | case2 text ih =>
    rw [BlankBehindSkipped, if_pos rfl]
    apply ih
    intro d hd
    exact h d (List.mem_cons_of_mem _ ((skipLineFeed_sublist text).subset hd))
  | case3 c text hc ih =>
    rw [BlankBehindSkipped, if_neg hc]
    refine ⟨fun _ _ d hd => h d (List.mem_cons_of_mem _ (List.mem_of_mem_tail hd)), ?_⟩
    exact ih (fun d hd => h d (List.mem_cons_of_mem _ hd))

theorem blankBehindSkipped_terminator (h : isTerminator c) :
    BlankBehindSkipped (c :: text) ↔
      (SkipsLine c text → ∀ d ∈ skipLineFeed text, isTerminator d) ∧
        BlankBehindSkipped (skipLineFeed text) := by
  rw [BlankBehindSkipped]
  by_cases h13 : c = 13
  · rw [if_pos h13]
    simp [SkipsLine, h13]
  · have h10 : c = 10 := Or.resolve_left h h13
    rw [if_neg h13]
    cases text with
    | nil => simp [SkipsLine, skipLineFeed]
    | cons d text =>
      by_cases hd : d = 10
      · have hskip : skipLineFeed (d :: text) = text := if_pos hd
        rw [hskip]
        constructor
        · rintro ⟨hblank, hrest⟩
          have hall : ∀ e ∈ text, isTerminator e := hblank h10 (by rw [hd]; rfl)
          exact ⟨fun _ => hall, blankBehindSkipped_of_blank hall⟩
        · rintro ⟨hblank, -⟩
          have hall : ∀ e ∈ text, isTerminator e := hblank ⟨h10, by rw [hd]; rfl⟩
          refine ⟨fun _ _ => hall, blankBehindSkipped_of_blank ?_⟩
          intro e he
          rcases List.mem_cons.mp he with rfl | he
          · exact Or.inr hd
          · exact hall e he
      · have hskip : skipLineFeed (d :: text) = d :: text := if_neg hd
        rw [hskip]
        simp [SkipsLine, hd]

/-! ## The whole text -/

/-- Where only terminators are left, one blank line is passed on, and there is no
line that is not blank. -/
theorem blank_lines (h : ∀ d ∈ text, isTerminator d) (lineno : ℕ) :
    ∃ j k, passedLines lineno [] text = [(lineno + j + 1, [])] ∧
      linesFrom [] text = List.replicate (j + 1 + k) [] := by
  induction hlen : text.length using Nat.strong_induction_on generalizing text lineno with
  | _ n ih =>
    cases text with
    | nil => exact ⟨0, 0, by rw [passedLines], by rw [linesFrom]; rfl⟩
    | cons c text =>
      have hc : isTerminator c := h c List.mem_cons_self
      have hle := skipLineFeed_length text
      rw [List.length_cons] at hlen
      obtain ⟨j, k, hpassed, hlines⟩ := ih (skipLineFeed text).length (by omega)
        (fun d hd => h d (List.mem_cons_of_mem _ ((skipLineFeed_sublist text).subset hd)))
        (lineno + 1) rfl
      rw [passedLines_terminator hc, linesFrom_terminator hc, hpassed, hlines]
      by_cases hskips : SkipsLine c text
      · refine ⟨j + 1, k + 1, by simp; omega, ?_⟩
        rw [if_pos hskips, show j + 1 + 1 + (k + 1) = j + 1 + k + 1 + 1 by omega,
          List.replicate_succ, List.replicate_succ]
        rfl
      · refine ⟨j + 1, k, by simp; omega, ?_⟩
        rw [if_neg hskips, show j + 1 + 1 + k = j + 1 + k + 1 by omega, List.replicate_succ]
        rfl

theorem numbered_blank (lineno k : ℕ) : numbered lineno (List.replicate k []) = [] := by
  induction k generalizing lineno with
  | zero => rfl
  | succ k ih => simp [List.replicate_succ, numbered, ih]

theorem notBlank_filter (content : List UInt8) (n : ℕ) :
    (if content = [] then [] else [(n, content)]).filter notBlank =
      if content = [] then [] else [(n, content)] := by
  by_cases h : content = []
  · simp [h]
  · simp [h, notBlank]

/-- Each line that is passed on is the one at its number. -/
theorem passedLines_position (h : BlankBehindSkipped text) :
    ∀ line ∈ passedLines lineno content text, lineno < line.1 ∧
      (linesFrom content text)[line.1 - lineno - 1]? = some line.2 := by
  induction lineno, content, text using passedLines.induct with
  | case1 lineno content =>
    intro line hline
    rw [passedLines, List.mem_singleton] at hline
    rw [hline, linesFrom]
    simp
  | case2 lineno content c text hc ih =>
    obtain ⟨hskipped, hrest⟩ := (blankBehindSkipped_terminator hc).mp h
    rw [passedLines_terminator hc, linesFrom_terminator hc]
    intro line hline
    rcases List.mem_append.mp hline with hfirst | hbehind
    · obtain rfl : line = (lineno + 1, content) := by
        split at hfirst
        · simp at hfirst
        · simpa using hfirst
      simp
    · by_cases hskips : SkipsLine c text
      · obtain ⟨j, k, hpassed, hlines⟩ := blank_lines (hskipped hskips) (lineno + 1)
        rw [hpassed, List.mem_singleton] at hbehind
        subst hbehind
        rw [if_pos hskips, hlines]
        refine ⟨by simp only; omega, ?_⟩
        simp only [show lineno + 1 + j + 1 - lineno - 1 = j + 1 by omega]
        rw [List.getElem?_cons_succ, ← List.replicate_one, List.replicate_append_replicate,
          List.getElem?_replicate, if_pos (by omega)]
      · obtain ⟨hlt, hget⟩ := ih hrest line hbehind
        rw [if_neg hskips, List.nil_append]
        refine ⟨by omega, ?_⟩
        rw [show line.1 - lineno - 1 = line.1 - (lineno + 1) - 1 + 1 by omega,
          List.getElem?_cons_succ, hget]
  | case3 lineno content c text hc ih =>
    rw [passedLines_char hc, linesFrom_char hc]
    exact ih ((blankBehindSkipped_char hc).mp h)

/-- Numbers that have fallen behind stay behind at the next line that is not blank. -/
theorem numbers_behind {position : ℕ} (hlt : lineno < position)
    (h : content ≠ [] ∨ ∃ c ∈ text, ¬ isTerminator c) :
    ∃ n line lines m line' lines', n < m ∧
      (passedLines lineno content text).filter notBlank = (n, line) :: lines ∧
      numbered position (linesFrom content text) = (m, line') :: lines' := by
  induction lineno, content, text using passedLines.induct generalizing position with
  | case1 lineno content =>
    have hne : content ≠ [] := by simpa using h
    refine ⟨lineno + 1, content, [], position + 1, content, [], by omega, ?_, ?_⟩
    · rw [passedLines]
      simp [notBlank, hne]
    · rw [linesFrom]
      simp [numbered, hne]
  | case2 lineno content c text hc ih =>
    rw [passedLines_terminator hc, linesFrom_terminator hc, List.filter_append, notBlank_filter,
      numbered]
    by_cases hne : content = []
    · rw [if_pos hne, if_pos hne, List.nil_append, List.nil_append]
      have hrest : ∃ d ∈ skipLineFeed text, ¬ isTerminator d := by
        obtain ⟨d, hd, hnot⟩ := Or.resolve_left h (fun hcontent => hcontent hne)
        refine ⟨d, mem_skipLineFeed ?_ (fun h10 => hnot (Or.inr h10)), hnot⟩
        rcases List.mem_cons.mp hd with rfl | hd
        · exact absurd hc hnot
        · exact hd
      by_cases hskips : SkipsLine c text
      · rw [if_pos hskips, List.singleton_append, numbered, if_pos rfl, List.nil_append]
        exact ih (by omega) (Or.inr hrest)
      · rw [if_neg hskips, List.nil_append]
        exact ih (by omega) (Or.inr hrest)
    · rw [if_neg hne, if_neg hne]
      exact ⟨_, _, _, _, _, _, Nat.succ_lt_succ hlt, rfl, rfl⟩
  | case3 lineno content c text hc ih =>
    rw [passedLines_char hc, linesFrom_char hc]
    exact ih hlt (Or.inl (by simp))

theorem passedLines_inOrder_iff :
    (passedLines lineno content text).filter notBlank = numbered lineno (linesFrom content text) ↔
      BlankBehindSkipped text := by
  induction lineno, content, text using passedLines.induct with
  | case1 lineno content =>
    rw [passedLines, linesFrom, BlankBehindSkipped]
    by_cases hne : content = []
    · simp [numbered, hne, notBlank]
    · simp [numbered, hne, notBlank]
  | case2 lineno content c text hc ih =>
    rw [passedLines_terminator hc, linesFrom_terminator hc, blankBehindSkipped_terminator hc,
      List.filter_append, notBlank_filter, numbered, List.append_cancel_left_eq]
    by_cases hskips : SkipsLine c text
    · rw [if_pos hskips, List.singleton_append, numbered, if_pos rfl, List.nil_append]
      by_cases hall : ∀ d ∈ skipLineFeed text, isTerminator d
      · obtain ⟨j, k, hpassed, hlines⟩ := blank_lines hall (lineno + 1)
        rw [hpassed, hlines, numbered_blank]
        refine iff_of_true (by simp [notBlank]) ⟨fun _ => hall, blankBehindSkipped_of_blank hall⟩
      · refine iff_of_false ?_ (fun h => hall (h.1 hskips))
        intro hsame
        have hnot : ([] : List UInt8) ≠ [] ∨ ∃ d ∈ skipLineFeed text, ¬ isTerminator d := by
          simpa using hall
        obtain ⟨n, line, lines, m, line', lines', hlt, hpassed, hlines⟩ :=
          numbers_behind (Nat.lt_succ_self (lineno + 1)) hnot
        rw [hpassed, hlines] at hsame
        have hsame' := congrArg Prod.fst (List.cons.inj hsame).1
        simp only at hsame'
        omega
    · rw [if_neg hskips, List.nil_append, ih]
      simp [hskips]
  | case3 lineno content c text hc ih =>
    rw [passedLines_char hc, linesFrom_char hc, blankBehindSkipped_char hc]
    exact ih

/-- The numbers are the positions when no line feed is skipped that is a line before
one that is not blank. -/
theorem numbered_iff (text : List UInt8) :
    Numbered text (passedLines 0 [] text) ↔ BlankBehindSkipped text := by
  constructor
  · intro h
    exact passedLines_inOrder_iff.mp h.inOrder
  · intro h
    exact ⟨passedLines_position h, passedLines_inOrder_iff.mpr h⟩

end bitcoinstats.inparser
