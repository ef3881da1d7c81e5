-- The hard separators that are found in a line, and the index in `mHardString` that
-- each is reported with, in every configuration of the parser.
import BitcoinStats.LineScanner

open cells

namespace bitcoinstats.inparser

open SeparatorType

/-! ## The configurations -/

inductive Setter where
  | SetHard (c : UInt8)
  | SetSoft (c : UInt8)
  | SetCommentSymbol (c : UInt8)
  | SetQuoteChar (c : UInt8)

def Setter.call (p : InPlaceParser) : Setter → InPlaceParser
  | .SetHard c => p.SetHard c
  | .SetSoft c => p.SetSoft c
  | .SetCommentSymbol c => p.SetCommentSymbol c
  | .SetQuoteChar c => p.SetQuoteChar c

/-- The parser after the calls. -/
def configure (calls : List Setter) : InPlaceParser := calls.foldl Setter.call InPlaceParser.Init

/-! ## The hard separators of a line -/

/-- A character of an argument: the separators that are found at it, and the mode behind. -/
def meetWord (p : InPlaceParser) (c : UInt8) : List UInt8 × Option Mode :=
  match p.kind c with
  | ST_EOS => ([], none)
  | ST_SOFT => ([], some .outer)
  | ST_HARD => ([c], some .outer)
  | ST_DATA | ST_LINE_FEED => ([], some .word)

/-- In quotes there are no separators. Where the quotes began behind a hard separator,
the closing one counts as a space. -/
def meet (p : InPlaceParser) (mode : Mode) (c : UInt8) : List UInt8 × Option Mode :=
  match mode with
  | .outer =>
    if p.kind c = ST_EOS then ([], none)
    else if p.kind c = ST_SOFT then ([], some .outer)
    else if c = p.mQuoteChar then ([], some .quoted)
    else if p.kind c = ST_HARD then ([c], some .afterHard)
    else ([], some .word)
  | .afterHard =>
    if p.kind c = ST_HARD then ([c], some .afterHard)
    else if p.kind c = ST_SOFT then ([], some .outer)
    else if c = p.mQuoteChar ∧ c ≠ 0 then ([], some .quotedAfterHard)
    else meetWord p c
  | .word => meetWord p c
  | .quoted =>
    if p.kind c = ST_EOS then ([], none)
    else if c = p.mQuoteChar then ([], some .outer)
    else ([], some .quoted)
  | .quotedAfterHard =>
    if c = 0 then ([], none)
    else if c = p.mQuoteChar then meetWord p 32
    else ([], some .quotedAfterHard)

/-- The hard separators of a line outside of quotes, in order. -/
def hardSeparators (p : InPlaceParser) : Mode → List UInt8 → List UInt8
  | _, [] => []
  | mode, c :: line =>
    (meet p mode c).1 ++
      match (meet p mode c).2 with
      | none => []
      | some next => hardSeparators p next line

/-! ## What the parser reports -/

/-- The index of a hard argument in `mHardString`. -/
def Argument.hardIndex : Argument → Option Int
  | .line _ => none
  | .hard index => some index

def hardIndices (called : Option (List (Option Argument))) : List Int :=
  (called.getD []).filterMap (fun argument => argument.bind Argument.hardIndex)

/-- The hard arguments are in the table, and each is the string of its separator. -/
structure Reported (p : InPlaceParser) (line : List UInt8)
    (called : Option (List (Option Argument))) : Prop where
  inRange : ∀ index ∈ hardIndices called, 0 ≤ index ∧ index < 512
  strings : (hardIndices called).map (stringAt p.mHardString) =
    (hardSeparators p .outer line).map (fun c => some [c])

/-- Both functions end, with each access in its table. -/
structure InTables (p : InPlaceParser) (args : ArgumentArray) (line : List UInt8) : Prop where
  ProcessLine : ∃ called buffer, ProcessLine p args (line ++ [0]) 0 = some (called, buffer) ∧
    Reported p line called
  GetArglist : ∃ called count buffer, GetArglist p args (line ++ [0]) = some (called, count, buffer) ∧
    Reported p line called

variable {p : InPlaceParser} {mode : Mode} {done line : List UInt8} {args : List Argument} {c : UInt8}

/-- The scanner finds at a character what the line has there, and goes on in its mode. -/
def Meets (action : Action) (met : List UInt8 × Option Mode) : Prop :=
  action.next = met.2 ∧
    action.pushed.filterMap Argument.hardIndex = met.1.map (fun c => signedChar c * 2)

theorem wordAction_meets (c : UInt8) : Meets (wordAction p c) (meetWord p c) := by
  unfold wordAction meetWord
  cases p.kind c with
  | ST_EOS | ST_SOFT | ST_HARD | ST_DATA | ST_LINE_FEED => exact ⟨rfl, rfl⟩

theorem outerAction_meets (heos : p.kind 0 = ST_EOS) (pos : Nat) (c : UInt8) :
    ∃ action, outerAction p pos c = some action ∧ Meets action (meet p .outer c) := by
  have hzero : p.kind c ≠ ST_EOS → c ≠ 0 := by
    rintro hne rfl
    exact hne heos
  unfold outerAction meet
  cases hkind : p.kind c with
  | ST_EOS | ST_SOFT => exact ⟨_, rfl, rfl, rfl⟩
  | ST_HARD =>
    by_cases hquote : c = p.mQuoteChar
    · exact ⟨_, if_pos hquote, by simp [hquote], by simp [hquote, Argument.hardIndex]⟩
    · exact ⟨_, if_neg hquote, by simp [hquote], by simp [hquote, hardString, Argument.hardIndex]⟩
  | ST_DATA | ST_LINE_FEED =>
    have hne : c ≠ 0 := hzero (by simp [hkind])
    by_cases hquote : c = p.mQuoteChar
    · exact ⟨_, if_pos hquote, by simp [hquote], by simp [hquote, Argument.hardIndex]⟩
    · refine ⟨{ next := some .word, written := c, pushed := [.line pos] }, ?_, by simp [hquote],
        by simp [hquote, Argument.hardIndex]⟩
      simp only [if_neg hquote, if_neg hne]

theorem afterHardAction_meets (heos : p.kind 0 = ST_EOS) (pos : Nat) (c : UInt8) :
    ∃ action, afterHardAction p pos c = some action ∧ Meets action (meet p .afterHard c) := by
  unfold afterHardAction meet
  by_cases hhard : p.kind c = ST_HARD
  · rw [if_pos hhard]
    exact ⟨_, rfl, by simp [hhard], by simp [hhard, hardString, Argument.hardIndex]⟩
  · rw [if_neg hhard]
    simp only [if_neg hhard]
    by_cases hsoft : p.kind c = ST_SOFT
    · rw [if_neg (by simp [IsNonSeparator, hsoft]), outerAction, hsoft]
      exact ⟨_, rfl, by simp, by simp⟩
    · rw [if_neg hsoft]
      by_cases hzero : c = 0
      · subst hzero
        rw [if_neg (by simp [IsNonSeparator]), if_neg (by simp), outerAction, meetWord, heos]
        exact ⟨_, rfl, rfl, rfl⟩
      · rw [if_pos (by simp [IsNonSeparator, hhard, hsoft, hzero])]
        by_cases hquote : c = p.mQuoteChar
        · rw [if_pos hquote, if_pos ⟨hquote, hzero⟩]
          exact ⟨_, rfl, rfl, rfl⟩
        · rw [if_neg hquote, if_neg (fun h => hquote h.1)]
          obtain ⟨hnext, hpushed⟩ := wordAction_meets (p := p) c
          exact ⟨_, rfl, hnext, hpushed⟩

theorem act_meets (heos : p.kind 0 = ST_EOS) (mode : Mode) (pos : Nat) (c : UInt8) :
    ∃ action, act p mode pos c = some action ∧ Meets action (meet p mode c) := by
  cases mode with
  | outer => exact outerAction_meets heos pos c
  | afterHard => exact afterHardAction_meets heos pos c
  | word => exact ⟨_, rfl, wordAction_meets c⟩
  | quoted =>
    refine ⟨_, rfl, ?_⟩
    unfold quotedAction meet
    by_cases hend : p.kind c = ST_EOS
    · simp [hend, Meets]
    · by_cases hquote : c = p.mQuoteChar
      · simp only [if_neg hend, if_pos hquote]
        exact ⟨rfl, rfl⟩
      · simp only [if_neg hend, if_neg hquote]
        exact ⟨rfl, rfl⟩
  | quotedAfterHard =>
    refine ⟨_, rfl, ?_⟩
    unfold quotedAfterHardAction meet
    by_cases hzero : c = 0
    · subst hzero
      have hstop : wordAction p 0 = { next := none, written := 0, pushed := [] } := by
        simp [wordAction, heos]
      simp only [if_true, hstop]
      exact ⟨rfl, rfl⟩
    · by_cases hquote : c = p.mQuoteChar
      · simp only [if_neg hzero, if_pos hquote]
        exact wordAction_meets 32
      · simp only [if_neg hzero, if_neg hquote]
        exact ⟨rfl, rfl⟩

/-! ## The line -/

theorem scan_hardSeparators (heos : p.kind 0 = ST_EOS) (mode : Mode) (done line : List UInt8)
    (args : List Argument) :
    ∃ buffer arguments, scan p mode done args (line ++ [0]) = some (buffer, arguments) ∧
      arguments.filterMap Argument.hardIndex = args.filterMap Argument.hardIndex ++
        (hardSeparators p mode line).map (fun c => signedChar c * 2) := by
  induction line generalizing mode done args with
  | nil => exact ⟨_, args, scan_zero heos, by simp [hardSeparators]⟩
  | cons c line ih =>
    obtain ⟨action, hact, hnext, hpushed⟩ := act_meets heos mode done.length c
    rw [List.cons_append, hardSeparators, ← hnext]
    cases hmode : action.next with
    | none =>
      refine ⟨_, _, scan_stop hact hmode, ?_⟩
      rw [List.filterMap_append, hpushed, List.append_nil]
    | some next =>
      obtain ⟨buffer, arguments, hrun, hindices⟩ :=
        ih next (done ++ [action.written]) (args ++ action.pushed)
      refine ⟨buffer, arguments, ?_, ?_⟩
      · rw [scan_go hact hmode, hrun]
      · rw [hindices, List.filterMap_append, hpushed, List.map_append, List.append_assoc]

theorem hardIndices_given (arguments : List Argument) :
    hardIndices (givenArray arguments) = arguments.filterMap Argument.hardIndex := by
  unfold hardIndices givenArray
  by_cases hempty : arguments = []
  · simp [hempty]
  · simp [hempty, List.filterMap_map]

theorem meet_hard (mode : Mode) (c : UInt8) : ∀ d ∈ (meet p mode c).1, p.kind d = ST_HARD := by
  have hword : ∀ c, ∀ d ∈ (meetWord p c).1, p.kind d = ST_HARD := by
    intro c d hd
    unfold meetWord at hd
    cases hkind : p.kind c with
    | ST_HARD =>
      rw [hkind] at hd
      obtain rfl : d = c := by simpa using hd
      exact hkind
    | ST_EOS | ST_SOFT | ST_DATA | ST_LINE_FEED =>
      rw [hkind] at hd
      simp at hd
  intro d hd
  cases mode with
  | word => exact hword c d hd
  | outer | afterHard | quoted | quotedAfterHard =>
    unfold meet at hd
    grind

theorem hardSeparators_hard (mode : Mode) (line : List UInt8) :
    ∀ d ∈ hardSeparators p mode line, p.kind d = ST_HARD := by
  induction line generalizing mode with
  | nil => simp [hardSeparators]
  | cons c line ih =>
    intro d hd
    rw [hardSeparators] at hd
    rcases List.mem_append.mp hd with hmet | hrest
    · exact meet_hard mode c d hmet
    · cases hnext : (meet p mode c).2 with
      | none => simp [hnext] at hrest
      | some next =>
        rw [hnext] at hrest
        exact ih next d hrest

/-- The index of a hard separator is in the table for the characters that are not negative. -/
theorem index_inRange (c : UInt8) :
    (0 ≤ signedChar c * 2 ∧ signedChar c * 2 < 512) ↔ c.toNat < 128 := by
  have hlt := c.toNat_lt
  unfold signedChar
  split
  · omega
  · omega

theorem reported_iff (heos : p.kind 0 = ST_EOS) {called : Option (List (Option Argument))}
    (h : hardIndices called = (hardSeparators p .outer line).map (fun c => signedChar c * 2)) :
    Reported p line called ↔ ∀ c ∈ hardSeparators p .outer line, c.toNat < 128 := by
  constructor
  · intro hreported c hc
    have hmem : signedChar c * 2 ∈ hardIndices called := by
      rw [h]
      exact List.mem_map.mpr ⟨c, hc, rfl⟩
    exact (index_inRange c).mp (hreported.inRange _ hmem)
  · intro hall
    constructor
    · intro index hindex
      rw [h] at hindex
      obtain ⟨c, hc, rfl⟩ := List.mem_map.mp hindex
      exact (index_inRange c).mpr (hall c hc)
    · rw [h, List.map_map]
      apply List.map_congr_left
      intro c hc
      have hzero : c ≠ 0 := by
        rintro rfl
        have hhard := hardSeparators_hard .outer line 0 hc
        simp [heos] at hhard
      exact string_hardString p [] hzero (hall c hc)

/-- In every configuration in which the zero ends a line, the accesses are in their
tables when no hard separator of the line is a negative character. -/
theorem inTables_iff (calls : List Setter) (heos : (configure calls).kind 0 = ST_EOS)
    (args : ArgumentArray) (line : List UInt8) :
    InTables (configure calls) args line ↔
      ∀ c ∈ hardSeparators (configure calls) .outer line, c.toNat < 128 := by
  generalize configure calls = p at heos ⊢
  obtain ⟨buffer, arguments, hscan, hindices⟩ := scan_hardSeparators heos .outer [] line []
  have hcalled : hardIndices (givenArray arguments) =
      (hardSeparators p .outer line).map (fun c => signedChar c * 2) := by
    rw [hardIndices_given, hindices]
    rfl
  have hline := ProcessLine_eq (p := p) args [] (line ++ [0])
  rw [List.nil_append, List.length_nil, Int.natCast_zero, hscan, Option.map_some] at hline
  have hlist := GetArglist_eq (p := p) args (line ++ [0])
  rw [hscan, Option.map_some] at hlist
  rw [← reported_iff heos hcalled]
  constructor
  · rintro ⟨⟨called, buffer', hrun, hreported⟩, -⟩
    rw [hline] at hrun
    obtain ⟨rfl, -⟩ := Prod.mk.inj (Option.some.inj hrun)
    exact hreported
  · intro hreported
    exact ⟨⟨_, _, hline, hreported⟩, ⟨_, _, _, hlist, hreported⟩⟩

/-- The line `a,b` with the comma as a hard separator. -/
theorem comma_in_tables :
    InTables (configure [.SetHard 44]) ⟨[none], 1, rfl, by decide⟩ [97, 44, 98] := by
  refine (inTables_iff [.SetHard 44] ?_ ⟨[none], 1, rfl, by decide⟩ [97, 44, 98]).mpr ?_
  · simp [configure, Setter.call, InPlaceParser.SetHard, kind_Init]
  · have hfound : hardSeparators (configure [.SetHard 44]) .outer [97, 44, 98] = [44] := by
      decide
    rw [hfound]
    simp

/-- The hard separator `0xE9` is reported with the index -46. -/
theorem negative_index :
    ¬ InTables (configure [.SetHard 0xE9]) ⟨[none], 1, rfl, by decide⟩ [0xE9] := by
  rintro ⟨⟨called, buffer, hrun, hreported⟩, -⟩
  have hline : ProcessLine (configure [.SetHard 0xE9]) ⟨[none], 1, rfl, by decide⟩ ([0xE9] ++ [0]) 0 =
      some (some [some (.hard (-46))], [0xE9, 0]) := by decide
  rw [hline] at hrun
  obtain ⟨rfl, -⟩ := Prod.mk.inj (Option.some.inj hrun)
  have hrange := hreported.inRange (-46) (by simp [hardIndices, Argument.hardIndex])
  omega

end bitcoinstats.inparser
