-- `Parse` over a whole text: the calls of the callback for its lines, and the line
-- numbers in them.
import BitcoinStats.HardSeparators
import BitcoinStats.LineNumbers

open cells

namespace bitcoinstats.inparser

open SeparatorType

/-! ## The loop over the text -/

/-- The calls of the callback, with the strings that they can read. -/
inductive Call where
  | preParseLine (lineno : Nat) (content : List UInt8)
  | ParseLine (lineno : Nat) (arguments : List (Option (List UInt8)))
deriving DecidableEq

/-- The answers of `preParseLine`, which may depend on all calls so far, and the array
of the arguments as it is before each line. -/
structure Callback where
  snarfed : List Call → Bool
  arrays : Nat → ArgumentArray

structure ParseState where
  data : List UInt8
  foo : Int
  begin : Int
  lineno : Nat
  calls : List Call

/-- `preParseLine` for the line at `begin`, and `ProcessLine` if it was not taken there. -/
def takeLine (p : InPlaceParser) (callback : Callback) (lineno : Nat) (st : ParseState) :
    Option ParseState := do
  let content ← stringAt st.data st.begin
  let calls := st.calls ++ [.preParseLine lineno content]
  if callback.snarfed calls then return { st with calls }
  else
    let (called, data) ← ProcessLine p (callback.arrays lineno) st.data st.begin
    let strings := fun arguments : List (Option Argument) =>
      arguments.map (fun argument => argument.bind (Argument.string p data))
    return { st with
      data
      calls := calls ++ (called.map (fun arguments => .ParseLine lineno (strings arguments))).toList }

/-- The loop up to the zero of the text. -/
def parseLoop (p : InPlaceParser) (callback : Callback) : Nat → ParseState → Option ParseState
  | 0, _ => none
  | fuel + 1, st => do
    let c ← load st.data st.foo
    if c = 0 then return st
    else
      let kind ← p.lookup c
      if kind = ST_LINE_FEED then
        let data ← store st.data st.foo 0
        let st := { st with data, lineno := st.lineno + 1 }
        let b ← load st.data st.begin
        let st ← if b ≠ 0 then takeLine p callback st.lineno st else some st
        let next ← load st.data (st.foo + 1)
        let foo := if next = 10 then st.foo + 2 else st.foo + 1
        parseLoop p callback fuel { st with foo, begin := foo }
      else parseLoop p callback fuel { st with foo := st.foo + 1 }

/-- `Parse(callback)`, for the data that it is called with. The last line is passed on
also when it is blank. -/
def Parse (p : InPlaceParser) (callback : Callback) (data : List UInt8) : Option (List Call) := do
  let st ← parseLoop p callback (data.length + 1)
    { data, foo := 0, begin := 0, lineno := 0, calls := [] }
  let st ← takeLine p callback (st.lineno + 1) st
  return st.calls

/-! ## What the calls are for -/

/-- The calls for the lines in order: one of `preParseLine` for each, and perhaps one of
`ParseLine`, both with its number. -/
inductive CallsFor : List (Nat × List UInt8) → List Call → Prop
  | nil : CallsFor [] []
  | line {n : Nat} {content : List UInt8} {arguments : Option (List (Option (List UInt8)))}
      {lines : List (Nat × List UInt8)} {calls : List Call} :
      CallsFor lines calls →
      CallsFor ((n, content) :: lines)
        (.preParseLine n content :: ((arguments.map (Call.ParseLine n)).toList ++ calls))

/-- The calls have the positions of their lines, and no line that is not blank is left
out, or passed on twice, or out of order. -/
def LinesNumbered (text : List UInt8) (calls : List Call) : Prop :=
  ∃ lines, CallsFor lines calls ∧ Numbered text lines

def Call.preParsed : Call → Option (Nat × List UInt8)
  | .preParseLine n content => some (n, content)
  | .ParseLine _ _ => none

theorem CallsFor.append {lines lines' : List (Nat × List UInt8)} {calls calls' : List Call}
    (h : CallsFor lines calls) (h' : CallsFor lines' calls') :
    CallsFor (lines ++ lines') (calls ++ calls') := by
  induction h with
  | nil => exact h'
  | line _ ih =>
    rw [List.cons_append, List.cons_append, List.append_assoc]
    exact .line ih

/-- The lines can be read off the calls. -/
theorem CallsFor.lines_eq {lines : List (Nat × List UInt8)} {calls : List Call}
    (h : CallsFor lines calls) : lines = calls.filterMap Call.preParsed := by
  induction h with
  | nil => rfl
  | @line n content arguments lines calls _ ih =>
    have hnone : (arguments.map (Call.ParseLine n)).toList.filterMap Call.preParsed = [] := by
      cases arguments with
      | none => rfl
      | some arguments => rfl
    rw [List.filterMap_cons, Call.preParsed, List.filterMap_append, hnone, List.nil_append, ← ih]

variable {p : InPlaceParser} {callback : Callback} {st : ParseState}
  {content text before after : List UInt8} {lineno : ℕ}

/-- A line is stomped where it is, up to its zero. -/
theorem scan_frame (heos : p.kind 0 = ST_EOS) (mode : Mode) (done line after : List UInt8)
    (args : List Argument) :
    ∃ line' arguments, scan p mode done args (line ++ 0 :: after) =
        some (done ++ (line' ++ 0 :: after), arguments) ∧ line'.length = line.length := by
  induction line generalizing mode done args with
  | nil => exact ⟨[], args, scan_zero heos, rfl⟩
  | cons c line ih =>
    obtain ⟨action, hact, -⟩ := act_meets heos mode done.length c
    cases hnext : action.next with
    | none => exact ⟨action.written :: line, args ++ action.pushed, scan_stop hact hnext, rfl⟩
    | some next =>
      obtain ⟨line', arguments, hrun, hlen⟩ :=
        ih next (done ++ [action.written]) (args ++ action.pushed)
      refine ⟨action.written :: line', arguments, ?_, by simp [hlen]⟩
      rw [List.cons_append, scan_go hact hnext, hrun, List.append_assoc]
      rfl

/-- The calls for one line, and what they leave of it. -/
theorem takeLine_spec (callback : Callback) (lineno : ℕ) (heos : p.kind 0 = ST_EOS)
    (hdata : st.data = before ++ (content ++ 0 :: after)) (hbegin : st.begin = before.length)
    (hcontent : 0 ∉ content) :
    ∃ content' arguments, content'.length = content.length ∧
      takeLine p callback lineno st = some { st with
        data := before ++ (content' ++ 0 :: after)
        calls := st.calls ++ (.preParseLine lineno content ::
          (Option.map (Call.ParseLine lineno) arguments).toList) } := by
  have hstring : stringAt st.data st.begin = some content := by
    apply stringAt_eq (by rw [hbegin]; exact Int.natCast_nonneg _) hcontent
    rw [hdata, hbegin, Int.toNat_natCast, List.drop_left]
  unfold takeLine
  simp only [Option.bind_eq_bind]
  rw [hstring, Option.bind_some]
  by_cases hsnarfed : callback.snarfed (st.calls ++ [.preParseLine lineno content]) = true
  · rw [if_pos hsnarfed]
    refine ⟨content, none, rfl, ?_⟩
    rw [← hdata]
    rfl
  · rw [if_neg hsnarfed]
    obtain ⟨content', args, hscan, hlen⟩ := scan_frame heos .outer before content after []
    rw [hdata, hbegin, ProcessLine_eq, hscan, Option.map_some, Option.bind_some]
    refine ⟨content', (givenArray args).map (fun arguments => arguments.map (fun argument =>
      argument.bind (Argument.string p (before ++ (content' ++ 0 :: after))))), hlen, ?_⟩
    simp [Function.comp_def]

/-! ## The default table -/

theorem kind_zero : InPlaceParser.Init.kind 0 = ST_EOS := by
  simp [kind_Init]

theorem kind_lineFeed_iff (c : UInt8) : InPlaceParser.Init.kind c = ST_LINE_FEED ↔ isTerminator c := by
  rw [kind_Init, isTerminator]
  grind

/-- The loop is behind `before`, in the line `content`, and has `text` to come. -/
structure InText (st : ParseState) (before content text : List UInt8) : Prop where
  data : st.data = before ++ (content ++ (text ++ [0]))
  begin : st.begin = before.length
  foo : st.foo = before.length + content.length
  noZero : 0 ∉ content

theorem InText.load {c : UInt8} (h : InText st before content text) (hc : c = text.headD 0) :
    load st.data st.foo = some c := by
  have hfoo : st.foo = ((before ++ content).length : ℕ) := by
    rw [h.foo, List.length_append]
    omega
  rw [h.data, ← List.append_assoc, hc]
  cases text with
  | nil => exact load_middle (before ++ content) [] 0 hfoo
  | cons d text => exact load_middle (before ++ content) (text ++ [0]) d hfoo

theorem InText.char {c : UInt8} (h : InText st before content (c :: text)) (hc : c ≠ 0) :
    InText { st with foo := st.foo + 1 } before (content ++ [c]) text where
  data := by simp [h.data]
  begin := h.begin
  foo := by simp [h.foo, Int.add_assoc]
  noZero := by
    have hzero := h.noZero
    simp [hzero, Ne.symm hc]

/-- The zero that is stored at a terminator ends its line. -/
theorem InText.lineEnd {c : UInt8} (h : InText st before content (c :: text)) :
    store st.data st.foo 0 = some (before ++ (content ++ 0 :: (text ++ [0]))) := by
  have hfoo : st.foo = ((before ++ content).length : ℕ) := by
    rw [h.foo, List.length_append]
    omega
  have hstore := store_middle (before ++ content) (text ++ [0]) c 0 hfoo
  rw [List.append_assoc, List.append_assoc] at hstore
  rw [h.data]
  exact hstore

theorem load_first (before content after : List UInt8) (hcontent : 0 ∉ content) :
    ∃ b, load (before ++ (content ++ 0 :: after)) (before.length : ℕ) = some b ∧
      (b ≠ 0 ↔ content ≠ []) := by
  cases content with
  | nil => exact ⟨0, load_middle before after 0 rfl, by simp⟩
  | cons c content =>
    have hc : c ≠ 0 := by
      rintro rfl
      simp at hcontent
    exact ⟨c, load_middle before (content ++ 0 :: after) c rfl, by simp [hc]⟩

/-- Behind a line the next one begins, a line feed skipped. -/
theorem nextLine (st : ParseState)
    (hdata : st.data = before ++ (content ++ 0 :: (text ++ [0])))
    (hfoo : st.foo = before.length + content.length) :
    ∃ next before', load st.data (st.foo + 1) = some next ∧ InText { st with
      foo := if next = 10 then st.foo + 2 else st.foo + 1
      begin := if next = 10 then st.foo + 2 else st.foo + 1 } before' [] (skipLineFeed text) := by
  have hone : InText { st with foo := st.foo + 1, begin := st.foo + 1 } (before ++ content ++ [0]) []
      text := ⟨by simp [hdata], by simp [hfoo]; omega, by simp [hfoo]; omega, List.not_mem_nil⟩
  have hload := hone.load rfl
  cases text with
  | nil =>
    refine ⟨0, before ++ content ++ [0], hload, ?_⟩
    rw [if_neg (by decide)]
    exact hone
  | cons c text =>
    rw [skipLineFeed_cons]
    by_cases hc : c = 10
    · refine ⟨c, before ++ content ++ [0, c], hload, ?_⟩
      rw [if_pos hc, if_pos hc]
      exact ⟨by simp [hdata], by simp [hfoo]; omega, by simp [hfoo]; omega, List.not_mem_nil⟩
    · refine ⟨c, before ++ content ++ [0], hload, ?_⟩
      rw [if_neg hc, if_neg hc]
      exact hone

/-! ## The whole text -/

/-- A line that the loop has come to the end of: the calls for it, unless it is blank. -/
theorem line_taken (callback : Callback) (st : ParseState)
    (hdata : st.data = before ++ (content ++ 0 :: after))
    (hbegin : st.begin = before.length) (hcontent : 0 ∉ content) :
    ∃ b content' lines calls, load st.data st.begin = some b ∧ content'.length = content.length ∧
      lines = (if content = [] then [] else [(st.lineno, content)]) ∧ CallsFor lines calls ∧
      ∀ k : ParseState → Option ParseState,
        (if b ≠ 0 then (takeLine InPlaceParser.Init callback st.lineno st).bind k
          else (some st).bind k) =
        k { st with data := before ++ (content' ++ 0 :: after), calls := st.calls ++ calls } := by
  obtain ⟨b, hload, hb⟩ := load_first before content after hcontent
  rw [← hdata, ← hbegin] at hload
  by_cases hblank : content = []
  · refine ⟨b, content, [], [], hload, rfl, by rw [if_pos hblank], .nil, ?_⟩
    intro k
    rw [if_neg (by rw [hb]; simpa using hblank), ← hdata, List.append_nil, Option.bind_some]
  · obtain ⟨content', arguments, hlen, htake⟩ :=
      takeLine_spec callback st.lineno kind_zero hdata hbegin hcontent
    refine ⟨b, content', [(st.lineno, content)],
      .preParseLine st.lineno content ::
        ((Option.map (Call.ParseLine st.lineno) arguments).toList ++ []),
      hload, hlen, by rw [if_neg hblank], .line .nil, ?_⟩
    intro k
    rw [if_pos (hb.mpr hblank), htake, Option.bind_some, List.append_nil]

/-- The loop passes the lines on up to the last one. -/
theorem parseLoop_spec (callback : Callback) (fuel : ℕ) (h : InText st before content text) (hfuel : text.length < fuel)
    (htext : 0 ∉ text) :
    ∃ st' before' content' lines calls,
      parseLoop InPlaceParser.Init callback fuel st = some st' ∧ InText st' before' content' [] ∧
        st'.calls = st.calls ++ calls ∧ CallsFor lines calls ∧
        passedLines st.lineno content text = lines ++ [(st'.lineno + 1, content')] := by
  induction fuel generalizing st before content text with
  | zero => omega
  | succ fuel ih =>
    unfold parseLoop
    simp only [Option.bind_eq_bind]
    cases text with
    | nil =>
      rw [h.load rfl, Option.bind_some, List.headD_nil, if_pos rfl]
      exact ⟨st, before, content, [], [], rfl, h, by simp, .nil, by rw [passedLines]; rfl⟩
    | cons c text =>
      obtain ⟨hc, htext⟩ : (0 : UInt8) ≠ c ∧ 0 ∉ text := by simpa using htext
      rw [List.length_cons] at hfuel
      rw [h.load rfl, Option.bind_some, List.headD_cons, if_neg (Ne.symm hc),
        InPlaceParser.lookup_eq, Option.bind_some]
      by_cases hterminator : isTerminator c
      · rw [if_pos ((kind_lineFeed_iff c).mpr hterminator), h.lineEnd, Option.bind_some]
        obtain ⟨b, content', lines, calls, hload, hlen, hlines, hcalls, htaken⟩ :=
          line_taken callback { st with
            data := before ++ (content ++ 0 :: (text ++ [0])), lineno := st.lineno + 1 }
            rfl h.begin h.noZero
        simp only at hload hlines htaken
        rw [hload, Option.bind_some, htaken]
        obtain ⟨next, before1, hnext, htext1⟩ :=
          nextLine { st with
            data := before ++ (content' ++ 0 :: (text ++ [0])), lineno := st.lineno + 1
            calls := st.calls ++ calls } rfl (by rw [hlen]; exact h.foo)
        simp only at hnext htext1
        simp only
        rw [hnext, Option.bind_some]
        have hshorter := skipLineFeed_length text
        obtain ⟨st', before', content2, lines', calls', hrun, hend, hcalls', hfor, hpassed⟩ :=
          ih htext1 (by omega) (fun hzero => htext ((skipLineFeed_sublist text).subset hzero))
        refine ⟨st', before', content2, lines ++ lines', calls ++ calls', hrun, hend, ?_,
          hcalls.append hfor, ?_⟩
        · rw [hcalls', List.append_assoc]
        · rw [passedLines_terminator hterminator, ← hlines, List.append_assoc, ← hpassed]
      · rw [if_neg (by rw [kind_lineFeed_iff]; exact hterminator), passedLines_char hterminator]
        exact ih (h.char (Ne.symm hc)) (by omega) htext

/-- `Parse` passes on the lines with the numbers that skipping line feeds gives them. -/
theorem Parse_calls (callback : Callback) (htext : 0 ∉ text) :
    ∃ calls, Parse InPlaceParser.Init callback (text ++ [0]) = some calls ∧
      CallsFor (passedLines 0 [] text) calls := by
  have hstart : InText { data := text ++ [0], foo := 0, begin := 0, lineno := 0, calls := [] } [] []
      text := ⟨rfl, rfl, rfl, List.not_mem_nil⟩
  obtain ⟨st, before, content, lines, calls, hrun, hend, hcalls, hfor, hpassed⟩ :=
    parseLoop_spec callback ((text ++ [0]).length + 1) hstart (by simp) htext
  obtain ⟨content', arguments, -, htake⟩ :=
    takeLine_spec callback (st.lineno + 1) kind_zero hend.data hend.begin hend.noZero
  refine ⟨calls ++ (.preParseLine (st.lineno + 1) content ::
    ((Option.map (Call.ParseLine (st.lineno + 1)) arguments).toList ++ [])), ?_, ?_⟩
  · unfold Parse
    simp only [Option.bind_eq_bind]
    rw [hrun, Option.bind_some, htake, hcalls, List.append_nil]
    rfl
  · rw [hpassed]
    exact hfor.append (.line .nil)

/-- The line numbers are the positions when no line feed is skipped that ends a blank
line before one that is not blank. -/
theorem Parse_numbers_lines_iff (callback : Callback) (text : List UInt8) (htext : 0 ∉ text) :
    (∃ calls, Parse InPlaceParser.Init callback (text ++ [0]) = some calls ∧
      LinesNumbered text calls) ↔ BlankBehindSkipped text := by
  obtain ⟨calls, hrun, hfor⟩ := Parse_calls callback htext
  rw [← numbered_iff]
  constructor
  · rintro ⟨calls', hrun', lines, hfor', hnumbered⟩
    rw [hrun] at hrun'
    obtain rfl := Option.some.inj hrun'
    rwa [hfor.lines_eq, ← hfor'.lines_eq]
  · intro hnumbered
    exact ⟨calls, hrun, passedLines 0 [] text, hfor, hnumbered⟩

/-- The answer of the default `preParseLine`. -/
def parsesAll : Callback := { snarfed := fun _ => false, arrays := fun _ => ⟨[none], 1, rfl, by decide⟩ }

/-- CR LF, a blank line, and a line: the numbers are 1 and 3. -/
theorem blank_line_counted :
    ∃ calls, Parse InPlaceParser.Init parsesAll ([97, 13, 10, 10, 98] ++ [0]) = some calls ∧
      LinesNumbered [97, 13, 10, 10, 98] calls := by
  apply (Parse_numbers_lines_iff parsesAll [97, 13, 10, 10, 98] (by decide)).mpr
  simp [BlankBehindSkipped, skipLineFeed]

/-- LF, a blank line ended by LF, and a line: the line 3 gets the number 2. -/
theorem blank_line_lost :
    ¬ ∃ calls, Parse InPlaceParser.Init parsesAll ([97, 10, 10, 98] ++ [0]) = some calls ∧
      LinesNumbered [97, 10, 10, 98] calls := by
  rintro ⟨calls, hrun, lines, hfor, hnumbered⟩
  have hcalls : Parse InPlaceParser.Init parsesAll ([97, 10, 10, 98] ++ [0]) =
      some [.preParseLine 1 [97], .ParseLine 1 [some [97]], .preParseLine 2 [98],
        .ParseLine 2 [some [98]]] := by decide
  rw [hcalls] at hrun
  obtain rfl := Option.some.inj hrun
  have hposition := hnumbered.position (2, [98]) (by rw [hfor.lines_eq]; decide)
  simp [physicalLines, linesFrom] at hposition

end bitcoinstats.inparser
