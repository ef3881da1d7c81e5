-- The arguments of a line are its tokens: each string ends at a zero that the
-- parser has written, or at the one of the line.
import BitcoinStats.ArgumentStrings

open cells

namespace bitcoinstats.inparser

open SeparatorType

/-! ## The grammar -/

def inQuotes (p : InPlaceParser) (c : UInt8) : Bool := c ≠ p.mQuoteChar

/-- The tokens of a line: soft separators are skipped, a quote begins the text up
to the next one or the end, and a hard separator is a token of its own. -/
def tokens (p : InPlaceParser) : List UInt8 → List (List UInt8)
  | [] => []
  | c :: line =>
    if p.kind c = ST_SOFT then tokens p line
    else if c = p.mQuoteChar then
      line.takeWhile (inQuotes p) :: tokens p (line.dropWhile (inQuotes p)).tail
    else if p.kind c = ST_HARD then [c] :: tokens p line
    else (c :: line.takeWhile (inWord p)) :: tokens p (line.dropWhile (inWord p))
termination_by line => line.length
decreasing_by
  · simp
  · have htail := (List.tail_sublist (line.dropWhile (inQuotes p))).length_le
    have hdrop := (List.dropWhile_sublist (inQuotes p) (l := line)).length_le
    simp only [List.length_cons]
    omega
  · simp
  · have hdrop := (List.dropWhile_sublist (inWord p) (l := line)).length_le
    simp only [List.length_cons]
    omega

/-- The tables for which the grammar is meant. -/
structure PlainTable (p : InPlaceParser) : Prop where
  eos : ∀ c, p.kind c = ST_EOS ↔ c = 0
  space : p.kind 32 = ST_SOFT
  hard : ∀ c, p.kind c = ST_HARD → c.toNat < 128
  quoteNotSoft : p.kind p.mQuoteChar ≠ ST_SOFT
  quoteNotHard : p.kind p.mQuoteChar ≠ ST_HARD

variable {p : InPlaceParser} {done line w : List UInt8} {args : List Argument}
  {strings : List (Option (List UInt8))} {c : UInt8}

/-- The one-character string of a hard separator. -/
theorem Reading.hardToken (h : Reading p done args strings) (hzero : c ≠ 0) (hc : c.toNat < 128) :
    Reading p done (args ++ [hardString c]) (strings ++ [some [c]]) := by
  rw [← string_hardString p [] hzero hc]
  exact h.hard c

/-! ## One character -/

/-- What the arguments are in each mode: complete, or with an open one at the end. -/
def OnTheWay (p : InPlaceParser) (mode : Mode) (done : List UInt8) (args : List Argument)
    (strings : List (Option (List UInt8))) (w : List UInt8) : Prop :=
  match mode with
  | .outer | .afterHard => Reading p done args strings
  | .word | .quoted | .quotedAfterHard => Open p done args strings w

/-- The tokens from here on, the open one with the text `w` so far. -/
def tokensFrom (p : InPlaceParser) (mode : Mode) (w line : List UInt8) : List (List UInt8) :=
  match mode with
  | .outer | .afterHard => tokens p line
  | .word => (w ++ line.takeWhile (inWord p)) :: tokens p (line.dropWhile (inWord p))
  | .quoted | .quotedAfterHard =>
    (w ++ line.takeWhile (inQuotes p)) :: tokens p (line.dropWhile (inQuotes p)).tail

/-- The scanner takes the character, and the tokens stay what they are. -/
def StepsOver (p : InPlaceParser) (mode : Mode) (done : List UInt8) (args : List Argument)
    (strings : List (Option (List UInt8))) (w : List UInt8) (c : UInt8) : Prop :=
  ∃ action next strings' w', act p mode done.length c = some action ∧ action.next = some next ∧
    OnTheWay p next (done ++ [action.written]) (args ++ action.pushed) strings' w' ∧
    ∀ line, strings ++ (tokensFrom p mode w (c :: line)).map some =
      strings' ++ (tokensFrom p next w' line).map some

/-- A character behind an argument that is not quoted. -/
theorem steps_word (g : PlainTable p) (h : Open p done args strings w) (hc : c ≠ 0) :
    StepsOver p .word done args strings w c := by
  have heos : p.kind c ≠ ST_EOS := fun hkind => hc ((g.eos c).mp hkind)
  by_cases hsoft : p.kind c = ST_SOFT
  · refine ⟨{ next := some .outer, written := 0, pushed := [] }, .outer, strings ++ [some w], [], ?_, rfl,
      ?_, ?_⟩
    · simp [act, wordAction, hsoft]
    · simpa [OnTheWay] using h.close
    · intro line
      simp [tokensFrom, inWord, hsoft, tokens]
  · by_cases hhard : p.kind c = ST_HARD
    · have hquote : c ≠ p.mQuoteChar := fun heq => g.quoteNotHard (heq ▸ hhard)
      refine ⟨{ next := some .outer, written := 0, pushed := [hardString c] }, .outer,
        strings ++ [some w] ++ [some [c]], [], ?_, rfl, h.close.hardToken hc (g.hard c hhard), ?_⟩
      · simp [act, wordAction, hhard]
      · intro line
        simp [tokensFrom, inWord, hhard, tokens, hquote]
    · refine ⟨{ next := some .word, written := c, pushed := [] }, .word, strings, w ++ [c], ?_, rfl,
        ?_, ?_⟩
      · rw [act, wordAction_data heos hsoft hhard]
      · simpa [OnTheWay] using h.snoc hc
      · intro line
        simp [tokensFrom, inWord, hsoft, hhard]

theorem steps_outer (g : PlainTable p) (h : Reading p done args strings) (hc : c ≠ 0) :
    StepsOver p .outer done args strings w c := by
  have heos : p.kind c ≠ ST_EOS := fun hkind => hc ((g.eos c).mp hkind)
  by_cases hsoft : p.kind c = ST_SOFT
  · refine ⟨{ next := some .outer, written := c, pushed := [] }, .outer, strings, [], ?_, rfl, ?_, ?_⟩
    · simp [act, outerAction, hsoft]
    · simpa [OnTheWay] using h.snoc c
    · intro line
      simp [tokensFrom, tokens, hsoft]
  · by_cases hquote : c = p.mQuoteChar
    · refine ⟨{ next := some .quoted, written := c, pushed := [.line (done.length + 1)] }, .quoted,
        strings, [], ?_, rfl, ?_, ?_⟩
      · unfold act outerAction
        cases hkind : p.kind c with
        | ST_EOS => exact absurd hkind heos
        | ST_SOFT => exact absurd hkind hsoft
        | ST_HARD | ST_DATA | ST_LINE_FEED => exact if_pos hquote
      · have hbegin := (h.snoc c).begin
        simpa [OnTheWay] using hbegin
      · intro line
        rw [tokensFrom, tokens, if_neg hsoft, if_pos hquote]
        rfl
    · by_cases hhard : p.kind c = ST_HARD
      · refine ⟨{ next := some .afterHard, written := c, pushed := [hardString c] }, .afterHard,
          strings ++ [some [c]], [], ?_, rfl, (h.snoc c).hardToken hc (g.hard c hhard), ?_⟩
        · simp [act, outerAction, hhard, hquote]
        · intro line
          simp [tokensFrom, tokens, hhard, hquote]
      · refine ⟨{ next := some .word, written := c, pushed := [.line done.length] }, .word, strings,
          [c], ?_, rfl, ?_, ?_⟩
        · unfold act outerAction
          cases hkind : p.kind c with
          | ST_EOS => exact absurd hkind heos
          | ST_SOFT => exact absurd hkind hsoft
          | ST_HARD => exact absurd hkind hhard
          | ST_DATA | ST_LINE_FEED => simp only [if_neg hquote, if_neg hc]
        · simpa [OnTheWay] using h.begin.snoc hc
        · intro line
          simp [tokensFrom, tokens, hsoft, hhard, hquote]

/-- Behind hard separators the same arguments begin as elsewhere. -/
theorem steps_afterHard (g : PlainTable p) (h : Reading p done args strings) (hc : c ≠ 0) :
    StepsOver p .afterHard done args strings w c := by
  have heos : p.kind c ≠ ST_EOS := fun hkind => hc ((g.eos c).mp hkind)
  by_cases hhard : p.kind c = ST_HARD
  · have hquote : c ≠ p.mQuoteChar := fun heq => g.quoteNotHard (heq ▸ hhard)
    refine ⟨{ next := some .afterHard, written := c, pushed := [hardString c] }, .afterHard,
      strings ++ [some [c]], [], if_pos hhard, rfl, (h.snoc c).hardToken hc (g.hard c hhard), ?_⟩
    intro line
    simp [tokensFrom, tokens, hhard, hquote]
  · by_cases hsoft : p.kind c = ST_SOFT
    · have hnon : IsNonSeparator (p.kind c) c = false := by simp [IsNonSeparator, hsoft]
      obtain ⟨action, next, strings', w', hact, hnext, hway, htokens⟩ := steps_outer (w := w) g h hc
      refine ⟨action, next, strings', w', ?_, hnext, hway, htokens⟩
      rw [act, afterHardAction, if_neg hhard, if_neg (by simp [hnon])]
      exact hact
    · have hnon : IsNonSeparator (p.kind c) c = true := by simp [IsNonSeparator, hhard, hsoft, hc]
      by_cases hquote : c = p.mQuoteChar
      · refine ⟨{ next := some .quotedAfterHard, written := c
                  pushed := [.line (done.length + 1)] }, .quotedAfterHard, strings, [], ?_, rfl, ?_, ?_⟩
        · rw [act, afterHardAction, if_neg hhard, if_pos hnon, if_pos hquote]
        · have hbegin := (h.snoc c).begin
          simpa [OnTheWay] using hbegin
        · intro line
          rw [tokensFrom, tokens, if_neg hsoft, if_pos hquote]
          rfl
      · refine ⟨{ next := some .word, written := c, pushed := [.line done.length] }, .word, strings,
          [c], ?_, rfl, ?_, ?_⟩
        · rw [act, afterHardAction, if_neg hhard, if_pos hnon, if_neg hquote,
            wordAction_data heos hsoft hhard]
        · simpa [OnTheWay] using h.begin.snoc hc
        · intro line
          simp [tokensFrom, tokens, hsoft, hhard, hquote]

/-- The closing quote ends the argument, and so does the space that is read for it. -/
theorem steps_quoted (g : PlainTable p) (h : Open p done args strings w) (hc : c ≠ 0) :
    StepsOver p .quoted done args strings w c ∧ StepsOver p .quotedAfterHard done args strings w c := by
  have heos : p.kind c ≠ ST_EOS := fun hkind => hc ((g.eos c).mp hkind)
  by_cases hquote : c = p.mQuoteChar
  · have hclosed : OnTheWay p .outer (done ++ [0]) (args ++ []) (strings ++ [some w]) [] := by
      simpa [OnTheWay] using h.close
    have htokens : ∀ mode, mode = .quoted ∨ mode = .quotedAfterHard → ∀ line,
        strings ++ (tokensFrom p mode w (c :: line)).map some =
          strings ++ [some w] ++ (tokensFrom p .outer [] line).map some := by
      rintro mode (rfl | rfl) line
      · simp [tokensFrom, inQuotes, hquote]
      · simp [tokensFrom, inQuotes, hquote]
    constructor
    · refine ⟨{ next := some .outer, written := 0, pushed := [] }, .outer, strings ++ [some w], [], ?_,
        rfl, hclosed, htokens _ (Or.inl rfl)⟩
      rw [act, quotedAction, if_neg heos, if_pos hquote]
    · refine ⟨{ next := some .outer, written := 0, pushed := [] }, .outer, strings ++ [some w], [], ?_,
        rfl, hclosed, htokens _ (Or.inr rfl)⟩
      rw [act, quotedAfterHardAction, if_neg hc, if_pos hquote, wordAction, g.space]
  · have htokens : ∀ mode, mode = .quoted ∨ mode = .quotedAfterHard → ∀ line,
        strings ++ (tokensFrom p mode w (c :: line)).map some =
          strings ++ (tokensFrom p mode (w ++ [c]) line).map some := by
      rintro mode (rfl | rfl) line
      · simp [tokensFrom, inQuotes, hquote]
      · simp [tokensFrom, inQuotes, hquote]
    constructor
    · refine ⟨{ next := some .quoted, written := c, pushed := [] }, .quoted, strings, w ++ [c], ?_,
        rfl, ?_, htokens _ (Or.inl rfl)⟩
      · rw [act, quotedAction, if_neg heos, if_neg hquote]
      · simpa [OnTheWay] using h.snoc hc
    · refine ⟨{ next := some .quotedAfterHard, written := c, pushed := [] }, .quotedAfterHard, strings,
        w ++ [c], ?_, rfl, ?_, htokens _ (Or.inr rfl)⟩
      · rw [act, quotedAfterHardAction, if_neg hc, if_neg hquote]
      · simpa [OnTheWay] using h.snoc hc

/-- In every mode the scanner takes a character of the line. -/
theorem steps_over (g : PlainTable p) {mode : Mode} (h : OnTheWay p mode done args strings w)
    (hc : c ≠ 0) : StepsOver p mode done args strings w c := by
  cases mode with
  | outer => exact steps_outer g h hc
  | afterHard => exact steps_afterHard g h hc
  | word => exact steps_word g h hc
  | quoted => exact (steps_quoted g h hc).1
  | quotedAfterHard => exact (steps_quoted g h hc).2

/-! ## The line -/

theorem scan_tokens (g : PlainTable p) {mode : Mode} (after : List UInt8) (hline : 0 ∉ line)
    (h : OnTheWay p mode done args strings w) :
    ∃ buffer arguments, scan p mode done args (line ++ 0 :: after) = some (buffer, arguments) ∧
      arguments.map (Argument.string p buffer) = strings ++ (tokensFrom p mode w line).map some := by
  induction line generalizing mode done args strings w with
  | nil =>
    have heos : p.kind 0 = ST_EOS := (g.eos 0).mpr rfl
    refine ⟨done ++ 0 :: after, args, scan_zero heos, ?_⟩
    -- an open argument ends at the zero of the line
    have hclose : Open p done args strings w →
        args.map (Argument.string p (done ++ 0 :: after)) = strings ++ [some w] := by
      intro hopen
      have hclosed := hopen.close after
      rwa [List.append_assoc] at hclosed
    cases mode with
    | outer | afterHard => simpa [tokensFrom, tokens] using h (0 :: after)
    | word | quoted | quotedAfterHard => simpa [tokensFrom, tokens] using hclose h
  | cons c line ih =>
    obtain ⟨hc, hrest⟩ : (0 : UInt8) ≠ c ∧ 0 ∉ line := by simpa using hline
    obtain ⟨action, next, strings', w', hact, hnext, hway, htokens⟩ :=
      steps_over g h (Ne.symm hc)
    rw [List.cons_append, scan_go hact hnext, htokens line]
    exact ih hrest hway

/-- What `ParseLine` is called with: the tokens, if there are any. -/
theorem ProcessLine_passes_tokens (p : InPlaceParser) (g : PlainTable p) (args : ArgumentArray)
    (before line after : List UInt8) (hline : 0 ∉ line) :
    ∃ called buffer,
      ProcessLine p args (before ++ (line ++ 0 :: after)) before.length = some (called, buffer) ∧
      (tokens p line = [] ∧ called = none ∨
        ∃ arguments : List Argument, called = some (arguments.map some) ∧ arguments ≠ [] ∧
          arguments.map (Argument.string p buffer) = (tokens p line).map some) := by
  have hnothing : Reading p before [] [] := fun _ => rfl
  obtain ⟨buffer, arguments, hscan, hstrings⟩ :=
    @scan_tokens p before line [] [] [] g .outer after hline hnothing
  refine ⟨givenArray arguments, buffer, ?_, ?_⟩
  · rw [ProcessLine_eq, hscan]
    rfl
  · simp only [List.nil_append, tokensFrom] at hstrings
    by_cases hempty : arguments = []
    · left
      rw [hempty] at hstrings
      exact ⟨by simpa using hstrings, if_pos hempty⟩
    · right
      exact ⟨arguments, if_neg hempty, hempty, hstrings⟩

theorem kind_comma (c : UInt8) : (InPlaceParser.Init.SetHard 44).kind c =
    if c = 44 then ST_HARD else InPlaceParser.Init.kind c :=
  InPlaceParser.kind_setSeparator _ _ _ _

theorem plainTable_comma : PlainTable (InPlaceParser.Init.SetHard 44) where
  eos c := by
    rw [kind_comma, kind_Init]
    grind
  space := by
    rw [kind_comma, kind_Init]
    rfl
  hard c hkind := by
    have hc : c = 44 := by
      rw [kind_comma, kind_Init] at hkind
      grind
    rw [hc]
    decide
  quoteNotSoft := by
    rw [kind_comma, kind_Init]
    decide
  quoteNotHard := by
    rw [kind_comma, kind_Init]
    decide

theorem tokens_comma : tokens (InPlaceParser.Init.SetHard 44) [97, 44, 34, 98, 32, 99, 34] =
    [[97], [44], [98, 32, 99]] := by
  have hquote : (InPlaceParser.Init.SetHard 44).mQuoteChar = 34 := rfl
  simp [tokens, inWord, inQuotes, hquote, kind_comma, kind_Init]

/-- The line `a,"b c"`. -/
theorem three_tokens_passed : ∃ called buffer,
    ProcessLine (InPlaceParser.Init.SetHard 44) ⟨[none], 1, rfl, by decide⟩
        ([] ++ ([97, 44, 34, 98, 32, 99, 34] ++ 0 :: [])) ([] : List UInt8).length =
      some (called, buffer) ∧
    ∃ arguments : List Argument, called = some (arguments.map some) ∧ arguments ≠ [] ∧
      arguments.map (Argument.string (InPlaceParser.Init.SetHard 44) buffer) =
        [some [97], some [44], some [98, 32, 99]] := by
  obtain ⟨called, buffer, hrun, hcalled⟩ :=
    ProcessLine_passes_tokens (InPlaceParser.Init.SetHard 44) plainTable_comma
      ⟨[none], 1, rfl, by decide⟩ [] [97, 44, 34, 98, 32, 99, 34] [] (by decide)
  rw [tokens_comma] at hcalled
  refine ⟨called, buffer, hrun, ?_⟩
  rcases hcalled with ⟨hnil, -⟩ | hcalled
  · simp at hnil
  · exact hcalled

end bitcoinstats.inparser
