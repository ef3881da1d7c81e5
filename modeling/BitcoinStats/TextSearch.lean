-- The search of `readBlock` for ASCII text: which runs of characters it reports,
-- and which bytes it looks at.
import BitcoinStats.OutputScript
import BitcoinStats.Library.MaximalRuns

open byte_memory maximal_runs
open bitcoinstats.block_chain (asciiBytes)

namespace bitcoinstats.text_search

/-! ## The search -/

/-- The characters are signed: a byte from 128 on is a negative one. -/
def isASCII (c : Int8) : Bool := (c ≥ 32 && c < 127) || c == 13

/-- What `fprintf` writes for `%s`: the characters up to the first zero. -/
def cString (scratch : List UInt8) : List UInt8 := scratch.takeWhile (fun c => c ≠ 0)

/-- What `fprintf` writes to the report; the three lines of the heading are one item,
and so are the closing lines. -/
inductive Print
  | heading
  | text (scratch : List UInt8)
  | lineBreak
  | closing (totalCount : UInt32)
deriving DecidableEq

structure TextSearch where
  scan : Nat
  textCount : Nat
  lineCount : UInt32
  totalCount : UInt32
  /-- The report is open. -/
  mTextReport : Bool
  prints : List Print
  /-- The bytes that were looked at. -/
  examined : List Nat

variable (blockData : Memory)

/-- The inner loop, `left` bytes before `end_scan`: the characters that it copies, and
the bytes that it looks at. It looks at a byte before it looks at the end. -/
def copyLoop : Nat → Nat → List UInt8 × List Nat
  | 0, scan => ([], [scan])
  | left + 1, scan =>
    if isASCII (blockData scan).toInt8 then
      let (dest, examined) := copyLoop left (scan + 1)
      (blockData scan :: dest, scan :: examined)
    else ([], [scan])

/-- The first text of a block opens the report, when it is not open, and writes the
heading. `fopen` is whether the file can be opened. -/
def TextSearch.startReport (s : TextSearch) (fopen : Bool) : TextSearch :=
  if s.textCount = 0 then
    let s := if s.mTextReport then s else { s with mTextReport := fopen }
    if s.mTextReport then { s with prints := s.prints ++ [.heading] } else s
  else s

def TextSearch.printText (s : TextSearch) (scratch : List UInt8) : TextSearch :=
  if s.mTextReport then
    let count := UInt32.ofNat scratch.length
    let s := { s with
      prints := s.prints ++ [.text (cString (scratch ++ [0]))]
      lineCount := s.lineCount + count
      totalCount := s.totalCount + count }
    if s.lineCount > 80 then { s with prints := s.prints ++ [.lineBreak], lineCount := 0 } else s
  else s

def TextSearch.foundText (s : TextSearch) (fopen : Bool) (scratch : List UInt8) : TextSearch :=
  let s := s.startReport fopen
  { s with textCount := s.textCount + 1 }.printText scratch

/-- One turn of the outer loop. -/
def TextSearch.turn (end_scan : Nat) (mSearchForText : UInt32) (fopen : Bool) (s : TextSearch) :
    TextSearch :=
  let (scratch, examined) := copyLoop blockData (end_scan - s.scan) s.scan
  let s := { s with scan := s.scan + scratch.length, examined := s.examined ++ examined }
  let s := if scratch.length ≥ mSearchForText.toNat then s.foundText fopen scratch else s
  { s with scan := s.scan + 1 }

/-- The outer loop, of at most `fuel` turns. -/
def searchLoop (end_scan : Nat) (mSearchForText : UInt32) (fopen : Bool) :
    Nat → TextSearch → TextSearch
  | 0, s => s
  | fuel + 1, s =>
    if s.scan < end_scan then
      searchLoop end_scan mSearchForText fopen fuel
        (s.turn blockData end_scan mSearchForText fopen)
    else s

def TextSearch.start (mTextReport : Bool) : TextSearch :=
  { scan := 0, textCount := 0, lineCount := 0, totalCount := 0, mTextReport
    prints := [], examined := [] }

/-- `const char *end_scan = scan + (block.blockLength - mSearchForText);`: the
difference is one of 32 bit numbers. -/
def endScan (blockLength mSearchForText : UInt32) : Nat := (blockLength - mSearchForText).toNat

/-- The search of `readBlock` in the data of a block. -/
def searchText (blockLength mSearchForText : UInt32) (mTextReport fopen : Bool) : TextSearch :=
  let end_scan := endScan blockLength mSearchForText
  let s := searchLoop blockData end_scan mSearchForText fopen end_scan (.start mTextReport)
  if s.textCount ≠ 0 ∧ s.mTextReport then
    { s with prints := s.prints ++ [.closing s.totalCount] }
  else s

/-! ## What is written -/

def ruleText : String := "==========================================\r\n"

/-- How the report calls the length of the texts. -/
def lengthText (totalCount : UInt32) : String :=
  if totalCount ≥ 128 then "Very Long Text: "
  else if totalCount ≥ 64 then "Long Text: "
  else "Short Text: "

/-- The characters of an item. The block and its date are given as text. -/
def Print.bytes (block date : String) : Print → List UInt8
  | .heading => asciiBytes (ruleText ++ "= ASCII TEXT REPORT for Block #" ++ block ++ " on " ++
      date ++ "\r\n" ++ ruleText)
  | .text scratch => scratch
  | .lineBreak => asciiBytes "\r\n"
  | .closing totalCount => asciiBytes ("\r\n" ++ ruleText ++ lengthText totalCount ++
      toString totalCount.toInt32 ++ " bytes\r\n" ++ "\r\n")

/-- The text of an item, if it is one. -/
def Print.text? : Print → Option (List UInt8)
  | .text scratch => some scratch
  | _ => none

/-- The texts that are written, without what is written around them. -/
def TextSearch.texts (s : TextSearch) : List (List UInt8) := s.prints.filterMap Print.text?

/-- What the search of a block appends to the report. -/
def TextSearch.report (s : TextSearch) (block date : String) : List UInt8 :=
  s.prints.flatMap (Print.bytes block date)

/-! ## A run that is copied -/

def isText (c : UInt8) : Bool := isASCII c.toInt8

theorem isText_iff (c : UInt8) : isText c ↔ (32 ≤ c.toNat ∧ c.toNat ≤ 126) ∨ c.toNat = 13 := by
  have hall : ∀ n < 256, isText (UInt8.ofNat n) ↔ (32 ≤ n ∧ n ≤ 126) ∨ n = 13 := by
    decide +kernel
  have hc := hall c.toNat c.toNat_lt
  rwa [UInt8.ofNat_toNat] at hc

/-- A text has no zero in it, so all of it is written. -/
theorem cString_text {scratch : List UInt8} (h : ∀ c ∈ scratch, isText c) :
    cString (scratch ++ [0]) = scratch := by
  rw [cString, List.takeWhile_append_of_pos]
  · simp
  · intro c hc
    simp only [decide_eq_true_eq]
    rintro rfl
    exact absurd (h 0 hc) (by decide)

/-- The bytes that the inner loop copies: the text at the start of what is left. -/
def textAt (left scan : Nat) : List UInt8 :=
  (window blockData scan left).takeWhile isText

theorem textAt_isText (left scan : Nat) : ∀ c ∈ textAt blockData left scan, isText c :=
  fun _ hc => List.mem_takeWhile_imp hc

theorem copyLoop_eq (left scan : Nat) : copyLoop blockData left scan =
    (textAt blockData left scan, List.range' scan ((textAt blockData left scan).length + 1)) := by
  unfold textAt
  induction left generalizing scan with
  | zero => rfl
  | succ left ih =>
    unfold copyLoop window
    by_cases h : isText (blockData scan)
    · rw [List.takeWhile_cons_of_pos h, List.length_cons, List.range'_succ, ih]
      exact if_pos h
    · rw [List.takeWhile_cons_of_neg h]
      exact if_neg h

/-- The text goes up to the end, or up to a byte that is no text. -/
theorem window_text (left scan : Nat) :
    (textAt blockData left scan).length ≤ left ∧
      ((textAt blockData left scan).length = left ∧ textAt blockData left scan =
          window blockData scan left ∨
        ∃ a, isText a = false ∧ (textAt blockData left scan).length < left ∧
          window blockData scan left = textAt blockData left scan ++
            a :: window blockData (scan + (textAt blockData left scan).length + 1)
              (left - ((textAt blockData left scan).length + 1))) := by
  unfold textAt
  induction left generalizing scan with
  | zero => exact ⟨Nat.le_refl 0, Or.inl ⟨rfl, rfl⟩⟩
  | succ left ih =>
    obtain ⟨hle, hstop⟩ := ih (scan + 1)
    rw [window]
    by_cases h : isText (blockData scan)
    · rw [List.takeWhile_cons_of_pos h, List.length_cons]
      refine ⟨by omega, ?_⟩
      rcases hstop with ⟨hlength, hall⟩ | ⟨a, ha, hlt, hsplit⟩
      · exact Or.inl ⟨by omega, by rw [hall]⟩
      · refine Or.inr ⟨a, ha, by omega, ?_⟩
        rw [List.cons_append, Nat.add_sub_add_right, ← Nat.add_assoc, Nat.add_right_comm scan _ 1,
          ← hsplit]
    · rw [List.takeWhile_cons_of_neg h]
      refine ⟨by simp, Or.inr ⟨blockData scan, by simpa using h, by simp, ?_⟩⟩
      simp

/-! ## One turn -/

variable (end_scan : Nat) (blockLength mSearchForText : UInt32) (mTextReport fopen : Bool)

/-- The texts that are found can be written: the report is open, or it is opened
for the first of them. -/
def TextSearch.CanReport (fopen : Bool) (s : TextSearch) : Prop :=
  s.mTextReport ∨ (s.textCount = 0 ∧ fopen)

instance (fopen : Bool) (s : TextSearch) : Decidable (s.CanReport fopen) :=
  inferInstanceAs (Decidable (s.mTextReport = true ∨ (s.textCount = 0 ∧ fopen = true)))

/-- The report of a text leaves the place of the search, and what it looked at. -/
theorem foundText_place (s : TextSearch) (scratch : List UInt8) :
    (s.foundText fopen scratch).scan = s.scan ∧
      (s.foundText fopen scratch).examined = s.examined := by
  unfold TextSearch.foundText TextSearch.startReport TextSearch.printText
  simp only
  repeat' split
  all_goals exact ⟨rfl, rfl⟩

theorem startReport_texts (s : TextSearch) :
    (s.startReport fopen).mTextReport = decide (s.CanReport fopen) ∧
      (s.startReport fopen).texts = s.texts := by
  unfold TextSearch.startReport TextSearch.CanReport TextSearch.texts
  simp only
  repeat' split
  all_goals simp_all [Print.text?]

theorem printText_texts (s : TextSearch) {scratch : List UInt8} (h : ∀ c ∈ scratch, isText c) :
    (s.printText scratch).mTextReport = s.mTextReport ∧
      (s.printText scratch).textCount = s.textCount ∧
      (s.printText scratch).texts = s.texts ++ if s.mTextReport then [scratch] else [] := by
  unfold TextSearch.printText TextSearch.texts
  simp only [cString_text h]
  repeat' split
  all_goals simp [Print.text?, *]

/-- A text that is found is written, if any can be; and then others can. -/
theorem foundText_texts (s : TextSearch) {scratch : List UInt8}
    (h : ∀ c ∈ scratch, isText c) :
    ((s.foundText fopen scratch).CanReport fopen ↔ s.CanReport fopen) ∧
      (s.foundText fopen scratch).texts =
        s.texts ++ if s.CanReport fopen then [scratch] else [] := by
  obtain ⟨hopen, htexts⟩ := startReport_texts fopen s
  obtain ⟨hreport, hcount, hprinted⟩ := printText_texts
    { s.startReport fopen with textCount := (s.startReport fopen).textCount + 1 } h
  unfold TextSearch.foundText
  constructor
  · rw [TextSearch.CanReport, hreport, hcount]
    simp [hopen]
  · rw [hprinted]
    simp only [hopen, decide_eq_true_eq]
    exact congrArg (· ++ _) htexts

theorem turn_texts (s : TextSearch) :
    ((s.turn blockData end_scan mSearchForText fopen).CanReport fopen ↔ s.CanReport fopen) ∧
      (s.turn blockData end_scan mSearchForText fopen).texts =
        s.texts ++ if s.CanReport fopen ∧
            mSearchForText.toNat ≤ (textAt blockData (end_scan - s.scan) s.scan).length then
          [textAt blockData (end_scan - s.scan) s.scan] else [] := by
  have htext := textAt_isText blockData (end_scan - s.scan) s.scan
  unfold TextSearch.turn
  rw [copyLoop_eq]
  simp only
  generalize textAt blockData (end_scan - s.scan) s.scan = scratch at htext
  by_cases hlong : mSearchForText.toNat ≤ scratch.length
  · rw [if_pos hlong]
    obtain ⟨hcan, htexts⟩ := foundText_texts fopen
      { s with scan := s.scan + scratch.length,
               examined := s.examined ++ List.range' s.scan (scratch.length + 1) } htext
    refine ⟨hcan, htexts.trans ?_⟩
    simp [hlong]
    rfl
  · rw [if_neg hlong]
    simp [hlong]
    exact ⟨Iff.rfl, rfl⟩

theorem turn_place (s : TextSearch) :
    (s.turn blockData end_scan mSearchForText fopen).scan =
        s.scan + (textAt blockData (end_scan - s.scan) s.scan).length + 1 ∧
      (s.turn blockData end_scan mSearchForText fopen).examined = s.examined ++
        List.range' s.scan ((textAt blockData (end_scan - s.scan) s.scan).length + 1) := by
  unfold TextSearch.turn
  rw [copyLoop_eq]
  simp only
  split
  · obtain ⟨hscan, hexamined⟩ := foundText_place fopen
      { s with scan := s.scan + (textAt blockData (end_scan - s.scan) s.scan).length,
               examined := s.examined ++ List.range' s.scan
                 ((textAt blockData (end_scan - s.scan) s.scan).length + 1) }
      (textAt blockData (end_scan - s.scan) s.scan)
    exact ⟨congrArg (· + 1) hscan, hexamined⟩
  · exact ⟨rfl, rfl⟩

/-! ## The whole search -/

/-- With as many turns as there are bytes left, the search reports every long run of
the bytes before `end_scan`. -/
theorem searchLoop_texts (hpos : 0 < mSearchForText.toNat) (fuel : Nat) (s : TextSearch)
    (hfuel : end_scan ≤ s.scan + fuel) :
    (searchLoop blockData end_scan mSearchForText fopen fuel s).texts =
      s.texts ++ if s.CanReport fopen then
        longRuns isText mSearchForText.toNat (window blockData s.scan (end_scan - s.scan)) else [] := by
  induction fuel generalizing s with
  | zero =>
    rw [searchLoop, Nat.sub_eq_zero_of_le (by omega), longRuns_short (by simpa using hpos)]
    simp
  | succ fuel ih =>
    unfold searchLoop
    by_cases hmore : s.scan < end_scan
    · rw [if_pos hmore]
      obtain ⟨hcan, htexts⟩ := turn_texts blockData end_scan mSearchForText fopen s
      obtain ⟨hscan, -⟩ := turn_place blockData end_scan mSearchForText fopen s
      rw [ih _ (by omega), htexts, hscan, List.append_assoc]
      simp only [hcan]
      by_cases hreport : s.CanReport fopen
      · simp only [hreport, if_true, true_and, List.append_cancel_left_eq]
        have htext := textAt_isText blockData (end_scan - s.scan) s.scan
        rcases (window_text blockData (end_scan - s.scan) s.scan).2 with
          ⟨hlength, hall⟩ | ⟨a, ha, hlt, hsplit⟩
        · have hrest : end_scan -
              (s.scan + (textAt blockData (end_scan - s.scan) s.scan).length + 1) = 0 := by omega
          rw [hrest, ← hall, longRuns_whole htext,
            longRuns_short (l := window _ _ 0) (by simpa using hpos), List.append_nil]
        · rw [hsplit, longRuns_cut htext ha, Nat.add_assoc s.scan, Nat.sub_sub]
      · simp [hreport]
    · rw [if_neg hmore, Nat.sub_eq_zero_of_le (by omega), longRuns_short (by simpa using hpos)]
      simp

/-- It looks at the bytes one after the other, and at `end_scan` too. -/
theorem searchLoop_place (fuel : Nat) (s : TextSearch) (hfuel : end_scan ≤ s.scan + fuel)
    (hle : s.scan ≤ end_scan + 1) (h : s.examined = List.range s.scan) :
    ∃ scan, (searchLoop blockData end_scan mSearchForText fopen fuel s).examined =
      List.range scan ∧ end_scan ≤ scan ∧ scan ≤ end_scan + 1 := by
  induction fuel generalizing s with
  | zero => exact ⟨s.scan, h, by omega, hle⟩
  | succ fuel ih =>
    unfold searchLoop
    by_cases hmore : s.scan < end_scan
    · rw [if_pos hmore]
      obtain ⟨hscan, hexamined⟩ := turn_place blockData end_scan mSearchForText fopen s
      have hlength := (window_text blockData (end_scan - s.scan) s.scan).1
      apply ih
      · omega
      · omega
      · have happend := @List.range'_append_1 0 s.scan
          ((textAt blockData (end_scan - s.scan) s.scan).length + 1)
        rw [Nat.zero_add] at happend
        rw [hexamined, hscan, h, List.range_eq_range', List.range_eq_range', happend, Nat.add_assoc]
    · rw [if_neg hmore]
      exact ⟨s.scan, h, by omega, hle⟩

theorem closing_texts (s : TextSearch) (totalCount : UInt32) :
    { s with prints := s.prints ++ [Print.closing totalCount] }.texts = s.texts := by
  simp [TextSearch.texts, Print.text?]

/-- The texts of the search are the long runs before `end_scan`. -/
theorem searchText_texts (hpos : 0 < mSearchForText.toNat) :
    (searchText blockData blockLength mSearchForText mTextReport fopen).texts =
      if mTextReport ∨ fopen then
        longRuns isText mSearchForText.toNat
          (window blockData 0 (endScan blockLength mSearchForText))
      else [] := by
  have htexts := searchLoop_texts blockData (endScan blockLength mSearchForText) mSearchForText fopen
    hpos (endScan blockLength mSearchForText) (.start mTextReport) (by simp)
  have hcan : (TextSearch.start mTextReport).CanReport fopen ↔ mTextReport ∨ fopen := by
    simp [TextSearch.CanReport, TextSearch.start]
  have hstart : (TextSearch.start mTextReport).texts = [] := rfl
  have hscan : (TextSearch.start mTextReport).scan = 0 := rfl
  rw [hstart, hscan, List.nil_append] at htexts
  simp only [hcan, Nat.sub_zero] at htexts
  unfold searchText
  simp only
  split
  · rw [closing_texts, htexts]
  · exact htexts

theorem searchText_examined :
    ∃ scan, (searchText blockData blockLength mSearchForText mTextReport fopen).examined =
        List.range scan ∧ endScan blockLength mSearchForText ≤ scan ∧
      scan ≤ endScan blockLength mSearchForText + 1 := by
  have hplace := searchLoop_place blockData (endScan blockLength mSearchForText) mSearchForText fopen
    (endScan blockLength mSearchForText) (.start mTextReport) (by simp) (Nat.zero_le _) rfl
  unfold searchText
  simp only
  split
  · exact hplace
  · exact hplace

/-- The end is in the block, or it is more than the whole block away. -/
theorem endScan_eq : (mSearchForText ≤ blockLength ∧
      endScan blockLength mSearchForText = blockLength.toNat - mSearchForText.toNat) ∨
    (¬ mSearchForText ≤ blockLength ∧ blockLength.toNat < endScan blockLength mSearchForText) := by
  have hm := mSearchForText.toNat_lt
  have hb := blockLength.toNat_lt
  unfold endScan
  rw [UInt32.toNat_sub, UInt32.le_iff_toNat_le]
  omega

/-! ## The report of a block -/

/-- A text, or a line break between two texts. -/
def Print.IsPlain (print : Print) : Prop := print = .lineBreak ∨ ∃ scratch, print = .text scratch

/-- Nothing is written before the first text, and the heading before all others. -/
inductive ReportShape (s : TextSearch) : Prop
  | empty (prints : s.prints = []) (unused : s.textCount = 0 ∨ s.mTextReport = false)
  | started (body : List Print) (prints : s.prints = .heading :: body)
      (plain : ∀ print ∈ body, print.IsPlain) (texts : s.textCount ≠ 0)
      (report : s.mTextReport = true)

theorem printText_started (s : TextSearch) (scratch : List UInt8) {body : List Print}
    (hprints : s.prints = .heading :: body) (hplain : ∀ print ∈ body, print.IsPlain)
    (htexts : s.textCount ≠ 0) (hreport : s.mTextReport = true) :
    ReportShape (s.printText scratch) := by
  have htext : ∀ print ∈ body ++ [.text (cString (scratch ++ [0]))], print.IsPlain := by
    intro print hprint
    rcases List.mem_append.mp hprint with hbody | hlast
    · exact hplain print hbody
    · exact Or.inr ⟨_, List.mem_singleton.mp hlast⟩
  unfold TextSearch.printText
  rw [if_pos hreport]
  simp only
  split
  · refine ReportShape.started (body ++ [.text (cString (scratch ++ [0]))] ++ [.lineBreak])
      (by simp [hprints]) ?_ htexts hreport
    intro print hprint
    rcases List.mem_append.mp hprint with hbody | hlast
    · exact htext print hbody
    · exact Or.inl (List.mem_singleton.mp hlast)
  · exact ReportShape.started _ (by simp [hprints]) htext htexts hreport

theorem printText_closed {s : TextSearch} (h : s.mTextReport = false) (scratch : List UInt8) :
    s.printText scratch = s := by
  unfold TextSearch.printText
  rw [if_neg (by simp [h])]

/-- The report starts with the heading, or it cannot be opened. -/
theorem startReport_shape {s : TextSearch} (h : ReportShape s) :
    ((s.startReport fopen).prints = [] ∧ (s.startReport fopen).mTextReport = false) ∨
      ∃ body : List Print, (s.startReport fopen).prints = .heading :: body ∧
        (∀ print ∈ body, print.IsPlain) ∧ (s.startReport fopen).mTextReport = true := by
  unfold TextSearch.startReport
  cases h with
  | started body prints plain texts report =>
    rw [if_neg texts]
    exact Or.inr ⟨body, prints, plain, report⟩
  | empty prints unused =>
    by_cases hfirst : s.textCount = 0
    · rw [if_pos hfirst]
      cases hreport : s.mTextReport with
      | true =>
        refine Or.inr ⟨[], ?_⟩
        simp [hreport, prints]
      | false =>
        cases fopen with
        | true =>
          refine Or.inr ⟨[], ?_⟩
          simp [prints]
        | false => simp [prints]
    · rw [if_neg hfirst]
      exact Or.inl ⟨prints, unused.resolve_left hfirst⟩

theorem foundText_shape {s : TextSearch} (h : ReportShape s) (scratch : List UInt8) :
    ReportShape (s.foundText fopen scratch) := by
  unfold TextSearch.foundText
  rcases startReport_shape fopen h with ⟨hprints, hclosed⟩ | ⟨body, hprints, hplain, hreport⟩
  · have hsame := printText_closed (s := { s.startReport fopen with
      textCount := (s.startReport fopen).textCount + 1 }) hclosed scratch
    simp only [hsame]
    exact ReportShape.empty hprints (Or.inr hclosed)
  · exact printText_started _ scratch hprints hplain (Nat.succ_ne_zero _) hreport

theorem ReportShape.congr {s s' : TextSearch} (h : ReportShape s) (hprints : s'.prints = s.prints)
    (htexts : s'.textCount = s.textCount) (hreport : s'.mTextReport = s.mTextReport) :
    ReportShape s' := by
  cases h with
  | empty prints unused =>
    exact ReportShape.empty (hprints.trans prints) (by rw [htexts, hreport]; exact unused)
  | started body prints plain texts report =>
    exact ReportShape.started body (hprints.trans prints) plain (htexts ▸ texts)
      (hreport.trans report)

theorem turn_shape {s : TextSearch} (h : ReportShape s) :
    ReportShape (s.turn blockData end_scan mSearchForText fopen) := by
  unfold TextSearch.turn
  simp only
  split
  · refine ReportShape.congr (foundText_shape fopen (s := { s with scan := _, examined := _ }) ?_ _)
      rfl rfl rfl
    exact h.congr rfl rfl rfl
  · exact h.congr rfl rfl rfl

theorem searchLoop_shape (fuel : Nat) {s : TextSearch} (h : ReportShape s) :
    ReportShape (searchLoop blockData end_scan mSearchForText fopen fuel s) := by
  induction fuel generalizing s with
  | zero => exact h
  | succ fuel ih =>
    unfold searchLoop
    split
    · exact ih (turn_shape blockData end_scan mSearchForText fopen h)
    · exact h

/-- The report of a block is empty, or its texts stand between the heading and the
closing lines, with line breaks as all that is between them. -/
theorem the_texts_stand_between_heading_and_closing (block date : String) :
    (searchText blockData blockLength mSearchForText mTextReport fopen).report block date = [] ∨
      ∃ (body : List Print) (totalCount : UInt32), (∀ print ∈ body, print.IsPlain) ∧
        body.filterMap Print.text? =
          (searchText blockData blockLength mSearchForText mTextReport fopen).texts ∧
        (searchText blockData blockLength mSearchForText mTextReport fopen).report block date =
          Print.heading.bytes block date ++ (body.flatMap (Print.bytes block date) ++
            (Print.closing totalCount).bytes block date) := by
  have hshape := searchLoop_shape blockData (endScan blockLength mSearchForText) mSearchForText fopen
    (endScan blockLength mSearchForText)
    (ReportShape.empty (s := .start mTextReport) rfl (Or.inl rfl))
  unfold searchText
  simp only
  generalize searchLoop blockData (endScan blockLength mSearchForText) mSearchForText fopen
    (endScan blockLength mSearchForText) (.start mTextReport) = final at hshape
  cases hshape with
  | empty prints unused =>
    have hopen : ¬ (final.textCount ≠ 0 ∧ final.mTextReport = true) := by
      rintro ⟨htexts, hreport⟩
      rcases unused with h | h
      · exact htexts h
      · rw [h] at hreport
        cases hreport
    rw [if_neg hopen, TextSearch.report, prints]
    exact Or.inl rfl
  | started body prints plain texts report =>
    rw [if_pos ⟨texts, report⟩]
    refine Or.inr ⟨body, final.totalCount, plain, ?_, ?_⟩
    · have hheading : Print.heading.text? = none := rfl
      have hclosing : (Print.closing final.totalCount).text? = none := rfl
      simp [TextSearch.texts, prints, hheading, hclosing]
    · simp [TextSearch.report, prints]

/-! ## When all of it is right -/

/-- The texts that are written are the runs of ASCII characters of at least the
length that is searched for, and no byte behind the block is looked at. -/
structure ReportsRuns (s : TextSearch) : Prop where
  texts : s.texts = longRuns isText mSearchForText.toNat (window blockData 0 blockLength.toNat)
  inside : ∀ i ∈ s.examined, i < blockLength.toNat

/-- The block is as long as the text that is searched for, and behind each run of
this length there is room for another; and the report can be written, if it is needed. -/
structure SearchFits : Prop where
  length : mSearchForText ≤ blockLength
  behind : ∀ before run after, window blockData 0 blockLength.toNat = before ++ (run ++ after) →
    IsRun isText before run after → mSearchForText.toNat ≤ run.length →
      (mTextReport ∨ fopen) ∧ mSearchForText.toNat ≤ after.length

/-- The bytes before `end_scan` are those of the block without the last ones. -/
theorem window_endScan (hle : mSearchForText ≤ blockLength) :
    window blockData 0 (endScan blockLength mSearchForText) =
      (window blockData 0 blockLength.toNat).take
        ((window blockData 0 blockLength.toNat).length - mSearchForText.toNat) := by
  rcases endScan_eq blockLength mSearchForText with ⟨-, hend⟩ | ⟨hnot, -⟩
  · rw [window_length, hend]
    exact window_take (holds_window blockData 0 blockLength.toNat) _ (by simp)
  · exact absurd hle hnot

/-- With the end in the block the texts are right exactly when no run ends behind it. -/
theorem searchText_texts_iff (hpos : 0 < mSearchForText.toNat) (hle : mSearchForText ≤ blockLength) :
    (searchText blockData blockLength mSearchForText mTextReport fopen).texts =
        longRuns isText mSearchForText.toNat (window blockData 0 blockLength.toNat) ↔
      SearchFits blockData blockLength mSearchForText mTextReport fopen := by
  have hlength : mSearchForText.toNat ≤ (window blockData 0 blockLength.toNat).length := by
    rw [window_length]
    exact UInt32.le_iff_toNat_le.mp hle
  rw [searchText_texts blockData blockLength mSearchForText mTextReport fopen hpos,
    window_endScan blockData blockLength mSearchForText hle]
  by_cases hreport : mTextReport ∨ fopen
  · rw [if_pos hreport, longRuns_take_eq_iff hpos hlength]
    constructor
    · intro h
      refine ⟨hle, fun before run after hsplit hrun hlong => ⟨hreport, ?_⟩⟩
      exact h before run after hsplit hrun hlong
    · intro h before run after hsplit hrun hlong
      exact (h.behind before run after hsplit hrun hlong).2
  · -- nothing can be written, so there must be nothing to write
    rw [if_neg hreport, eq_comm, longRuns_eq_nil_iff hpos]
    constructor
    · intro h
      refine ⟨hle, fun before run after hsplit hrun hlong => ?_⟩
      exact absurd hlong (h before run after hsplit hrun)
    · intro h before run after hsplit hrun hlong
      exact hreport (h.behind before run after hsplit hrun hlong).1

/-- The search reports the long runs of a block, and looks at nothing else, exactly
when the block is long enough and no such run ends among its last bytes. -/
theorem the_search_reports_the_runs_exactly_when_it_fits (hsearch : mSearchForText ≠ 0) :
    ReportsRuns blockData blockLength mSearchForText
        (searchText blockData blockLength mSearchForText mTextReport fopen) ↔
      SearchFits blockData blockLength mSearchForText mTextReport fopen := by
  have hpos : 0 < mSearchForText.toNat := by
    rw [Nat.pos_iff_ne_zero]
    exact fun h0 => hsearch (UInt32.toNat_inj.mp h0)
  obtain ⟨scan, hexamined, hfrom, hto⟩ :=
    searchText_examined blockData blockLength mSearchForText mTextReport fopen
  rcases endScan_eq blockLength mSearchForText with ⟨hle, hend⟩ | ⟨hnot, hend⟩
  · rw [← searchText_texts_iff blockData blockLength mSearchForText mTextReport fopen hpos hle]
    constructor
    · exact fun h => h.texts
    · intro htexts
      refine ⟨htexts, ?_⟩
      intro i hi
      rw [hexamined] at hi
      have hlt := List.mem_range.mp hi
      have hlength := UInt32.le_iff_toNat_le.mp hle
      omega
  · -- the end is far behind the block, and all bytes up to it are looked at
    refine iff_of_false ?_ (fun h => hnot h.length)
    intro h
    have hbehind := h.inside blockLength.toNat (by
      rw [hexamined, List.mem_range]
      omega)
    exact absurd hbehind (Nat.lt_irrefl _)

/-- A text of five characters, and five bytes behind it. -/
def shortBlock : List UInt8 := asciiBytes "hello" ++ List.replicate 5 0

theorem a_text_with_room_behind_it_is_reported :
    (5 : UInt32) ≠ 0 ∧
    (ReportsRuns (overlay shortBlock fun _ => 0) 10 5
        (searchText (overlay shortBlock fun _ => 0) 10 5 false true) ↔
      SearchFits (overlay shortBlock fun _ => 0) 10 5 false true) :=
  ⟨by decide, the_search_reports_the_runs_exactly_when_it_fits _ 10 5 false true (by decide)⟩

/-- A block that is one text of the length that is searched for. -/
theorem a_block_of_one_text_is_not_reported :
    ¬ ∀ (blockData : Memory) (blockLength mSearchForText : UInt32), mSearchForText ≠ 0 →
      ReportsRuns blockData blockLength mSearchForText
        (searchText blockData blockLength mSearchForText false true) := by
  intro h
  have hreports := (h (overlay (asciiBytes "hello") fun _ => 0) 5 5 (by decide)).texts
  exact absurd hreports (by decide)

end bitcoinstats.text_search
