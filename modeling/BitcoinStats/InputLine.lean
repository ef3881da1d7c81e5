-- The console input of `InputLine.cpp`: the reader thread and the main loop of
-- `main.cpp` as two parties that step in any order, and the one flag over which
-- each line is handed.
import BitcoinStats.Library.Runs

open runs

namespace bitcoinstats.inputline

/-! ## Buffers -/

def MAX_INPUT_BUF : Nat := 8192

/-- The bytes of a buffer in front of its first zero. -/
def cString (buffer : List UInt8) : List UInt8 := buffer.takeWhile (· ≠ 0)

/-- The buffer with a string and its closing zero at the front. -/
def write (s buffer : List UInt8) : List UInt8 := s ++ 0 :: buffer.drop (s.length + 1)

/-- A newline at the end of the string in the buffer is made its closing zero. -/
def cutNewline (buffer : List UInt8) : List UInt8 :=
  let len := (cString buffer).length
  if len ≠ 0 ∧ buffer[len - 1]? = some 0x0A then buffer.set (len - 1) 0 else buffer

/-- What `fgets` can deliver: bytes up to a newline, as far as the buffer has room. -/
structure IsChunk (chunk : List UInt8) : Prop where
  ne_nil : chunk ≠ []
  length_lt : chunk.length < MAX_INPUT_BUF
  newline : 0x0A ∉ chunk.dropLast

/-! ## The two parties -/

/-- What the reader thread does next. -/
inductive Reader where
  | testExit
  | testNewData
  | clearBuffer
  | fgets
  | testLine (ret : Bool)
  | wakeup
  | setNewData
  | sleepNano
  | stopped
deriving DecidableEq

/-- What the main loop does next. -/
inductive Main where
  | goToSleep
  | testNewData
  | copy
  | cutNewline
  | clearNewData
  | processInput
  | release
  | exited
deriving DecidableEq

structure InputState where
  reader : Reader
  main : Main
  mExit : Bool
  mHaveNewData : Bool
  mPendingWork : Bool
  mInputBuffer : List UInt8
  mResultBuffer : List UInt8

/-- Before the first step of either party, with any bytes in the buffers. -/
def InputState.start (mInputBuffer mResultBuffer : List UInt8) : InputState :=
  { reader := .testExit, main := .goToSleep, mExit := false, mHaveNewData := false,
    mPendingWork := true, mInputBuffer, mResultBuffer }

/-- A step, with the bytes that go in or out. -/
inductive Event where
  | readerTestExit
  | readerTestNewData
  | clearBuffer
  | fgets (chunk : Option (List UInt8))
  | testLine
  | wakeup
  | setNewData
  | sleepNano
  | goToSleep
  | mainTestNewData
  | copy
  | cutNewline
  | clearNewData (line : List UInt8)
  | processInput (isExit : Bool)
  | release

/-- The loop of the reader thread. `fgets` may fail at any time, and then
leaves any bytes in the buffer. -/
inductive ReaderStep : InputState → Event → InputState → Prop
  | testExit {s : InputState} (at_ : s.reader = .testExit) :
      ReaderStep s .readerTestExit
        { s with reader := if s.mExit then .stopped else .testNewData }
  | testNewData {s : InputState} (at_ : s.reader = .testNewData) :
      ReaderStep s .readerTestNewData
        { s with reader := if s.mHaveNewData then .sleepNano else .clearBuffer }
  | clearBuffer {s : InputState} (at_ : s.reader = .clearBuffer) :
      ReaderStep s .clearBuffer
        { s with reader := .fgets, mInputBuffer := write [] s.mInputBuffer }
  | fgets {s : InputState} {chunk : List UInt8} (at_ : s.reader = .fgets) (h : IsChunk chunk) :
      ReaderStep s (.fgets (some chunk))
        { s with reader := .testLine true, mInputBuffer := write chunk s.mInputBuffer }
  | fgetsFails {s : InputState} (at_ : s.reader = .fgets) (mInputBuffer : List UInt8) :
      ReaderStep s (.fgets none) { s with reader := .testLine false, mInputBuffer }
  | testLine {s : InputState} {ret : Bool} (at_ : s.reader = .testLine ret) :
      ReaderStep s .testLine
        { s with
          reader :=
            if ret ∧ cString s.mInputBuffer ≠ [] then .wakeup
            else if ¬ ret then .stopped
            else .testExit }
  | wakeup {s : InputState} (at_ : s.reader = .wakeup) :
      ReaderStep s .wakeup { s with reader := .setNewData, mPendingWork := true }
  | setNewData {s : InputState} (at_ : s.reader = .setNewData) :
      ReaderStep s .setNewData { s with reader := .testExit, mHaveNewData := true }
  | sleepNano {s : InputState} (at_ : s.reader = .sleepNano) :
      ReaderStep s .sleepNano { s with reader := .testExit }

/-- The main loop. `goToSleep` comes back with work or after its time, and the
mutex is taken by no other party. The line counts as returned once the flag is
cleared, the last of the accesses in `getInputLine`. -/
inductive MainStep : InputState → Event → InputState → Prop
  | goToSleep {s : InputState} (at_ : s.main = .goToSleep) :
      MainStep s .goToSleep { s with main := .testNewData, mPendingWork := false }
  | testNewData {s : InputState} (at_ : s.main = .testNewData) :
      MainStep s .mainTestNewData { s with main := if s.mHaveNewData then .copy else .goToSleep }
  | copy {s : InputState} (at_ : s.main = .copy) :
      MainStep s .copy
        { s with
          main := .cutNewline
          mResultBuffer := write (cString s.mInputBuffer) s.mResultBuffer }
  | cutNewline {s : InputState} (at_ : s.main = .cutNewline) :
      MainStep s .cutNewline
        { s with main := .clearNewData, mResultBuffer := cutNewline s.mResultBuffer }
  | clearNewData {s : InputState} (at_ : s.main = .clearNewData) :
      MainStep s (.clearNewData (cString s.mResultBuffer))
        { s with main := .processInput, mHaveNewData := false }
  | processInput {s : InputState} (at_ : s.main = .processInput) (isExit : Bool) :
      MainStep s (.processInput isExit) { s with main := if isExit then .release else .goToSleep }
  | release {s : InputState} (at_ : s.main = .release) :
      MainStep s .release { s with main := .exited, mExit := true }

/-- Either party steps. -/
def Step (s : InputState) (e : Event) (s' : InputState) : Prop := ReaderStep s e s' ∨ MainStep s e s'

/-! ## Lines -/

/-- A string without one newline at its end. -/
def withoutNewline (s : List UInt8) : List UInt8 := if s.getLast? = some 0x0A then s.dropLast else s

/-- The line that a step takes in, if its string is not empty. -/
def Event.delivered : Event → Option (List UInt8)
  | .fgets (some chunk) => if cString chunk = [] then none else some (withoutNewline (cString chunk))
  | _ => none

/-- The line that a step gives to the main loop. -/
def Event.returned : Event → Option (List UInt8)
  | .clearNewData line => some line
  | _ => none

def delivered (events : List Event) : List (List UInt8) := events.filterMap Event.delivered
def returned (events : List Event) : List (List UInt8) := events.filterMap Event.returned

/-- The steps that write the input buffer. -/
def Event.writesInput : Event → Prop
  | .clearBuffer => True
  | .fgets _ => True
  | _ => False

/-- The main loop has seen the flag and not cleared it yet. -/
def Main.holdsLine : Main → Prop
  | .copy => True
  | .cutNewline => True
  | .clearNewData => True
  | _ => False

/-! ## Strings in buffers -/

theorem cString_append_zero (s rest : List UInt8) : cString (s ++ 0 :: rest) = cString s := by
  induction s with
  | nil => simp [cString]
  | cons c s ih =>
    unfold cString at ih ⊢
    by_cases hc : c = 0
    · simp [hc]
    · simpa [hc] using ih

@[simp] theorem cString_write (s buffer : List UInt8) : cString (write s buffer) = cString s :=
  cString_append_zero s _

theorem cString_of_notMem {s : List UInt8} (h : 0 ∉ s) : cString s = s := by
  induction s with
  | nil => rfl
  | cons c s ih =>
    have hc : c ≠ 0 := fun heq => h (heq ▸ List.mem_cons_self)
    have ih := ih (fun hmem => h (List.mem_cons_of_mem c hmem))
    unfold cString at ih ⊢
    simpa [hc] using ih

theorem zero_notMem_cString (buffer : List UInt8) : 0 ∉ cString buffer := by
  intro hmem
  have hne := List.all_eq_true.mp List.all_takeWhile 0 hmem
  simp at hne

/-- What is copied loses its newline. -/
theorem cString_cutNewline {s : List UInt8} (h : 0 ∉ s) (buffer : List UInt8) :
    cString (cutNewline (write s buffer)) = withoutNewline s := by
  have hlength : cString (write s buffer) = s := by rw [cString_write, cString_of_notMem h]
  unfold cutNewline
  simp only [hlength]
  rcases List.eq_nil_or_concat s with rfl | ⟨front, c, rfl⟩
  · exact hlength
  · rw [List.concat_eq_append] at h hlength ⊢
    have hfront : 0 ∉ front := fun hmem => h (List.mem_append_left _ hmem)
    have hget : (write (front ++ [c]) buffer)[(front ++ [c]).length - 1]? = some c := by
      simp [write]
    have hset : (write (front ++ [c]) buffer).set ((front ++ [c]).length - 1) 0 =
        front ++ 0 :: 0 :: buffer.drop ((front ++ [c]).length + 1) := by
      simp [write, List.set_append_right]
    have hlast : withoutNewline (front ++ [c]) = if c = 0x0A then front else front ++ [c] := by
      simp [withoutNewline]
    rw [hget, hset, hlast]
    by_cases hc : c = 0x0A
    · rw [if_pos ⟨by simp, by rw [hc]⟩, if_pos hc, cString_append_zero, cString_of_notMem hfront]
    · rw [if_neg (fun hand => hc (Option.some.inj hand.2)), if_neg hc, hlength]

/-! ## The invariant -/

/-- The reader is past its test of the flag and has not set it yet. -/
def Reader.filling : Reader → Bool
  | .clearBuffer => true
  | .fgets => true
  | .testLine _ => true
  | .wakeup => true
  | .setNewData => true
  | _ => false

/-- The line in the input buffer that is not returned yet, if there is one. -/
def InputState.inFlight (s : InputState) : List (List UInt8) :=
  match s.reader with
  | .testLine true =>
    if cString s.mInputBuffer = [] then [] else [withoutNewline (cString s.mInputBuffer)]
  | .wakeup => [withoutNewline (cString s.mInputBuffer)]
  | .setNewData => [withoutNewline (cString s.mInputBuffer)]
  | _ => if s.mHaveNewData then [withoutNewline (cString s.mInputBuffer)] else []

/-- The flag says whose turn the input buffer is: that of the main loop while
it is set, that of the reader while it is not. -/
structure HandOver (events : List Event) (s : InputState) : Prop where
  lines : delivered events = returned events ++ s.inFlight
  reader : s.mHaveNewData = true → s.reader.filling = false
  main : s.main.holdsLine → s.mHaveNewData = true
  copied : s.main = .cutNewline → ∃ buffer, s.mResultBuffer = write (cString s.mInputBuffer) buffer
  cut : s.main = .clearNewData → cString s.mResultBuffer = withoutNewline (cString s.mInputBuffer)

theorem delivered_concat (events : List Event) (e : Event) :
    delivered (events ++ [e]) = delivered events ++ e.delivered.toList := by
  unfold delivered
  rw [List.filterMap_append]
  cases h : e.delivered <;> simp [h]

theorem returned_concat (events : List Event) (e : Event) :
    returned (events ++ [e]) = returned events ++ e.returned.toList := by
  unfold returned
  rw [List.filterMap_append]
  cases h : e.returned <;> simp [h]

theorem handOver_start (mInputBuffer mResultBuffer : List UInt8) :
    HandOver [] (.start mInputBuffer mResultBuffer) where
  lines := rfl
  reader h := by cases h
  main h := absurd h (by simp [InputState.start, Main.holdsLine])
  copied h := by cases h
  cut h := by cases h

/-- A step that takes no line in and gives none. -/
theorem lines_silent {events : List Event} {e : Event} {s s' : InputState}
    (h : delivered events = returned events ++ s.inFlight) (hdelivered : e.delivered = none)
    (hreturned : e.returned = none) (hsame : s'.inFlight = s.inFlight) :
    delivered (events ++ [e]) = returned (events ++ [e]) ++ s'.inFlight := by
  rw [delivered_concat, returned_concat, hdelivered, hreturned, hsame, h]
  simp

/-- Between its turns the reader leaves a line to the flag. -/
theorem inFlight_of_idle {s : InputState} (h : s.reader.filling = false) :
    s.inFlight = if s.mHaveNewData then [withoutNewline (cString s.mInputBuffer)] else [] := by
  unfold InputState.inFlight
  cases hr : s.reader with
  | testExit => rfl
  | testNewData => rfl
  | sleepNano => rfl
  | stopped => rfl
  | clearBuffer => rfl
  | fgets => rfl
  | testLine ret =>
    rw [hr] at h
    cases h
  | wakeup =>
    rw [hr] at h
    cases h
  | setNewData =>
    rw [hr] at h
    cases h

section Reader

variable {events : List Event} {s : InputState} (h : HandOver events s)
include h

/-- While the reader fills the buffer, the flag is clear. -/
theorem HandOver.clear (hfilling : s.reader.filling = true) : s.mHaveNewData = false := by
  by_contra hset
  rw [h.reader (by simpa using hset)] at hfilling
  cases hfilling

/-- While the flag is clear, the main loop holds no line. -/
theorem HandOver.not_holds (hclear : s.mHaveNewData = false) : ¬ s.main.holdsLine := by
  intro hholds
  rw [h.main hholds] at hclear
  cases hclear

/-- The reader goes on, with the buffers and the flag as they were. -/
theorem HandOver.moveReader {e : Event} (reader : Reader) (mPendingWork : Bool)
    (hdelivered : e.delivered = none) (hreturned : e.returned = none)
    (hfilling : s.mHaveNewData = true → reader.filling = false)
    (hsame : { s with reader, mPendingWork }.inFlight = s.inFlight) :
    HandOver (events ++ [e]) { s with reader, mPendingWork } where
  lines := lines_silent h.lines hdelivered hreturned hsame
  reader := hfilling
  main := h.main
  copied := h.copied
  cut := h.cut

/-- The reader writes the buffer, in its own turn. -/
theorem HandOver.writeBuffer {e : Event} (reader : Reader) (mInputBuffer : List UInt8)
    (hfilling : s.reader.filling = true)
    (hlines : delivered (events ++ [e]) =
      returned (events ++ [e]) ++ { s with reader, mInputBuffer }.inFlight) :
    HandOver (events ++ [e]) { s with reader, mInputBuffer } := by
  have hclear := h.clear hfilling
  have hholds := h.not_holds hclear
  refine ⟨hlines, ?_, h.main, ?_, ?_⟩
  · intro hset
    rw [hclear] at hset
    cases hset
  · intro hat
    exact absurd (by rw [hat]; trivial) hholds
  · intro hat
    exact absurd (by rw [hat]; trivial) hholds

theorem HandOver.readerStep {e : Event} {s' : InputState} (hstep : ReaderStep s e s') :
    HandOver (events ++ [e]) s' := by
  have hidle : s.reader.filling = false →
      s.inFlight = if s.mHaveNewData then [withoutNewline (cString s.mInputBuffer)] else [] :=
    inFlight_of_idle
  cases hstep with
  | testExit hat =>
    have hfilling : (if s.mExit then Reader.stopped else .testNewData).filling = false := by
      split <;> rfl
    refine h.moveReader _ s.mPendingWork rfl rfl (fun _ => hfilling) ?_
    rw [inFlight_of_idle hfilling, hidle (by rw [hat]; rfl)]
  | testNewData hat =>
    refine h.moveReader _ s.mPendingWork rfl rfl ?_ ?_
    · intro hset
      rw [if_pos hset]
      rfl
    · rw [hidle (by rw [hat]; rfl)]
      cases hset : s.mHaveNewData with
      | true => simp [InputState.inFlight]
      | false => simp [InputState.inFlight]
  | clearBuffer hat =>
    have hclear := h.clear (by rw [hat]; rfl)
    refine h.writeBuffer _ _ (by rw [hat]; rfl) (lines_silent h.lines rfl rfl ?_)
    simp [InputState.inFlight, hat, hclear]
  | @fgets chunk hat hchunk =>
    have hclear := h.clear (by rw [hat]; rfl)
    refine h.writeBuffer _ _ (by rw [hat]; rfl) ?_
    have hnone : s.inFlight = [] := by simp [InputState.inFlight, hat, hclear]
    rw [delivered_concat, returned_concat, h.lines, hnone]
    by_cases hnil : cString chunk = []
    · simp [InputState.inFlight, Event.delivered, Event.returned, hnil]
    · simp [InputState.inFlight, Event.delivered, Event.returned, hnil]
  | fgetsFails hat mInputBuffer =>
    have hclear := h.clear (by rw [hat]; rfl)
    refine h.writeBuffer _ _ (by rw [hat]; rfl) (lines_silent h.lines rfl rfl ?_)
    simp [InputState.inFlight, hat, hclear]
  | @testLine ret hat =>
    have hclear := h.clear (by rw [hat]; rfl)
    refine h.moveReader _ s.mPendingWork rfl rfl ?_ ?_
    · intro hset
      rw [hclear] at hset
      cases hset
    · cases ret with
      | true =>
        by_cases hnil : cString s.mInputBuffer = []
        · simp [InputState.inFlight, hat, hclear, hnil]
        · simp [InputState.inFlight, hat, hnil]
      | false => simp [InputState.inFlight, hat, hclear]
  | wakeup hat =>
    have hclear := h.clear (by rw [hat]; rfl)
    refine h.moveReader _ true rfl rfl ?_ ?_
    · intro hset
      rw [hclear] at hset
      cases hset
    · simp [InputState.inFlight, hat]
  | setNewData hat =>
    have hclear := h.clear (by rw [hat]; rfl)
    have hholds := h.not_holds hclear
    refine ⟨lines_silent h.lines rfl rfl ?_, fun _ => rfl, fun _ => rfl, ?_, ?_⟩
    · simp [InputState.inFlight, hat]
    · intro hmain
      exact absurd (by rw [hmain]; trivial) hholds
    · intro hmain
      exact absurd (by rw [hmain]; trivial) hholds
  | sleepNano hat =>
    refine h.moveReader _ s.mPendingWork rfl rfl (fun _ => rfl) ?_
    rw [inFlight_of_idle rfl, hidle (by rw [hat]; rfl)]

end Reader

theorem HandOver.mainStep {events : List Event} {e : Event} {s s' : InputState}
    (h : HandOver events s) (hstep : MainStep s e s') : HandOver (events ++ [e]) s' := by
  cases hstep with
  | goToSleep hat =>
    refine ⟨lines_silent h.lines rfl rfl rfl, h.reader, ?_, ?_, ?_⟩
    · exact fun hholds => hholds.elim
    · intro hat'
      cases hat'
    · intro hat'
      cases hat'
  | testNewData hat =>
    refine ⟨lines_silent h.lines rfl rfl rfl, h.reader, ?_, ?_, ?_⟩
    · cases hset : s.mHaveNewData with
      | true => exact fun _ => rfl
      | false => exact fun hholds => hholds.elim
    · cases hset : s.mHaveNewData with
      | true => intro hat'; cases hat'
      | false => intro hat'; cases hat'
    · cases hset : s.mHaveNewData with
      | true => intro hat'; cases hat'
      | false => intro hat'; cases hat'
  | copy hat =>
    have hset : s.mHaveNewData = true := h.main (by rw [hat]; trivial)
    refine ⟨lines_silent h.lines rfl rfl rfl, h.reader, fun _ => hset, ?_, ?_⟩
    · exact fun _ => ⟨s.mResultBuffer, rfl⟩
    · intro hat'
      cases hat'
  | cutNewline hat =>
    have hset : s.mHaveNewData = true := h.main (by rw [hat]; trivial)
    obtain ⟨buffer, hbuffer⟩ := h.copied hat
    refine ⟨lines_silent h.lines rfl rfl rfl, h.reader, fun _ => hset, ?_, ?_⟩
    · intro hat'
      cases hat'
    · intro _
      simp only [hbuffer]
      exact cString_cutNewline (zero_notMem_cString _) buffer
  | clearNewData hat =>
    -- the line that was in flight is the one that is returned
    have hset : s.mHaveNewData = true := h.main (by rw [hat]; trivial)
    have hidle := h.reader hset
    have hline := h.cut hat
    refine ⟨?_, ?_, ?_, ?_, ?_⟩
    · rw [delivered_concat, returned_concat, h.lines, inFlight_of_idle hidle, if_pos hset,
        inFlight_of_idle (by exact hidle)]
      simp [Event.delivered, Event.returned, hline]
    · intro hset'
      cases hset'
    · exact fun hholds => hholds.elim
    · intro hat'
      cases hat'
    · intro hat'
      cases hat'
  | processInput hat isExit =>
    refine ⟨lines_silent h.lines rfl rfl rfl, h.reader, ?_, ?_, ?_⟩
    · cases isExit <;> exact fun hholds => hholds.elim
    · cases isExit <;> exact fun hat' => by cases hat'
    · cases isExit <;> exact fun hat' => by cases hat'
  | release hat =>
    refine ⟨lines_silent h.lines rfl rfl rfl, h.reader, ?_, ?_, ?_⟩
    · exact fun hholds => hholds.elim
    · intro hat'
      cases hat'
    · intro hat'
      cases hat'

theorem handOver_of_run {events : List Event} {mInputBuffer mResultBuffer : List UInt8}
    {s : InputState} (h : Run Step (.start mInputBuffer mResultBuffer) events s) :
    HandOver events s := by
  refine h.invariant HandOver (handOver_start mInputBuffer mResultBuffer) ?_
  intro events s e s' _ hinv hstep
  rcases hstep with hstep | hstep
  · exact hinv.readerStep hstep
  · exact hinv.mainStep hstep

/-! ## The lines -/

theorem length_inFlight_le (s : InputState) : s.inFlight.length ≤ 1 := by
  unfold InputState.inFlight
  split
  · split <;> simp
  · simp
  · simp
  · split <;> simp

theorem filling_of_writes {e : Event} {s s' : InputState} (h : Step s e s')
    (hwrites : e.writesInput) : s.reader.filling = true := by
  rcases h with h | h
  · cases h with
    | clearBuffer hat => rw [hat]; rfl
    | fgets hat => rw [hat]; rfl
    | fgetsFails hat => rw [hat]; rfl
    | testExit | testNewData | testLine | wakeup | setNewData | sleepNano => exact hwrites.elim
  · cases h with
    | goToSleep | testNewData | copy | cutNewline | clearNewData | processInput | release =>
      exact hwrites.elim

/-- In every run the lines that are returned are the first of those that are
delivered, all of them but at most one, and no step writes the input buffer
while the main loop holds a line. -/
theorem no_line_is_lost_duplicated_or_torn (mInputBuffer mResultBuffer : List UInt8)
    (events : List Event) (s : InputState)
    (hrun : Run Step (.start mInputBuffer mResultBuffer) events s) :
    returned events <+: delivered events ∧
      (delivered events).length ≤ (returned events).length + 1 ∧
      ∀ e s', Step s e s' → e.writesInput → ¬ s.main.holdsLine := by
  have h := handOver_of_run hrun
  have hlength := length_inFlight_le s
  refine ⟨?_, ?_, ?_⟩
  · rw [h.lines]
    exact List.prefix_append _ _
  · rw [h.lines, List.length_append]
    omega
  · intro e s' hstep hwrites hholds
    have hidle := h.reader (h.main hholds)
    rw [filling_of_writes hstep hwrites] at hidle
    cases hidle

/-- The line "hi" is returned, and the reader has the "b" behind it in the buffer. -/
theorem a_second_line_waits_behind_the_first : ∃ events s,
    Run Step (.start [] []) events s ∧ delivered events = [[104, 105], [98]] ∧
      returned events = [[104, 105]] ∧ returned events <+: delivered events := by
  have hread := ((((((Run.nil : Run Step (.start [] []) [] _).snoc
    (Or.inl (.testExit rfl))).snoc (Or.inl (.testNewData rfl))).snoc
    (Or.inl (.clearBuffer rfl))).snoc
    (Or.inl (@ReaderStep.fgets _ [104, 105, 10] rfl ⟨by decide, by decide, by decide⟩))).snoc
    (Or.inl (.testLine rfl))).snoc (Or.inl (.wakeup rfl))
  have hget := (((((hread.snoc (Or.inl (.setNewData rfl))).snoc (Or.inr (.goToSleep rfl))).snoc
    (Or.inr (.testNewData rfl))).snoc (Or.inr (.copy rfl))).snoc (Or.inr (.cutNewline rfl))).snoc
    (Or.inr (.clearNewData rfl))
  have hnext := (((hget.snoc (Or.inl (.testExit rfl))).snoc (Or.inl (.testNewData rfl))).snoc
    (Or.inl (.clearBuffer rfl))).snoc
    (Or.inl (@ReaderStep.fgets _ [98] rfl ⟨by decide, by decide, by decide⟩))
  exact ⟨_, _, hnext, by decide, by decide, (no_line_is_lost_duplicated_or_torn [] [] _ _ hnext).1⟩

end bitcoinstats.inputline
