-- The sleep of the main loop in `WakupThread.cpp`: the mutex and the condition
-- variable of `wakeup` and `goToSleep`, under the hand-over of the lines.
import BitcoinStats.InputLine

open runs bitcoinstats.inputline

namespace bitcoinstats.wakeupthread

/-! ## The two calls, step by step -/

inductive Party where
  | reader
  | main
deriving DecidableEq

/-- What the reader thread does next in `wakeup`. -/
inductive Waking where
  | lock
  | setPendingWork
  | unlock
  | notify_one
  | returned
deriving DecidableEq

/-- What the main loop does next in `goToSleep`. -/
inductive Sleeping where
  | lock
  | testPendingWork
  | wait_for
  | awake (timeout : Bool)
  | takePendingWork
deriving DecidableEq

/-- The two parties with the places that they have in the two calls, and who
holds the mutex. -/
structure ThreadState where
  input : InputState
  waking : Waking
  sleeping : Sleeping
  mPendingWorkMutex : Option Party

def ThreadState.start (mInputBuffer mResultBuffer : List UInt8) : ThreadState :=
  { input := .start mInputBuffer mResultBuffer, waking := .lock, sleeping := .lock
    mPendingWorkMutex := none }

/-- Outside of the two calls the parties step as before. Inside, one step of
each is that on `mPendingWork` and the others have no event. The wait may end
at any time, with or without a notification, and the mutex is taken again. -/
inductive ThreadStep : ThreadState → Option Event → ThreadState → Prop
  | other {s : ThreadState} {e : Event} {input : InputState} (h : Step s.input e input)
      (outside : e ≠ .wakeup ∧ e ≠ .setNewData ∧ e ≠ .goToSleep) :
      ThreadStep s (some e) { s with input }
  | lockToWake {s : ThreadState} (at_ : s.input.reader = .wakeup) (inside : s.waking = .lock)
      (free : s.mPendingWorkMutex = none) :
      ThreadStep s none { s with waking := .setPendingWork, mPendingWorkMutex := some .reader }
  | setPendingWork {s : ThreadState} {input : InputState} (inside : s.waking = .setPendingWork)
      (h : Step s.input .wakeup input) :
      ThreadStep s (some .wakeup) { s with input, waking := .unlock }
  | unlock {s : ThreadState} (inside : s.waking = .unlock) :
      ThreadStep s none { s with waking := .notify_one, mPendingWorkMutex := none }
  | notify_one {s : ThreadState} (inside : s.waking = .notify_one) :
      ThreadStep s none
        { s with
          waking := .returned
          sleeping := if s.sleeping = .wait_for then .awake false else s.sleeping }
  | setNewData {s : ThreadState} {input : InputState} (inside : s.waking = .returned)
      (h : Step s.input .setNewData input) :
      ThreadStep s (some .setNewData) { s with input, waking := .lock }
  | lockToSleep {s : ThreadState} (at_ : s.input.main = .goToSleep) (inside : s.sleeping = .lock)
      (free : s.mPendingWorkMutex = none) :
      ThreadStep s none { s with sleeping := .testPendingWork, mPendingWorkMutex := some .main }
  | testPendingWork {s : ThreadState} (inside : s.sleeping = .testPendingWork)
      (work : s.input.mPendingWork = true) :
      ThreadStep s none { s with sleeping := .takePendingWork }
  | wait_for {s : ThreadState} (inside : s.sleeping = .testPendingWork)
      (noWork : s.input.mPendingWork = false) :
      ThreadStep s none { s with sleeping := .wait_for, mPendingWorkMutex := none }
  | awake {s : ThreadState} (inside : s.sleeping = .wait_for) (timeout : Bool) :
      ThreadStep s none { s with sleeping := .awake timeout }
  | lockAgain {s : ThreadState} {timeout : Bool} (inside : s.sleeping = .awake timeout)
      (free : s.mPendingWorkMutex = none) :
      ThreadStep s none
        { s with
          sleeping := if timeout then .takePendingWork else .testPendingWork
          mPendingWorkMutex := some .main }
  | takePendingWork {s : ThreadState} {input : InputState} (inside : s.sleeping = .takePendingWork)
      (h : Step s.input .goToSleep input) :
      ThreadStep s (some .goToSleep) { s with input, sleeping := .lock, mPendingWorkMutex := none }

/-! ## The claim about one state -/

/-- The reader has still to notify the main loop. -/
def Waking.notifies : Waking → Prop
  | .unlock => True
  | .notify_one => True
  | _ => False

/-- While the main loop waits, it is without a line, or about to be woken. -/
structure NoWakeupLost (s : ThreadState) : Prop where
  pending : s.sleeping = .wait_for → s.input.mPendingWork = false →
    s.input.mHaveNewData = false ∨ s.input.reader = .wakeup
  woken : s.sleeping = .wait_for → s.input.mHaveNewData = true → s.waking.notifies

/-- The main loop does not look for a line between the call of `wakeup` for it
and the store to `mHaveNewData`, once it has taken the pending work. -/
def TestsInTime (s : ThreadState) (e : Option Event) : Prop :=
  e = some .mainTestNewData → s.input.reader = .setNewData → s.input.mPendingWork = true

/-! ## The hand-over under the two calls -/

theorem threadStep_input {s s' : ThreadState} {e : Option Event} (h : ThreadStep s e s') :
    (e = none ∧ s'.input = s.input) ∨ ∃ e', e = some e' ∧ Step s.input e' s'.input := by
  cases h with
  | other h | setPendingWork _ h | setNewData _ h | takePendingWork _ h => exact Or.inr ⟨_, rfl, h⟩
  | lockToWake | unlock | notify_one | lockToSleep | testPendingWork | wait_for | awake | lockAgain =>
    exact Or.inl ⟨rfl, rfl⟩

/-- A run of the two parties is a run of the hand-over. -/
theorem run_input {init s : ThreadState} {events : List (Option Event)}
    (h : Run ThreadStep init events s) : Run Step init.input (events.filterMap id) s.input :=
  h.simulates ThreadState.input id (fun _ _ _ hstep => threadStep_input hstep)

/-- The main loop has taken the pending work, and is not done with the line. -/
def Main.taken : Main → Prop
  | .testNewData => True
  | .copy => True
  | .cutNewline => True
  | .clearNewData => True
  | _ => False

/-- A line whose wake-up is gone is one that the main loop is about to see. -/
def OnItsWay (s : InputState) : Prop :=
  s.mPendingWork = false → (s.reader = .setNewData ∨ s.mHaveNewData = true) → Main.taken s.main

theorem onItsWay_reader {s s' : InputState} {e : Event} (h : OnItsWay s) (hstep : ReaderStep s e s') :
    OnItsWay s' := by
  intro hpending hline
  cases hstep with
  | testExit hat =>
    refine h hpending (Or.inr ?_)
    rcases hline with hreader | hset
    · by_cases hexit : s.mExit
      · simp [hexit] at hreader
      · simp [hexit] at hreader
    · exact hset
  | testNewData hat =>
    refine h hpending (Or.inr ?_)
    rcases hline with hreader | hset
    · by_cases hnew : s.mHaveNewData
      · simp [hnew] at hreader
      · simp [hnew] at hreader
    · exact hset
  | clearBuffer | fgets | fgetsFails | sleepNano =>
    refine h hpending (Or.inr ?_)
    rcases hline with hreader | hset
    · cases hreader
    · exact hset
  | @testLine ret hat =>
    refine h hpending (Or.inr ?_)
    rcases hline with hreader | hset
    · by_cases hgiven : ret ∧ cString s.mInputBuffer ≠ []
      · rw [if_pos hgiven] at hreader
        cases hreader
      · rw [if_neg hgiven] at hreader
        by_cases hret : ret
        · simp [hret] at hreader
        · simp [hret] at hreader
    · exact hset
  | wakeup hat => cases hpending
  | setNewData hat => exact h hpending (Or.inl hat)

theorem onItsWay_main {events : List Event} {s s' : InputState} {e : Event} (hinv : HandOver events s)
    (h : OnItsWay s) (hstep : MainStep s e s')
    (htests : e = .mainTestNewData → s.reader = .setNewData → s.mPendingWork = true) :
    OnItsWay s' := by
  intro hpending hline
  cases hstep with
  | goToSleep hat => trivial
  | testNewData hat =>
    by_cases hset : s.mHaveNewData = true
    · simp only [if_pos hset]
      trivial
    · rcases hline with hreader | hset'
      · have hwork := htests rfl hreader
        rw [hpending] at hwork
        cases hwork
      · exact absurd hset' hset
  | copy hat => trivial
  | cutNewline hat => trivial
  | clearNewData hat =>
    -- the flag was set, so the reader is not on its way to set it
    have hset : s.mHaveNewData = true := hinv.main (by rw [hat]; trivial)
    rcases hline with hreader | hset'
    · have hidle := hinv.reader hset
      rw [show s.reader = .setNewData from hreader] at hidle
      cases hidle
    · cases hset'
  | processInput hat =>
    have htaken := h hpending hline
    rw [hat] at htaken
    exact htaken.elim
  | release hat =>
    have htaken := h hpending hline
    rw [hat] at htaken
    exact htaken.elim

theorem onItsWay_of_run {mInputBuffer mResultBuffer : List UInt8} {events : List (Option Event)}
    {s : ThreadState}
    (h : Run (Meeting TestsInTime ThreadStep) (.start mInputBuffer mResultBuffer) events s) :
    OnItsWay s.input := by
  refine h.invariant (fun _ s => OnItsWay s.input) (fun hpending => by cases hpending) ?_
  intro events s e s' hrun hinv hlast
  obtain ⟨htests, hstep⟩ := hlast
  have hand := handOver_of_run (run_input (hrun.mono fun _ _ _ hmeets => hmeets.2))
  rcases threadStep_input hstep with ⟨-, hsame⟩ | ⟨e', rfl, hinput⟩
  · rw [hsame]
    exact hinv
  · rcases hinput with hreader | hmain
    · exact onItsWay_reader hinv hreader
    · exact onItsWay_main hand hinv hmain (fun he => htests (by rw [he]))

/-! ## The mutex -/

theorem step_wakeup {s s' : InputState} (h : Step s .wakeup s') :
    s.reader = .wakeup ∧ s' = { s with reader := .setNewData, mPendingWork := true } := by
  rcases h with h | h
  · cases h with
    | wakeup hat => exact ⟨hat, rfl⟩
  · cases h

theorem step_setNewData {s s' : InputState} (h : Step s .setNewData s') :
    s.reader = .setNewData ∧ s' = { s with reader := .testExit, mHaveNewData := true } := by
  rcases h with h | h
  · cases h with
    | setNewData hat => exact ⟨hat, rfl⟩
  · cases h

theorem step_goToSleep {s s' : InputState} (h : Step s .goToSleep s') :
    s.main = .goToSleep ∧ s' = { s with main := .testNewData, mPendingWork := false } := by
  rcases h with h | h
  · cases h
  · cases h with
    | goToSleep hat => exact ⟨hat, rfl⟩

/-- No other step touches the pending work, or moves a party in or out of the
two calls but to the start of one. -/
theorem step_other {s s' : InputState} {e : Event} (h : Step s e s')
    (outside : e ≠ .wakeup ∧ e ≠ .setNewData ∧ e ≠ .goToSleep) :
    s'.mPendingWork = s.mPendingWork ∧
      (s'.reader = s.reader ∨
        s.reader ≠ .wakeup ∧ s.reader ≠ .setNewData ∧ s'.reader ≠ .setNewData) ∧
      (s'.main = s.main ∨ s.main ≠ .goToSleep) := by
  obtain ⟨hwakeup, hset, hsleep⟩ := outside
  rcases h with h | h
  · refine ⟨?_, Or.inr ?_, Or.inl ?_⟩
    · cases h with
      | wakeup => exact absurd rfl hwakeup
      | testExit | testNewData | clearBuffer | fgets | fgetsFails | testLine | setNewData | sleepNano =>
        rfl
    · cases h with
      | wakeup => exact absurd rfl hwakeup
      | setNewData => exact absurd rfl hset
      | testExit hat =>
        by_cases hexit : s.mExit
        · simp [hat, hexit]
        · simp [hat, hexit]
      | testNewData hat =>
        by_cases hnew : s.mHaveNewData
        · simp [hat, hnew]
        · simp [hat, hnew]
      | clearBuffer hat | fgets hat | fgetsFails hat | sleepNano hat => simp [hat]
      | @testLine ret hat =>
        by_cases hgiven : ret ∧ cString s.mInputBuffer ≠ []
        · simp [hat, hgiven]
        · rw [if_neg hgiven]
          by_cases hret : ret
          · simp [hat, hret]
          · simp [hat, hret]
    · cases h with
      | testExit | testNewData | clearBuffer | fgets | fgetsFails | testLine | wakeup | setNewData
      | sleepNano => rfl
  · refine ⟨?_, Or.inl ?_, Or.inr ?_⟩
    · cases h with
      | goToSleep => exact absurd rfl hsleep
      | testNewData | copy | cutNewline | clearNewData | processInput | release => rfl
    · cases h with
      | goToSleep | testNewData | copy | cutNewline | clearNewData | processInput | release => rfl
    · cases h with
      | goToSleep => exact absurd rfl hsleep
      | testNewData hat | copy hat | cutNewline hat | clearNewData hat | processInput hat
      | release hat => simp [hat]

/-- The places of the parties in the two calls agree with those outside, the
mutex is held by the one that is inside, and a party that waits although there
is work is one that the reader has still to notify. -/
structure Locked (s : ThreadState) : Prop where
  outside : s.waking = .lock → s.input.reader ≠ .setNewData
  setting : s.waking = .setPendingWork → s.input.reader = .wakeup
  set : s.waking = .unlock ∨ s.waking = .notify_one ∨ s.waking = .returned →
    s.input.reader = .setNewData
  asleep : s.sleeping ≠ .lock → s.input.main = .goToSleep
  byReader : s.mPendingWorkMutex = some .reader ↔ s.waking = .setPendingWork ∨ s.waking = .unlock
  byMain : s.mPendingWorkMutex = some .main ↔
    s.sleeping = .testPendingWork ∨ s.sleeping = .takePendingWork
  work : s.waking = .unlock → s.input.mPendingWork = true
  notified : s.sleeping = .wait_for → s.input.mPendingWork = true →
    s.waking = .unlock ∨ s.waking = .notify_one

theorem locked_start (mInputBuffer mResultBuffer : List UInt8) :
    Locked (.start mInputBuffer mResultBuffer) := by
  constructor <;> simp [ThreadState.start, InputState.start]

theorem locked_other {s : ThreadState} {e : Event} {input : InputState} (h : Locked s)
    (hstep : Step s.input e input) (outside : e ≠ .wakeup ∧ e ≠ .setNewData ∧ e ≠ .goToSleep) :
    Locked { s with input } := by
  obtain ⟨hpending, hreader, hmain⟩ := step_other hstep outside
  refine ⟨?_, ?_, ?_, ?_, h.byReader, h.byMain, ?_, ?_⟩
  · intro hwaking
    rcases hreader with hsame | ⟨-, -, hnot⟩
    · rw [hsame]
      exact h.outside hwaking
    · exact hnot
  · intro hwaking
    rcases hreader with hsame | ⟨hnot, -, -⟩
    · rw [hsame]
      exact h.setting hwaking
    · exact absurd (h.setting hwaking) hnot
  · intro hwaking
    rcases hreader with hsame | ⟨-, hnot, -⟩
    · rw [hsame]
      exact h.set hwaking
    · exact absurd (h.set hwaking) hnot
  · intro hsleeping
    rcases hmain with hsame | hnot
    · rw [hsame]
      exact h.asleep hsleeping
    · exact absurd (h.asleep hsleeping) hnot
  · rw [hpending]
    exact h.work
  · rw [hpending]
    exact h.notified

theorem locked_setPendingWork {s : ThreadState} {input : InputState} (h : Locked s)
    (hinside : s.waking = .setPendingWork) (hinput : Step s.input .wakeup input) :
    Locked { s with input, waking := .unlock } := by
  obtain ⟨houtside, hsetting, hset, hasleep, hreader, hmain, hwork, hnotified⟩ := h
  obtain ⟨hat, rfl⟩ := step_wakeup hinput
  constructor <;> grind -linarith

theorem locked_setNewData {s : ThreadState} {input : InputState} (h : Locked s)
    (hinside : s.waking = .returned) (hinput : Step s.input .setNewData input) :
    Locked { s with input, waking := .lock } := by
  obtain ⟨houtside, hsetting, hset, hasleep, hreader, hmain, hwork, hnotified⟩ := h
  obtain ⟨hat, rfl⟩ := step_setNewData hinput
  constructor <;> grind -linarith

theorem locked_takePendingWork {s : ThreadState} {input : InputState} (h : Locked s)
    (hinside : s.sleeping = .takePendingWork) (hinput : Step s.input .goToSleep input) :
    Locked { s with input, sleeping := .lock, mPendingWorkMutex := none } := by
  obtain ⟨houtside, hsetting, hset, hasleep, hreader, hmain, hwork, hnotified⟩ := h
  obtain ⟨hat, rfl⟩ := step_goToSleep hinput
  constructor <;> grind -linarith

theorem locked_lockAgain {s : ThreadState} {timeout : Bool} (h : Locked s)
    (hinside : s.sleeping = .awake timeout) (hfree : s.mPendingWorkMutex = none) :
    Locked { s with
      sleeping := if timeout then .takePendingWork else .testPendingWork
      mPendingWorkMutex := some .main } := by
  obtain ⟨houtside, hsetting, hset, hasleep, hreader, hmain, hwork, hnotified⟩ := h
  cases timeout with
  | true => constructor <;> grind -linarith
  | false => constructor <;> grind -linarith

theorem locked_notify_one {s : ThreadState} (h : Locked s) (hinside : s.waking = .notify_one) :
    Locked { s with
      waking := .returned
      sleeping := if s.sleeping = .wait_for then .awake false else s.sleeping } := by
  obtain ⟨houtside, hsetting, hset, hasleep, hreader, hmain, hwork, hnotified⟩ := h
  constructor <;> grind -linarith

theorem locked_step {s s' : ThreadState} {e : Option Event} (h : Locked s)
    (hstep : ThreadStep s e s') : Locked s' := by
  cases hstep with
  | other hinput outside => exact locked_other h hinput outside
  | setPendingWork hinside hinput => exact locked_setPendingWork h hinside hinput
  | setNewData hinside hinput => exact locked_setNewData h hinside hinput
  | takePendingWork hinside hinput => exact locked_takePendingWork h hinside hinput
  | notify_one hinside => exact locked_notify_one h hinside
  | lockAgain hinside hfree => exact locked_lockAgain h hinside hfree
  | lockToWake hat hinside hfree =>
    obtain ⟨houtside, hsetting, hset, hasleep, hreader, hmain, hwork, hnotified⟩ := h
    constructor <;> grind -linarith
  | unlock hinside =>
    obtain ⟨houtside, hsetting, hset, hasleep, hreader, hmain, hwork, hnotified⟩ := h
    constructor <;> grind -linarith
  | lockToSleep hat hinside hfree =>
    obtain ⟨houtside, hsetting, hset, hasleep, hreader, hmain, hwork, hnotified⟩ := h
    constructor <;> grind -linarith
  | testPendingWork hinside hpending | wait_for hinside hpending =>
    obtain ⟨houtside, hsetting, hset, hasleep, hreader, hmain, hwork, hnotified⟩ := h
    constructor <;> grind -linarith
  | awake hinside timeout =>
    obtain ⟨houtside, hsetting, hset, hasleep, hreader, hmain, hwork, hnotified⟩ := h
    constructor <;> grind -linarith

theorem locked_of_run {mInputBuffer mResultBuffer : List UInt8} {events : List (Option Event)}
    {s : ThreadState} (h : Run ThreadStep (.start mInputBuffer mResultBuffer) events s) : Locked s :=
  h.invariant (fun _ s => Locked s) (locked_start _ _) (fun _ _ _ _ _ hs hstep => locked_step hs hstep)

/-! ## Wake-ups -/

theorem noWakeupLost_of_onItsWay {s : ThreadState} (h : OnItsWay s.input) (hlocked : Locked s) :
    NoWakeupLost s := by
  have hmain : s.sleeping = .wait_for → ¬ Main.taken s.input.main := by
    intro hwait
    have hat := hlocked.asleep (by rw [hwait]; exact Sleeping.noConfusion)
    rw [hat]
    exact not_false
  refine ⟨?_, ?_⟩
  · intro hwait hpending
    left
    by_contra hset
    exact hmain hwait (h hpending (Or.inr (by simpa using hset)))
  · intro hwait hset
    have hpending : s.input.mPendingWork = true := by
      by_contra hclear
      exact hmain hwait (h (by simpa using hclear) (Or.inr hset))
    rcases hlocked.notified hwait hpending with hwaking | hwaking
    · rw [hwaking]
      trivial
    · rw [hwaking]
      trivial

/-- The pending work is gone before the line is handed over: `wakeup` has let
the mutex go. -/
theorem Locked.handingOver {s : ThreadState} (h : Locked s) (hreader : s.input.reader = .setNewData)
    (hpending : s.input.mPendingWork = false) : s.waking = .notify_one ∨ s.waking = .returned := by
  cases hwaking : s.waking with
  | lock => exact absurd hreader (h.outside hwaking)
  | setPendingWork =>
    rw [h.setting hwaking] at hreader
    cases hreader
  | unlock =>
    rw [h.work hwaking] at hpending
    cases hpending
  | notify_one => exact Or.inl rfl
  | returned => exact Or.inr rfl

theorem Locked.free {s : ThreadState} (h : Locked s)
    (hwaking : s.waking = .notify_one ∨ s.waking = .returned) (hsleeping : s.sleeping = .lock) :
    s.mPendingWorkMutex = none := by
  cases hmutex : s.mPendingWorkMutex with
  | none => rfl
  | some party =>
    cases party with
    | reader =>
      have hheld := h.byReader.mp hmutex
      rcases hwaking with hwaking | hwaking
      · simp [hwaking] at hheld
      · simp [hwaking] at hheld
    | main =>
      have hheld := h.byMain.mp hmutex
      simp [hsleeping] at hheld

theorem step_mainTestNewData {s s' : InputState} (h : Step s .mainTestNewData s')
    (hclear : s.mHaveNewData = false) :
    s.main = .testNewData ∧ s' = { s with main := .goToSleep } := by
  rcases h with h | h
  · cases h
  · cases h with
    | testNewData hat => exact ⟨hat, by rw [hclear]; rfl⟩

/-- From a state in which the reader is about to hand over a line whose wake-up
is gone, while the main loop goes to sleep. -/
theorem falls_asleep {s : ThreadState} (hwaking : s.waking = .returned) (hsleeping : s.sleeping = .lock)
    (hfree : s.mPendingWorkMutex = none) (hreader : s.input.reader = .setNewData)
    (hmain : s.input.main = .goToSleep) (hpending : s.input.mPendingWork = false) :
    ∃ events s', Run ThreadStep s events s' ∧ ¬ NoWakeupLost s' := by
  have hset := ThreadStep.setNewData hwaking (Or.inl (.setNewData hreader))
  have hrun := ((Run.nil.snoc hset).snoc (.lockToSleep hmain hsleeping hfree)).snoc
    (.wait_for rfl hpending)
  refine ⟨_, _, hrun, ?_⟩
  rintro ⟨hlost, -⟩
  rcases hlost rfl hpending with hno | hno
  · cases hno
  · cases hno

/-- A look for the line that comes too early: the main loop can now fall asleep
on the line that the reader is about to hand over. -/
theorem wakeup_lost {s s' : ThreadState} (hlocked : Locked s) (hclear : s.input.mHaveNewData = false)
    (hstep : ThreadStep s (some .mainTestNewData) s') (hreader : s.input.reader = .setNewData)
    (hpending : s.input.mPendingWork = false) :
    ∃ events s'', Run ThreadStep s' events s'' ∧ ¬ NoWakeupLost s'' := by
  have hwaking := hlocked.handingOver hreader hpending
  cases hstep with
  | other hinput outside =>
    obtain ⟨hmain, rfl⟩ := step_mainTestNewData hinput hclear
    have hlock : s.sleeping = .lock := by
      by_contra hno
      rw [hlocked.asleep hno] at hmain
      cases hmain
    have hfree := hlocked.free hwaking hlock
    rcases hwaking with hwaking | hwaking
    · -- the notification finds nobody
      have hnotify := ThreadStep.notify_one
        (s := { s with input := { s.input with main := .goToSleep } }) hwaking
      have hkept : (if s.sleeping = .wait_for then Sleeping.awake false else s.sleeping) = .lock := by
        rw [hlock]
        rfl
      obtain ⟨events, s'', hrun, hlost⟩ := falls_asleep
        (s := { s with
          input := { s.input with main := .goToSleep }
          waking := .returned
          sleeping := if s.sleeping = .wait_for then .awake false else s.sleeping })
        rfl hkept hfree hreader rfl hpending
      exact ⟨_, s'', (Run.nil.snoc hnotify).append hrun, hlost⟩
    · exact falls_asleep (s := { s with input := { s.input with main := .goToSleep } }) hwaking hlock
        hfree hreader rfl hpending

/-- In the runs in which the main loop always looks for the line in time, no
wake-up is lost, and after any look that comes too early one can be. -/
theorem no_wakeup_is_lost_exactly_when_the_main_loop_looks_in_time
    (mInputBuffer mResultBuffer : List UInt8) :
    (∀ events s, Run (Meeting TestsInTime ThreadStep) (.start mInputBuffer mResultBuffer) events s →
      NoWakeupLost s) ∧
    ∀ events s e s', Run ThreadStep (.start mInputBuffer mResultBuffer) events s →
      ThreadStep s e s' → ¬ TestsInTime s e →
        ∃ events' s'', Run ThreadStep s' events' s'' ∧ ¬ NoWakeupLost s'' := by
  refine ⟨?_, ?_⟩
  · intro events s hrun
    have hlocked := locked_of_run (hrun.mono fun _ _ _ hmeets => hmeets.2)
    exact noWakeupLost_of_onItsWay (onItsWay_of_run hrun) hlocked
  · intro events s e s' hrun hstep hearly
    unfold TestsInTime at hearly
    rw [Classical.not_imp, Classical.not_imp] at hearly
    obtain ⟨rfl, hreader, hpending⟩ := hearly
    have hinv := handOver_of_run (run_input hrun)
    exact wakeup_lost (locked_of_run hrun) (hinv.clear (by rw [hreader]; rfl)) hstep hreader
      (by simpa using hpending)

/-! ## A line, and a main loop that looks for it -/

/-- The reader up to the call of `wakeup` for the line "b". -/
theorem reader_has_line : ∃ events s, Run (Meeting TestsInTime ThreadStep) (.start [] []) events s ∧
    s.input.reader = .wakeup ∧ s.input.main = .goToSleep ∧ s.input.mPendingWork = true ∧
    s.input.mHaveNewData = false ∧ cString s.input.mInputBuffer = [98, 10] ∧ s.waking = .lock ∧
    s.sleeping = .lock ∧ s.mPendingWorkMutex = none := by
  have hread := ((((Run.nil : Run (Meeting TestsInTime ThreadStep) (.start [] []) [] _).snoc
    ⟨by simp [TestsInTime], .other (Or.inl (.testExit rfl)) (by simp)⟩).snoc
    ⟨by simp [TestsInTime], .other (Or.inl (.testNewData rfl)) (by simp)⟩).snoc
    ⟨by simp [TestsInTime], .other (Or.inl (.clearBuffer rfl)) (by simp)⟩).snoc
    ⟨by simp [TestsInTime], .other (Or.inl (@ReaderStep.fgets _ [98, 10] rfl
      ⟨by decide, by decide, by decide⟩)) (by simp)⟩
  have hline := hread.snoc ⟨by simp [TestsInTime], .other (Or.inl (.testLine rfl)) (by simp)⟩
  exact ⟨_, _, hline, by decide, by decide, by decide, by decide, by decide, by decide, by decide,
    by decide⟩

/-- The main loop waits, and no line is there. -/
theorem the_main_loop_waits_for_a_line : ∃ events s,
    Run (Meeting TestsInTime ThreadStep) (.start [] []) events s ∧ s.sleeping = .wait_for ∧
      s.input.mPendingWork = false ∧ NoWakeupLost s := by
  have hrun := ((((((Run.nil : Run (Meeting TestsInTime ThreadStep) (.start [] []) [] _).snoc
    ⟨by simp [TestsInTime], .lockToSleep rfl rfl rfl⟩).snoc
    ⟨by simp [TestsInTime], .testPendingWork rfl rfl⟩).snoc
    ⟨by simp [TestsInTime], .takePendingWork rfl (Or.inr (.goToSleep rfl))⟩).snoc
    ⟨by simp [TestsInTime, ThreadState.start, InputState.start],
      .other (Or.inr (.testNewData rfl)) (by simp)⟩).snoc
    ⟨by simp [TestsInTime], .lockToSleep rfl rfl rfl⟩).snoc
    ⟨by simp [TestsInTime], .wait_for rfl rfl⟩
  exact ⟨_, _, hrun, rfl, rfl,
    (no_wakeup_is_lost_exactly_when_the_main_loop_looks_in_time [] []).1 _ _ hrun⟩

/-- The main loop takes the pending work between the call of `wakeup` and the
store to the flag, sees no line and falls asleep on one. -/
theorem the_main_loop_sleeps_on_a_line : ∃ events s, Run ThreadStep (.start [] []) events s ∧
    s.sleeping = .wait_for ∧ s.input.mPendingWork = false ∧ s.input.mHaveNewData = true ∧
      cString s.input.mInputBuffer = [98, 10] ∧ s.input.reader ≠ .wakeup := by
  obtain ⟨events, s, hrun, hreader, hmain, hwork, hclear, hline, hwaking, hsleeping, hfree⟩ :=
    reader_has_line
  have hread := hrun.mono fun _ _ _ hmeets => hmeets.2
  have hwoken := (((hread.snoc (.lockToWake hreader hwaking hfree)).snoc
    (.setPendingWork rfl (Or.inl (.wakeup hreader)))).snoc (.unlock rfl)).snoc (.notify_one rfl)
  have hkept : (if s.sleeping = .wait_for then Sleeping.awake false else s.sleeping) = .lock := by
    rw [hsleeping]
    rfl
  have htaken := ((hwoken.snoc (.lockToSleep hmain hkept rfl)).snoc (.testPendingWork rfl rfl)).snoc
    (.takePendingWork rfl (Or.inr (.goToSleep hmain)))
  have hlooked := htaken.snoc (.other (Or.inr (.testNewData rfl)) (by simp))
  have hset := hlooked.snoc (.setNewData rfl (Or.inl (.setNewData rfl)))
  have hasleep := (hset.snoc (.lockToSleep (by rw [hclear]; rfl) rfl rfl)).snoc (.wait_for rfl rfl)
  exact ⟨_, _, hasleep, rfl, rfl, rfl, hline, by simp⟩

end bitcoinstats.wakeupthread
