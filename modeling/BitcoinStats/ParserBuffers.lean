-- Who owns the buffers of the parser: the file data, the string buffer and the array of
-- the arguments, over sequences of calls up to the destructor.
import BitcoinStats.Library.Blocks

open blocks

namespace bitcoinstats.inparser

/-! ## The calls

A call gives `none` when it frees or uses a block that is not live. -/

structure ParserBuffers where
  heap : Heap
  mMyAlloc : Bool
  mData : Pointer
  mStringBuffer : Block
  mStringLen : Nat
  mArgv : Block

def DEFAULT_STRING_BUFFER_SIZE : Nat := 1024 * 4

/-- What `SetFile` finds: no file, one without bytes, or one that can be read or not. -/
inductive File where
  | missing
  | empty
  | readable
  | unreadable
deriving DecidableEq

inductive ParserCall where
  | SetFile (file : File)
  | SetSourceData
  | Parse (dataLen growths : Nat)

/-- `if (mMyAlloc) ::free(mData);` -/
def ParserBuffers.freeData (s : ParserBuffers) : Option ParserBuffers :=
  if s.mMyAlloc then do
    let heap ← s.heap.freePointer s.mData
    return { s with heap }
  else some s

def ParserBuffers.SetFile (alloc : Allocator) (file : File) (s : ParserBuffers) :
    Option ParserBuffers := do
  let s ← s.freeData
  let s := { s with mData := .null, mMyAlloc := false }
  match file with
  | .missing | .empty => return s
  | .readable =>
    let (b, heap) := s.heap.malloc alloc
    let heap ← heap.use b
    return { s with heap, mData := .block b, mMyAlloc := true }
  | .unreadable =>
    let (b, heap) := s.heap.malloc alloc
    let heap ← heap.use b
    let heap ← heap.free b
    return { s with heap }

/-- Both overloads of `SetSourceData`. -/
def ParserBuffers.SetSourceData (s : ParserBuffers) : ParserBuffers :=
  { s with mData := .foreign, mMyAlloc := false }

/-- The string buffer, grown if the data does not fit. -/
def ParserBuffers.growString (alloc : Allocator) (dataLen : Nat) (s : ParserBuffers) :
    Option ParserBuffers :=
  if s.mStringLen < dataLen + 1 then do
    let heap ← s.heap.free s.mStringBuffer
    let (b, heap) := heap.malloc alloc
    return { s with heap, mStringLen := (dataLen + 1) * 2, mStringBuffer := b }
  else some s

def ParserBuffers.setParseData (alloc : Allocator) (dataLen : Nat) (s : ParserBuffers) :
    Option ParserBuffers := do
  let s ← s.growString alloc dataLen
  let s ← s.freeData
  let heap ← s.heap.use s.mStringBuffer
  return { s with heap, mData := .block s.mStringBuffer }

def ParserBuffers.growArgs (alloc : Allocator) (s : ParserBuffers) : Option ParserBuffers := do
  let (b, heap) := s.heap.malloc alloc
  let heap ← heap.use b
  let heap ← heap.use s.mArgv
  let heap ← heap.free s.mArgv
  return { s with heap, mArgv := b }

/-- The lines are read and stomped in `mData`, and their arguments stored in `mArgv`,
which grows as often as the lines need it. -/
def ParserBuffers.parseLines (alloc : Allocator) : Nat → ParserBuffers → Option ParserBuffers
  | 0, s => do
    let heap ← s.heap.usePointer s.mData
    let heap ← heap.use s.mArgv
    return { s with heap }
  | growths + 1, s => do
    let heap ← s.heap.usePointer s.mData
    let heap ← heap.use s.mArgv
    let s ← growArgs alloc { s with heap }
    parseLines alloc growths s

/-- `Parse(str, callback)`, which does nothing for the empty string. -/
def ParserBuffers.Parse (alloc : Allocator) (dataLen growths : Nat) (s : ParserBuffers) :
    Option ParserBuffers :=
  if dataLen = 0 then some s
  else do
    let s ← s.setParseData alloc dataLen
    parseLines alloc growths s

def ParserBuffers.call (alloc : Allocator) (s : ParserBuffers) :
    ParserCall → Option ParserBuffers
  | .SetFile file => s.SetFile alloc file
  | .SetSourceData => some s.SetSourceData
  | .Parse dataLen growths => s.Parse alloc dataLen growths

/-- The destructor. -/
def ParserBuffers.destroy (s : ParserBuffers) : Option Heap := do
  let heap ← s.heap.free s.mStringBuffer
  let heap ← heap.free s.mArgv
  if s.mMyAlloc then heap.freePointer s.mData else return heap

/-- `Init`, in a heap of which some blocks are in use. -/
def ParserBuffers.Init (alloc : Allocator) (heap : Heap) : ParserBuffers :=
  let (mArgv, heap) := heap.malloc alloc
  let (mStringBuffer, heap) := heap.malloc alloc
  { heap, mMyAlloc := false, mData := .null, mStringBuffer
    mStringLen := DEFAULT_STRING_BUFFER_SIZE, mArgv }

/-- The three constructors: `Init`, and a first call or none. -/
inductive Constructor where
  | plain
  | data
  | file (found : File)

def Constructor.calls : Constructor → List ParserCall
  | .plain => []
  | .data => [.SetSourceData]
  | .file found => [.SetFile found]

def callAll (alloc : Allocator) (s : ParserBuffers) (calls : List ParserCall) :
    Option ParserBuffers := calls.foldlM (ParserBuffers.call alloc) s

/-- The parser after a constructor and the calls. -/
def parserAfter (alloc : Allocator) (heap : Heap) (constructed : Constructor)
    (calls : List ParserCall) : Option ParserBuffers :=
  callAll alloc (.Init alloc heap) (constructed.calls ++ calls)

/-! ## Ownership -/

/-- The string buffer is live, and what the parser is to free is a live block and
another one. -/
def Owned (s : ParserBuffers) : Prop :=
  s.mStringBuffer ∈ s.heap.live ∧
    (s.mMyAlloc = true →
      ∃ b, s.mData = .block b ∧ b ∈ s.heap.live ∧ b ≠ s.mStringBuffer)

/-- After each of the calls the buffers are owned, and neither the calls nor a
destructor behind them fail. -/
def KeepsOwnership (alloc : Allocator) (heap : Heap) (constructed : Constructor)
    (calls : List ParserCall) : Prop :=
  ∀ before, before <+: calls → ∃ s heap', parserAfter alloc heap constructed before = some s ∧
    Owned s ∧ s.destroy = some heap'

/-- Whether the last data were those of a file that was read. -/
def fileOwned (owned : Bool) : ParserCall → Bool
  | .SetFile file => file = .readable
  | .SetSourceData => false
  | .Parse _ _ => owned

def ownsFile (constructed : Constructor) (calls : List ParserCall) : Bool :=
  (constructed.calls ++ calls).foldl fileOwned false

/-- No string is parsed while the parser has the data of a file. -/
def NoParseOverFile (constructed : Constructor) (calls : List ParserCall) : Prop :=
  ∀ before dataLen growths, before ++ [.Parse dataLen growths] <+: calls → 0 < dataLen →
    ownsFile constructed before = false

/-- The buffers between two calls, with data of a file or without. -/
structure Buffers (s : ParserBuffers) (owned : Bool) : Prop where
  stringBuffer : s.mStringBuffer ∈ s.heap.live
  argv : s.mArgv ∈ s.heap.live
  distinct : s.mArgv ≠ s.mStringBuffer
  owner : s.mMyAlloc = owned
  data : owned = true →
    ∃ b, s.mData = .block b ∧ b ∈ s.heap.live ∧ b ≠ s.mStringBuffer ∧ b ≠ s.mArgv

variable {alloc : Allocator} {s s' : ParserBuffers} {owned : Bool}

theorem Buffers.isOwned (h : Buffers s owned) : Owned s := by
  refine ⟨h.stringBuffer, ?_⟩
  rw [h.owner]
  intro howned
  obtain ⟨b, hdata, hlive, hne, -⟩ := h.data howned
  exact ⟨b, hdata, hlive, hne⟩

theorem Buffers.destroy (h : Buffers s owned) : ∃ heap, s.destroy = some heap := by
  have howner := h.owner
  unfold ParserBuffers.destroy
  simp only [Option.bind_eq_bind]
  rw [free_live h.stringBuffer, Option.bind_some,
    free_live (Finset.mem_erase_of_ne_of_mem h.distinct h.argv), Option.bind_some]
  cases owned with
  | false =>
    rw [if_neg (by simp [howner])]
    exact ⟨_, rfl⟩
  | true =>
    obtain ⟨b, hdata, hlive, hne, hargv⟩ := h.data rfl
    rw [if_pos howner, hdata]
    exact ⟨_, free_live (Finset.mem_erase_of_ne_of_mem hargv
      (Finset.mem_erase_of_ne_of_mem hne hlive))⟩

/-- The data of a file are given back; the other buffers stay. -/
theorem Buffers.freeData (h : Buffers s owned) :
    ∃ heap, s.freeData = some { s with heap } ∧ s.mStringBuffer ∈ heap.live ∧
      s.mArgv ∈ heap.live := by
  have howner := h.owner
  unfold ParserBuffers.freeData
  cases owned with
  | false =>
    rw [if_neg (by simp [howner])]
    exact ⟨s.heap, rfl, h.stringBuffer, h.argv⟩
  | true =>
    obtain ⟨b, hdata, hlive, hne, hargv⟩ := h.data rfl
    simp only [Option.bind_eq_bind]
    rw [if_pos howner, hdata, Heap.freePointer, free_live hlive, Option.bind_some]
    refine ⟨{ s.heap with live := s.heap.live.erase b }, ?_,
      Finset.mem_erase_of_ne_of_mem (Ne.symm hne) h.stringBuffer,
      Finset.mem_erase_of_ne_of_mem (Ne.symm hargv) h.argv⟩
    rw [← hdata]
    rfl

theorem setFile_buffers (alloc : Allocator) (h : Buffers s owned) (file : File) :
    ∃ s', s.SetFile alloc file = some s' ∧ Buffers s' (file = .readable) := by
  obtain ⟨heap, hfree, hstring, hargv⟩ := h.freeData
  unfold ParserBuffers.SetFile
  simp only [Option.bind_eq_bind]
  rw [hfree, Option.bind_some]
  cases file with
  | missing | empty => exact ⟨_, rfl, hstring, hargv, h.distinct, rfl, by simp⟩
  | readable =>
    simp only
    rw [use_live malloc_live, Option.bind_some]
    refine ⟨_, rfl, malloc_keeps hstring, malloc_keeps hargv, h.distinct, rfl, ?_⟩
    intro _
    exact ⟨_, rfl, malloc_live, Ne.symm (malloc_new hstring), Ne.symm (malloc_new hargv)⟩
  | unreadable =>
    simp only
    rw [use_live malloc_live, Option.bind_some, free_live malloc_live, Option.bind_some]
    exact ⟨_, rfl, Finset.mem_erase_of_ne_of_mem (malloc_new hstring) (malloc_keeps hstring),
      Finset.mem_erase_of_ne_of_mem (malloc_new hargv) (malloc_keeps hargv), h.distinct, rfl,
      by simp⟩

theorem setSourceData_buffers (h : Buffers s owned) : Buffers s.SetSourceData false :=
  ⟨h.stringBuffer, h.argv, h.distinct, rfl, by simp⟩

/-! ## The parse of a string -/

theorem growString_buffers (alloc : Allocator) (h : Buffers s false) (dataLen : ℕ) :
    ∃ s', s.growString alloc dataLen = some s' ∧ Buffers s' false := by
  unfold ParserBuffers.growString
  split
  · simp only [Option.bind_eq_bind]
    rw [free_live h.stringBuffer, Option.bind_some]
    have hargv := Finset.mem_erase_of_ne_of_mem h.distinct h.argv
    exact ⟨_, rfl, malloc_live, malloc_keeps hargv, malloc_new hargv, h.owner, by simp⟩
  · exact ⟨s, rfl, h⟩

/-- With the copy of the string the data are those of the string buffer. -/
theorem setParseData_buffers (alloc : Allocator) (h : Buffers s false) (dataLen : ℕ) :
    ∃ s', s.setParseData alloc dataLen = some s' ∧ Buffers s' false ∧
      s'.mData = .block s'.mStringBuffer := by
  obtain ⟨s1, hgrow, h1⟩ := growString_buffers alloc h dataLen
  have hfree : s1.freeData = some s1 := by
    unfold ParserBuffers.freeData
    rw [if_neg (by simp [h1.owner])]
  unfold ParserBuffers.setParseData
  simp only [Option.bind_eq_bind]
  rw [hgrow, Option.bind_some, hfree, Option.bind_some, use_live h1.stringBuffer, Option.bind_some]
  exact ⟨_, rfl, ⟨h1.stringBuffer, h1.argv, h1.distinct, h1.owner, by simp⟩, rfl⟩

theorem growArgs_buffers (alloc : Allocator) (h : Buffers s false) :
    ∃ s', s.growArgs alloc = some s' ∧ Buffers s' false ∧ s'.mData = s.mData ∧
      s'.mStringBuffer = s.mStringBuffer := by
  unfold ParserBuffers.growArgs
  simp only [Option.bind_eq_bind]
  rw [use_live malloc_live, Option.bind_some, use_live (malloc_keeps h.argv), Option.bind_some,
    free_live (malloc_keeps h.argv), Option.bind_some]
  refine ⟨_, rfl, ⟨?_, ?_, ?_, h.owner, by simp⟩, rfl, rfl⟩
  · exact Finset.mem_erase_of_ne_of_mem (Ne.symm h.distinct) (malloc_keeps h.stringBuffer)
  · exact Finset.mem_erase_of_ne_of_mem (Ne.symm (malloc_new h.argv)) malloc_live
  · exact Ne.symm (malloc_new h.stringBuffer)

theorem parseLines_buffers (alloc : Allocator) (h : Buffers s false)
    (hdata : s.mData = .block s.mStringBuffer) (growths : ℕ) : ∃ s', s.parseLines alloc growths = some s' ∧ Buffers s' false := by
  induction growths generalizing s with
  | zero =>
    unfold ParserBuffers.parseLines
    simp only [Option.bind_eq_bind]
    rw [hdata, Heap.usePointer, use_live h.stringBuffer, Option.bind_some, use_live h.argv,
      Option.bind_some, ← hdata]
    exact ⟨s, rfl, h⟩
  | succ growths ih =>
    obtain ⟨s1, hgrow, h1, hdata1, hstring1⟩ := growArgs_buffers alloc h
    unfold ParserBuffers.parseLines
    simp only [Option.bind_eq_bind]
    rw [hdata, Heap.usePointer, use_live h.stringBuffer, Option.bind_some, use_live h.argv,
      Option.bind_some, ← hdata, hgrow, Option.bind_some]
    exact ih h1 (by rw [hdata1, hstring1, hdata])

theorem parse_buffers (alloc : Allocator) (h : Buffers s owned) (dataLen growths : ℕ)
    (howned : 0 < dataLen → owned = false) :
    ∃ s', s.Parse alloc dataLen growths = some s' ∧ Buffers s' owned := by
  unfold ParserBuffers.Parse
  by_cases hempty : dataLen = 0
  · rw [if_pos hempty]
    exact ⟨s, rfl, h⟩
  · obtain rfl := howned (Nat.pos_of_ne_zero hempty)
    obtain ⟨s1, hset, h1, hdata1⟩ := setParseData_buffers alloc h dataLen
    obtain ⟨s2, hlines, h2⟩ := parseLines_buffers alloc h1 hdata1 growths
    simp only [Option.bind_eq_bind]
    rw [if_neg hempty, hset, Option.bind_some]
    exact ⟨s2, hlines, h2⟩

/-! ## A string over the data of a file -/

theorem freeData_flag (h : s.freeData = some s') : s'.mMyAlloc = s.mMyAlloc := by
  unfold ParserBuffers.freeData at h
  split at h
  · simp only [Option.bind_eq_bind, Option.bind_eq_some_iff] at h
    obtain ⟨heap, -, hs⟩ := h
    rw [← Option.some.inj hs]
  · rw [Option.some.inj h]

theorem growString_flag {dataLen : ℕ} (h : s.growString alloc dataLen = some s') :
    s'.mMyAlloc = s.mMyAlloc := by
  unfold ParserBuffers.growString at h
  split at h
  · simp only [Option.bind_eq_bind, Option.bind_eq_some_iff] at h
    obtain ⟨heap, -, hs⟩ := h
    rw [← Option.some.inj hs]
  · rw [Option.some.inj h]

theorem setParseData_flag {dataLen : ℕ} (h : s.setParseData alloc dataLen = some s') :
    s'.mMyAlloc = s.mMyAlloc ∧ s'.mData = .block s'.mStringBuffer := by
  unfold ParserBuffers.setParseData at h
  simp only [Option.bind_eq_bind, Option.bind_eq_some_iff] at h
  obtain ⟨s1, hgrow, s2, hfree, heap, -, hs⟩ := h
  rw [← Option.some.inj hs]
  exact ⟨(freeData_flag hfree).trans (growString_flag hgrow), rfl⟩

theorem growArgs_keeps (h : s.growArgs alloc = some s') :
    s'.mMyAlloc = s.mMyAlloc ∧ s'.mData = s.mData ∧ s'.mStringBuffer = s.mStringBuffer := by
  unfold ParserBuffers.growArgs at h
  simp only [Option.bind_eq_bind, Option.bind_eq_some_iff] at h
  obtain ⟨heap1, -, heap2, -, heap3, -, hs⟩ := h
  rw [← Option.some.inj hs]
  exact ⟨rfl, rfl, rfl⟩

theorem parseLines_keeps {growths : ℕ} (h : s.parseLines alloc growths = some s') :
    s'.mMyAlloc = s.mMyAlloc ∧ s'.mData = s.mData ∧ s'.mStringBuffer = s.mStringBuffer := by
  induction growths generalizing s with
  | zero =>
    unfold ParserBuffers.parseLines at h
    simp only [Option.bind_eq_bind, Option.bind_eq_some_iff] at h
    obtain ⟨heap1, -, heap2, -, hs⟩ := h
    rw [← Option.some.inj hs]
    exact ⟨rfl, rfl, rfl⟩
  | succ growths ih =>
    unfold ParserBuffers.parseLines at h
    simp only [Option.bind_eq_bind, Option.bind_eq_some_iff] at h
    obtain ⟨heap1, -, heap2, -, s1, hgrow, hrest⟩ := h
    obtain ⟨hflag, hdata, hstring⟩ := growArgs_keeps hgrow
    obtain ⟨hflag', hdata', hstring'⟩ := ih hrest
    exact ⟨hflag'.trans hflag, hdata'.trans hdata, hstring'.trans hstring⟩

/-- The flag is not reset: the parser is to free its string buffer. -/
theorem parse_over_file {dataLen growths : ℕ} (howner : s.mMyAlloc = true) (hpos : 0 < dataLen)
    (hrun : s.Parse alloc dataLen growths = some s') : ¬ Owned s' := by
  unfold ParserBuffers.Parse at hrun
  rw [if_neg (by omega)] at hrun
  simp only [Option.bind_eq_bind, Option.bind_eq_some_iff] at hrun
  obtain ⟨s1, hset, hlines⟩ := hrun
  obtain ⟨hflag1, hdata1⟩ := setParseData_flag hset
  obtain ⟨hflag, hdata, hstring⟩ := parseLines_keeps hlines
  rintro ⟨-, hmine⟩
  obtain ⟨b, hblock, -, hne⟩ := hmine (by rw [hflag, hflag1, howner])
  rw [hdata, hdata1] at hblock
  obtain rfl := Pointer.block.inj hblock
  exact hne hstring.symm

/-! ## Sequences of calls -/

theorem call_buffers (alloc : Allocator) (h : Buffers s owned) (call : ParserCall)
    (hcall : ∀ dataLen growths, call = .Parse dataLen growths → 0 < dataLen → owned = false) :
    ∃ s', s.call alloc call = some s' ∧ Buffers s' (fileOwned owned call) := by
  cases call with
  | SetFile file => exact setFile_buffers alloc h file
  | SetSourceData => exact ⟨_, rfl, setSourceData_buffers h⟩
  | Parse dataLen growths => exact parse_buffers alloc h dataLen growths (hcall dataLen growths rfl)

theorem init_buffers (alloc : Allocator) (heap : Heap) : Buffers (.Init alloc heap) false where
  stringBuffer := malloc_live
  argv := malloc_keeps malloc_live
  distinct := malloc_new malloc_live
  owner := rfl
  data := by simp

theorem parserAfter_snoc (alloc : Allocator) (heap : Heap) (constructed : Constructor)
    (before : List ParserCall) (call : ParserCall) :
    parserAfter alloc heap constructed (before ++ [call]) =
      (parserAfter alloc heap constructed before).bind (fun s => s.call alloc call) := by
  unfold parserAfter callAll
  rw [← List.append_assoc, List.foldlM_append]
  simp

theorem ownsFile_snoc (constructed : Constructor) (before : List ParserCall) (call : ParserCall) :
    ownsFile constructed (before ++ [call]) = fileOwned (ownsFile constructed before) call := by
  simp [ownsFile]

theorem constructed_buffers (alloc : Allocator) (heap : Heap) (constructed : Constructor) :
    ∃ s, parserAfter alloc heap constructed [] = some s ∧ Buffers s (ownsFile constructed []) := by
  have hinit := init_buffers alloc heap
  cases constructed with
  | plain => exact ⟨_, rfl, hinit⟩
  | data => exact ⟨_, rfl, setSourceData_buffers hinit⟩
  | file found =>
    obtain ⟨s, hrun, hbuffers⟩ := setFile_buffers alloc hinit found
    refine ⟨s, ?_, hbuffers⟩
    unfold parserAfter callAll Constructor.calls
    simp [ParserBuffers.call, hrun]

theorem calls_buffers (alloc : Allocator) (heap : Heap) (constructed : Constructor)
    {calls : List ParserCall} (h : NoParseOverFile constructed calls) :
    ∃ s, parserAfter alloc heap constructed calls = some s ∧
      Buffers s (ownsFile constructed calls) := by
  induction calls using List.reverseRecOn with
  | nil => exact constructed_buffers alloc heap constructed
  | append_singleton before call ih =>
    obtain ⟨s, hrun, hbuffers⟩ := ih (fun before' dataLen growths hpre =>
      h before' dataLen growths (hpre.trans (List.prefix_append before [call])))
    obtain ⟨s', hcall, hbuffers'⟩ := call_buffers alloc hbuffers call
      (fun dataLen growths heq hpos => h before dataLen growths (by rw [heq]) hpos)
    refine ⟨s', ?_, ?_⟩
    · rw [parserAfter_snoc, hrun, Option.bind_some, hcall]
    · rw [ownsFile_snoc]
      exact hbuffers'

theorem NoParseOverFile.of_earlier {constructed : Constructor} {before calls : List ParserCall}
    (h : NoParseOverFile constructed calls) (hpre : before <+: calls) :
    NoParseOverFile constructed before :=
  fun before' dataLen growths hbefore => h before' dataLen growths (hbefore.trans hpre)

/-- Whatever blocks `malloc` gives, the buffers stay owned when no string is parsed
over the data of a file. -/
theorem keepsOwnership_iff (alloc : Allocator) (heap : Heap) (constructed : Constructor)
    (calls : List ParserCall) :
    KeepsOwnership alloc heap constructed calls ↔ NoParseOverFile constructed calls := by
  constructor
  · intro h
    -- the calls before the first parse over a file do as they should
    have hgood : ∀ before, before <+: calls → NoParseOverFile constructed before := by
      intro before
      induction before using List.reverseRecOn with
      | nil =>
        intro _ before dataLen growths hpre
        simp at hpre
      | append_singleton before call ih =>
        intro hpre
        have hbefore := ih ((List.prefix_append before [call]).trans hpre)
        obtain ⟨s, hrun, hbuffers⟩ := calls_buffers alloc heap constructed hbefore
        intro before' dataLen growths hpre' hpos
        rcases List.prefix_concat_iff.mp hpre' with heq | hearlier
        · obtain ⟨rfl, heq'⟩ := List.append_inj' heq rfl
          obtain rfl : ParserCall.Parse dataLen growths = call := by simpa using heq'
          by_contra howned
          obtain ⟨s', heap', hrun', hmine, -⟩ := h _ hpre
          rw [parserAfter_snoc, hrun, Option.bind_some] at hrun'
          have howner : s.mMyAlloc = true := by
            rw [hbuffers.owner]
            simpa using howned
          exact parse_over_file howner hpos hrun' hmine
        · exact hbefore before' dataLen growths hearlier hpos
    exact hgood calls (List.prefix_refl calls)
  · intro h before hpre
    obtain ⟨s, hrun, hbuffers⟩ := calls_buffers alloc heap constructed (h.of_earlier hpre)
    obtain ⟨heap', hdestroy⟩ := hbuffers.destroy
    exact ⟨s, heap', hrun, hbuffers.isOwned, hdestroy⟩

/-- `SetFile` of a file that can be read, and `Parse` of a string of one character: the
string buffer is freed twice. -/
theorem string_buffer_freed_twice :
    ¬ KeepsOwnership nextBlock ⟨∅, 0⟩ .plain [.SetFile .readable, .Parse 1 0] := by
  intro h
  obtain ⟨s, heap', hrun, -, hdestroy⟩ := h _ (List.prefix_refl _)
  have hfails : (parserAfter nextBlock ⟨∅, 0⟩ .plain [.SetFile .readable, .Parse 1 0]).bind
      (fun s => s.destroy) |>.isNone := by decide
  rw [hrun, Option.bind_some, hdestroy] at hfails
  simp at hfails

end bitcoinstats.inparser
