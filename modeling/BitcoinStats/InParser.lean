-- The parser of `InParser.cpp`, which cuts a line into arguments in place: its
-- table of separators, and the loop that `ProcessLine` and `GetArglist` share.
import Mathlib.Data.List.GetD
import BitcoinStats.Library.CStrings

open cells

namespace bitcoinstats.inparser

/-! ## The tables -/

inductive SeparatorType where
  | ST_DATA
  | ST_HARD
  | ST_SOFT
  | ST_EOS
  | ST_LINE_FEED
deriving DecidableEq

open SeparatorType

/-- The first characters in order, and a zero behind each. -/
def hardStrings (n : Nat) : List UInt8 := (List.range n).flatMap (fun i => [UInt8.ofNat i, 0])

theorem hardStrings_succ (n : Nat) : hardStrings (n + 1) = hardStrings n ++ [UInt8.ofNat n, 0] := by
  simp [hardStrings, List.range_succ]

theorem hardStrings_length (n : Nat) : (hardStrings n).length = n * 2 := by
  induction n with
  | zero => rfl
  | succ n ih =>
    rw [hardStrings_succ, List.length_append, ih]
    simp
    omega

theorem hardStrings_drop {k n : Nat} (h : k < n) :
    ∃ rest, (hardStrings n).drop (k * 2) = UInt8.ofNat k :: 0 :: rest := by
  induction n with
  | zero => omega
  | succ n ih =>
    have hlen := hardStrings_length n
    rw [hardStrings_succ, List.drop_append_of_le_length (by omega)]
    rcases Nat.lt_succ_iff_lt_or_eq.mp h with hlt | rfl
    · obtain ⟨rest, hrest⟩ := ih hlt
      exact ⟨rest ++ [UInt8.ofNat n, 0], by rw [hrest]; rfl⟩
    · exact ⟨[], by rw [List.drop_eq_nil_of_le (by omega)]; rfl⟩

/-- The tables of a parser. Nothing writes to `mHardString` behind `Init`. -/
structure InPlaceParser where
  mHard : List SeparatorType
  mHardString : List UInt8
  mQuoteChar : UInt8
  mHard_length : mHard.length = 256
  mHardString_eq : mHardString = hardStrings 256
deriving DecidableEq

/-- The table that all calls of the setters write to. -/
def InPlaceParser.setSeparator (p : InPlaceParser) (c : UInt8) (kind : SeparatorType) :
    InPlaceParser :=
  { p with mHard := p.mHard.set c.toNat kind
           mHard_length := by rw [List.length_set, p.mHard_length] }

def InPlaceParser.SetHard (p : InPlaceParser) (c : UInt8) : InPlaceParser := p.setSeparator c ST_HARD
def InPlaceParser.SetSoft (p : InPlaceParser) (c : UInt8) : InPlaceParser := p.setSeparator c ST_SOFT
def InPlaceParser.SetCommentSymbol (p : InPlaceParser) (c : UInt8) : InPlaceParser :=
  p.setSeparator c ST_EOS
def InPlaceParser.setLineFeed (p : InPlaceParser) (c : UInt8) : InPlaceParser :=
  p.setSeparator c ST_LINE_FEED
def InPlaceParser.SetQuoteChar (p : InPlaceParser) (c : UInt8) : InPlaceParser :=
  { p with mQuoteChar := c }

/-- The tables after `Init`. -/
def InPlaceParser.Init : InPlaceParser :=
  let data : InPlaceParser :=
    { mHard := List.replicate 256 ST_DATA, mHardString := hardStrings 256, mQuoteChar := 34
      mHard_length := List.length_replicate, mHardString_eq := rfl }
  ((((data.SetCommentSymbol 0).SetSoft 32).SetSoft 9).setLineFeed 13).setLineFeed 10

/-- `mHard[(unsigned char)c]`, which the tests of a character have in common. -/
def InPlaceParser.lookup (p : InPlaceParser) (c : UInt8) : Option SeparatorType :=
  load p.mHard c.toNat

def InPlaceParser.kind (p : InPlaceParser) (c : UInt8) : SeparatorType :=
  p.mHard.getD c.toNat ST_DATA

theorem InPlaceParser.lookup_eq (p : InPlaceParser) (c : UInt8) : p.lookup c = some (p.kind c) := by
  have hlt := c.toNat_lt
  exact load_natCast (by rw [p.mHard_length]; omega) rfl ST_DATA

@[simp] theorem InPlaceParser.kind_setSeparator (p : InPlaceParser) (c d : UInt8)
    (kind : SeparatorType) :
    (p.setSeparator c kind).kind d = if d = c then kind else p.kind d := by
  have hlt := c.toNat_lt
  unfold InPlaceParser.kind InPlaceParser.setSeparator
  by_cases hd : d = c
  · subst hd
    simp [List.getD, p.mHard_length, hlt]
  · have hne : c.toNat ≠ d.toNat := fun heq => hd (UInt8.toNat_inj.mp heq.symm)
    simp [List.getD, List.getElem?_set_ne hne, hd]

theorem kind_Init (c : UInt8) : InPlaceParser.Init.kind c =
    if c = 10 ∨ c = 13 then ST_LINE_FEED else if c = 9 ∨ c = 32 then ST_SOFT
    else if c = 0 then ST_EOS else ST_DATA := by
  have hdata : (List.replicate 256 ST_DATA).getD c.toNat ST_DATA = ST_DATA :=
    List.getD_replicate ST_DATA c.toNat_lt
  simp only [InPlaceParser.Init, InPlaceParser.setLineFeed, InPlaceParser.SetSoft,
    InPlaceParser.SetCommentSymbol, InPlaceParser.kind_setSeparator]
  rw [InPlaceParser.kind, hdata]
  grind

/-! ## The arguments -/

/-- What `mArgv` points to: a place in the line, or one in `mHardString`. -/
inductive Argument where
  | line (p : Int)
  | hard (index : Int)
deriving DecidableEq

/-- The value of a character as an index, `char` being signed. -/
def signedChar (c : UInt8) : Int := if c.toNat < 128 then c.toNat else c.toNat - 256

/-- `&mHardString[c * 2]`. -/
def hardString (c : UInt8) : Argument := .hard (signedChar c * 2)

/-- The string of an argument when the line is as given. -/
def Argument.string (p : InPlaceParser) (line : List UInt8) : Argument → Option (List UInt8)
  | .line q => stringAt line q
  | .hard index => stringAt p.mHardString index

/-- The string of a hard separator, if its character is not negative. -/
theorem string_hardString (p : InPlaceParser) (line : List UInt8) {c : UInt8} (hzero : c ≠ 0)
    (hc : c.toNat < 128) : (hardString c).string p line = some [c] := by
  obtain ⟨rest, hrest⟩ := hardStrings_drop (show c.toNat < 256 by omega)
  have hindex : signedChar c = c.toNat := if_pos hc
  rw [hardString, Argument.string, hindex, p.mHardString_eq]
  have hdrop : (hardStrings 256).drop ((c.toNat : Int) * 2).toNat = [c] ++ 0 :: rest := by
    rw [show ((c.toNat : Int) * 2).toNat = c.toNat * 2 by omega, hrest, UInt8.ofNat_toNat]
    rfl
  exact stringAt_eq (by omega) (by simpa using Ne.symm hzero) hdrop

/-! ## The loop over the line -/

/-- The line, the cursor in it, and the array of the arguments. -/
structure Progress where
  line : List UInt8
  foo : Int
  argc : Int
  mArgv : List (Option Argument)
  mMaxArgs : Int
deriving DecidableEq

/-- The array of twice the size has the arguments so far. -/
def growArgs (st : Progress) : Option Progress :=
  if st.mMaxArgs ≤ st.argc then
    let mMaxArgs := st.mMaxArgs * 2
    if 0 ≤ st.argc ∧ st.argc ≤ st.mArgv.length ∧ st.argc ≤ mMaxArgs then
      some { st with
        mArgv := st.mArgv.take st.argc.toNat ++ List.replicate (mMaxArgs - st.argc).toNat none
        mMaxArgs }
    else none
  else some st

/-- `mArgv[argc++] = argument`. -/
def push (st : Progress) (argument : Argument) : Option Progress := do
  let st ← growArgs st
  let mArgv ← store st.mArgv st.argc (some argument)
  return { st with mArgv, argc := st.argc + 1 }

/-- The loops that only move the cursor on. -/
def advance (p : InPlaceParser) (goOn : UInt8 → SeparatorType → Bool) :
    Nat → Progress → Option Progress
  | 0, _ => none
  | fuel + 1, st => do
    let c ← load st.line st.foo
    let kind ← p.lookup c
    if goOn c kind then advance p goOn fuel { st with foo := st.foo + 1 } else return st

def SkipSpaces (p : InPlaceParser) (fuel : Nat) (st : Progress) : Option Progress :=
  advance p (fun _ kind => kind ≠ ST_EOS ∧ kind = ST_SOFT) fuel st

def AddHard (p : InPlaceParser) : Nat → Progress → Option Progress
  | 0, _ => none
  | fuel + 1, st => do
    let c ← load st.line st.foo
    let kind ← p.lookup c
    if kind = ST_HARD then
      let st ← push st (hardString c)
      AddHard p fuel { st with foo := st.foo + 1 }
    else return st

def IsNonSeparator (kind : SeparatorType) (c : UInt8) : Bool :=
  kind ≠ ST_HARD ∧ kind ≠ ST_SOFT ∧ c ≠ 0

/-- The loop to the end of an argument: a separator becomes its zero, and a hard
one is an argument itself. -/
def wordLoop (p : InPlaceParser) : Nat → Progress → Option Progress
  | 0, _ => none
  | fuel + 1, st => do
    let c ← load st.line st.foo
    let kind ← p.lookup c
    if kind = ST_EOS then return st
    else if kind = ST_SOFT then
      let line ← store st.line st.foo 0
      return { st with line, foo := st.foo + 1 }
    else if kind = ST_HARD then
      let line ← store st.line st.foo 0
      let st ← push { st with line } (hardString c)
      return { st with foo := st.foo + 1 }
    else wordLoop p fuel { st with foo := st.foo + 1 }

/-- An argument in quotes, the cursor on the opening one. -/
def quotedArgument (p : InPlaceParser) (fuel : Nat) (st : Progress) : Option Progress := do
  let st ← push { st with foo := st.foo + 1 } (.line (st.foo + 1))
  let st ← advance p (fun c kind => kind ≠ ST_EOS ∧ c ≠ p.mQuoteChar) fuel st
  let c ← load st.line st.foo
  let kind ← p.lookup c
  if kind ≠ ST_EOS then
    let line ← store st.line st.foo 0
    return { st with line, foo := st.foo + 1 }
  else return st

/-- The non-hard argument behind the hard separators, where a quote is found
once more. -/
def nonHardArgument (p : InPlaceParser) (fuel : Nat) (c : UInt8) (st : Progress) :
    Option Progress := do
  let st ←
    if c = p.mQuoteChar then do
      let st ← push { st with foo := st.foo + 1 } (.line (st.foo + 1))
      let st ← advance p (fun c _ => c ≠ 0 ∧ c ≠ p.mQuoteChar) fuel st
      let c ← load st.line st.foo
      if c ≠ 0 then
        let line ← store st.line st.foo 32
        pure { st with line }
      else pure st
    else push st (.line st.foo)
  wordLoop p fuel st

/-- The body of the outer loop, once the spaces are skipped. -/
def turn (p : InPlaceParser) (fuel : Nat) (c : UInt8) (st : Progress) : Option Progress :=
  if c = p.mQuoteChar then quotedArgument p fuel st
  else do
    let st ← AddHard p fuel st
    let c ← load st.line st.foo
    let kind ← p.lookup c
    if IsNonSeparator kind c then nonHardArgument p fuel c st else return st

/-- The outer loop of `ProcessLine` and `GetArglist`. -/
def splitLoop (p : InPlaceParser) : Nat → Progress → Option Progress
  | 0, _ => none
  | fuel + 1, st => do
    let c ← load st.line st.foo
    let kind ← p.lookup c
    if kind = ST_EOS then return st
    else
      let st ← SkipSpaces p st.line.length st
      let c ← load st.line st.foo
      let kind ← p.lookup c
      if kind = ST_EOS then return st
      else
        let st ← turn p st.line.length c st
        splitLoop p fuel st

/-- `mArgv` between two calls, with what is in it. -/
structure ArgumentArray where
  mArgv : List (Option Argument)
  mMaxArgs : Int
  length : (mArgv.length : Int) = mMaxArgs
  pos : 0 < mMaxArgs

/-- The loop from a place in the memory of the line on. -/
def split (p : InPlaceParser) (args : ArgumentArray) (line : List UInt8) (foo : Int) :
    Option Progress :=
  splitLoop p (line.length + 1)
    { line, foo, argc := 0, mArgv := args.mArgv, mMaxArgs := args.mMaxArgs }

/-- `ProcessLine`: the arguments of the call of `ParseLine`, if there is one, and
the line as it is then. -/
def ProcessLine (p : InPlaceParser) (args : ArgumentArray) (line : List UInt8) (foo : Int) :
    Option (Option (List (Option Argument)) × List UInt8) := do
  let st ← split p args line foo
  return (if st.argc ≠ 0 then some (st.mArgv.take st.argc.toNat) else none, st.line)

/-- `GetArglist`: the same, with `count`; the array is null without arguments. -/
def GetArglist (p : InPlaceParser) (args : ArgumentArray) (line : List UInt8) :
    Option (Option (List (Option Argument)) × Int × List UInt8) := do
  let st ← split p args line 0
  return (if st.argc ≠ 0 then some (st.mArgv.take st.argc.toNat) else none, st.argc, st.line)

end bitcoinstats.inparser
