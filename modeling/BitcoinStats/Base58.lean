-- The base 58 codec of `Base58.cpp`: big numbers of at most 256 bytes, the
-- arithmetic on them, and the two translations between bytes and text.
import BitcoinStats.Library.Bytes
import Mathlib.Logic.Function.Basic

open byte_memory

namespace bitcoinstats.base58

/-! ## Big numbers

A function gives `none` when the code leaves `data`, or never returns. -/

def MAX_BIG_NUMBER : Nat := 256

/-- Byte data, lowest byte first, and its length in bytes. -/
structure BigNumber where
  data : Memory
  length : Nat

/-- `BigNumber(sourceData, len)`: the bytes past the copy are 0. -/
def BigNumber.ofBytes (sourceData : List UInt8) (len : Nat) : BigNumber :=
  { data := fun i => sourceData.getD i 0, length := len }

/-- `BigNumber(NULL, len)`. -/
def BigNumber.zeroed (len : Nat) : BigNumber := BigNumber.ofBytes [] len

/-- `a->data[i] = v`. -/
def BigNumber.put (a : BigNumber) (i : Nat) (v : UInt8) : BigNumber :=
  { a with data := Function.update a.data i v }

inductive BigNumberCompare where
  | CB_COMPARE_MORE_THAN
  | CB_COMPARE_EQUAL
  | CB_COMPARE_LESS_THAN
deriving DecidableEq

def BigNumber.compareTo58 (a : BigNumber) : BigNumberCompare :=
  if 1 < a.length then .CB_COMPARE_MORE_THAN
  else if 58 < a.data 0 then .CB_COMPARE_MORE_THAN
  else if a.data 0 < 58 then .CB_COMPARE_LESS_THAN
  else .CB_COMPARE_EQUAL

def BigNumber.normaliseLength (data : Memory) : Nat → Nat
  | 0 => 0
  | n + 1 => if 0 < n ∧ data n = 0 then normaliseLength data n else n + 1

def BigNumber.normalise (a : BigNumber) : Option BigNumber :=
  if a.length ≤ MAX_BIG_NUMBER then
    some { a with length := normaliseLength a.data a.length }
  else none

/-- The loop over the bytes of `b`. Its counter is a `uint8_t`: with 256
bytes or more, the counter wraps and the loop never ends. -/
def BigNumber.addLoop (b : BigNumber) :
    Nat → UInt8 → Bool → BigNumber → Option (UInt8 × Bool × BigNumber)
  | 0, _, _, _ => none
  | fuel + 1, x, overflow, a =>
    if x.toNat < b.length then
      let v := a.data x.toNat + (b.data x.toNat + overflow.toNat.toUInt8)
      addLoop b fuel (x + 1) (v.toNat < (b.data x.toNat).toNat + overflow.toNat)
        (a.put x.toNat v)
    else some (x, overflow, a)

/-- `while (overflow && x < a->length) overflow = ! ++a->data[x++];` -/
def BigNumber.overflowLoop : Nat → UInt8 → Bool → BigNumber → Option (Bool × BigNumber)
  | 0, _, _, _ => none
  | fuel + 1, x, overflow, a =>
    if overflow ∧ x.toNat < a.length then
      let v := a.data x.toNat + 1
      overflowLoop fuel (x + 1) (v = 0) (a.put x.toNat v)
    else some (overflow, a)

/-- The bytes from the end of `a` to the new length are cleared. -/
def BigNumber.expandTo (a : BigNumber) (length : Nat) : Option BigNumber :=
  if a.length < length then
    if length ≤ MAX_BIG_NUMBER then
      some { data := fun i => if a.length ≤ i ∧ i < length then 0 else a.data i, length := length }
    else none
  else some a

/-- `a += b`. The source returns `true` on every path. -/
def BigNumber.equalsAdditionByBigInt (a b : BigNumber) : Option BigNumber := do
  let a ← a.expandTo b.length
  let (x, overflow, a) ← addLoop b 257 0 false a
  let (overflow, a) ← overflowLoop 513 x overflow a
  if overflow then
    if a.length < MAX_BIG_NUMBER then
      some { a.put a.length 1 with length := a.length + 1 }
    else none
  else some a

/-- The base 256 long division, from the highest byte down: `ans` lists the
bytes of the quotient from `x` on. -/
def BigNumber.divisionLoop (data : Memory) : Nat → UInt16 → List UInt8 → List UInt8
  | 0, _, ans => ans
  | x + 1, temp, ans =>
    let temp := temp <<< 8 ||| (data x).toUInt16
    let q := (temp / 58).toUInt8
    divisionLoop data x (temp - q.toUInt16 * 58) (q :: ans)

/-- `a /= 58`. The scratch block `ans` of the source is read only where the
loop stored. -/
def BigNumber.equalsDivisionBy58 (a : BigNumber) : Option BigNumber :=
  if a.length = 1 ∧ a.data 0 = 0 then some a
  else if a.length = 0 ∨ MAX_BIG_NUMBER < a.length then none
  else
    let ans := divisionLoop a.data a.length 0 []
    let length := if ans.getD (a.length - 1) 0 = 0 then a.length - 1 else a.length
    some { data := fun i => if i < length then ans.getD i 0 else a.data i, length := length }

/-- The loop of the multiplication; the counter wraps as in `addLoop`. -/
def BigNumber.multiplicationLoop (b : UInt8) :
    Nat → UInt8 → UInt16 → BigNumber → Option (UInt8 × UInt16 × BigNumber)
  | 0, _, _, _ => none
  | fuel + 1, x, carry, a =>
    if x.toNat < a.length then
      let carry := carry + (a.data x.toNat).toUInt16 * b.toUInt16
      multiplicationLoop b fuel (x + 1) (carry >>> 8) (a.put x.toNat carry.toUInt8)
    else some (x, carry, a)

/-- `a *= b`. The source returns `true` on every path. -/
def BigNumber.equalsMultiplicationByUInt8 (a : BigNumber) (b : UInt8) : Option BigNumber :=
  if b = 0 then some { a.put 0 0 with length := 1 }
  else if a.length = 1 ∧ a.data 0 = 0 then some a
  else do
    let (x, carry, a) ← multiplicationLoop b 257 0 0 a
    if carry ≠ 0 then some { a.put x.toNat carry.toUInt8 with length := a.length + 1 }
    else some a

/-- The borrow loop, which has no bound of its own. -/
def BigNumber.subtractionLoop :
    Nat → UInt8 → UInt8 → BigNumber → Option (UInt8 × UInt8 × BigNumber)
  | 0, _, _, _ => none
  | fuel + 1, x, carry, a =>
    if a.data x.toNat < carry then
      subtractionLoop fuel (x + 1) 1 (a.put x.toNat (255 - carry + a.data x.toNat + 1))
    else some (x, carry, a)

/-- `a -= b`. After 256 borrows the counter is back at the first byte, which
is then 1 or more, so the loop has stopped. -/
def BigNumber.equalsSubtractionByUInt8 (a : BigNumber) (b : UInt8) : Option BigNumber := do
  let (x, carry, a) ← subtractionLoop 258 0 b a
  (a.put x.toNat (a.data x.toNat - carry)).normalise

/-- The loop over the bytes of `b`, with `carry` for the borrow. The bytes are compared
with `tmp`, and only what is taken off is narrowed to 8 bits. -/
def BigNumber.bigIntLoop (b : BigNumber) :
    Nat → UInt8 → Bool → BigNumber → Option (UInt8 × Bool × BigNumber)
  | 0, _, _, _ => none
  | fuel + 1, x, carry, a =>
    if x.toNat < b.length then
      let tmp := carry.toNat.toUInt16 + (b.data x.toNat).toUInt16
      bigIntLoop b fuel (x + 1) ((a.data x.toNat).toUInt16 < tmp)
        (a.put x.toNat (a.data x.toNat - tmp.toUInt8))
    else some (x, carry, a)

/-- `a -= b`. A borrow behind the last byte of `b` is taken from the next byte only. -/
def BigNumber.equalsSubtractionByBigInt (a b : BigNumber) : Option BigNumber := do
  let (x, carry, a) ← bigIntLoop b 257 0 false a
  (if carry then a.put x.toNat (a.data x.toNat - 1) else a).normalise

def BigNumber.powLoop (a : UInt8) : Nat → BigNumber → Option BigNumber
  | 0, bi => some bi
  | n + 1, bi => do
    let bi ← bi.equalsMultiplicationByUInt8 a
    powLoop a n bi

/-- `bi = a ^ b`. -/
def BigNumber.fromPowUInt8 (bi : BigNumber) (a b : UInt8) : Option BigNumber :=
  powLoop a b.toNat { bi.put 0 1 with length := 1 }

def BigNumber.moduloLoop (data : Memory) : Nat → UInt16 → UInt16
  | 0, result => result
  | x + 1, result =>
    moduloLoop data x ((result * (256 % 58) % 58 + (data x % 58).toUInt16) % 58)

/-- `a % 58`. -/
def BigNumber.moduloWith58 (a : BigNumber) : Option UInt8 :=
  if a.length = 0 ∨ MAX_BIG_NUMBER < a.length then none
  else some (moduloLoop a.data a.length 0).toUInt8

/-! ## The alphabet -/

/-- The 58 characters of `base58Characters[59]`. -/
def alphabet : List UInt8 :=
  ['1', '2', '3', '4', '5', '6', '7', '8', '9', 'A', 'B', 'C', 'D', 'E', 'F', 'G', 'H', 'J', 'K',
    'L', 'M', 'N', 'P', 'Q', 'R', 'S', 'T', 'U', 'V', 'W', 'X', 'Y', 'Z', 'a', 'b', 'c', 'd', 'e',
    'f', 'g', 'h', 'i', 'j', 'k', 'm', 'n', 'o', 'p', 'q', 'r', 's', 't', 'u', 'v', 'w', 'x', 'y',
    'z'].map (fun c => UInt8.ofNat c.toNat)

/-- `static const char base58Characters[59]`, with its closing zero. -/
def base58Characters : List UInt8 := alphabet ++ [0]

/-- The index that `CBDecodeBase58` computes for a character. `char` is
signed, so the bytes from 128 on take the first branch. -/
def alphaIndexOf (c : UInt8) : UInt8 :=
  if c.toInt8 < 58 then c - 49
  else if c.toInt8 < 73 then c - 56
  else if c.toInt8 < 79 then c - 57
  else if c.toInt8 < 91 then c - 58
  else if c.toInt8 < 108 then c - 64
  else c - 65

/-! ## Decoding -/

/-- `(uint32_t)strlen(str)`, of the characters before the closing zero. -/
def strlen32 (str : List UInt8) : Nat := str.length % 2 ^ 32

/-- `slen - 1`, a `uint32_t` too: `2 ^ 32 - 1` for the length 0. -/
def lastIndex (str : List UInt8) : Nat := (strlen32 str + (2 ^ 32 - 1)) % 2 ^ 32

/-- The loop over the string, back from the index `last`. -/
def decodeLoop (str : List UInt8) (last : Nat) : Nat → BigNumber → BigNumber → Option BigNumber
  | 0, bi, _ => some bi
  | x + 1, bi, bi2 => do
    let c ← str[x]?
    if c ≠ 49 then
      let bi2 ← bi2.fromPowUInt8 58 (UInt8.ofNat (last - x))
      let bi2 ← bi2.equalsMultiplicationByUInt8 (alphaIndexOf c)
      let bi ← bi.equalsAdditionByBigInt bi2
      decodeLoop str last x bi bi2
    else decodeLoop str last x bi bi2

/-- The count of the leading ones. Its counter is a `uint8_t` too. -/
def zerosLoop (str : List UInt8) (slen : Nat) : Nat → UInt8 → UInt8 → Option UInt8
  | 0, _, _ => none
  | fuel + 1, x, zeros =>
    if x.toNat < slen then do
      let c ← str[x.toNat]?
      if c = 49 then zerosLoop str slen fuel (x + 1) (zeros + 1) else some zeros
    else some zeros

/-- `CBDecodeBase58`. An empty string has no character at its last index. -/
def cbDecodeBase58 (bi : BigNumber) (str : List UInt8) : Option BigNumber := do
  let bi ← decodeLoop str (lastIndex str) (lastIndex str + 1) bi (BigNumber.zeroed 1)
  let zeros ← zerosLoop str (strlen32 str) 257 0 0
  if zeros = 0 then some bi
  else if bi.length + zeros.toNat ≤ MAX_BIG_NUMBER then
    some { data := fun i =>
             if bi.length ≤ i ∧ i < bi.length + zeros.toNat then 0 else bi.data i,
           length := bi.length + zeros.toNat }
  else none

/-- The length that `decodeBase58` returns, 0 for a failure, and the bytes
that it stores. -/
def decodeBase58 (string : List UInt8) (maxOutputLength : Nat) (isBigEndian : Bool) :
    Option (Nat × List UInt8) := do
  let bn ← cbDecodeBase58 (BigNumber.zeroed 0) string
  if bn.length ≤ maxOutputLength then
    let bytes := window bn.data 0 bn.length
    some (bn.length, if isBigEndian then bytes.reverse else bytes)
  else some (0, [])

/-! ## Encoding

The characters of the output string are listed from its start: the `x` of
the source is the length of the list. -/

/-- One `1` for each zero byte at the top of the number. -/
def leadingZeros (data : Memory) : Nat → List UInt8 → List UInt8
  | 0, str => str
  | y + 1, str => if data y = 0 then leadingZeros data y (str ++ [49]) else str

/-- The loop of the encoder; `false` when the string is out of room. -/
def encodeLoop (maxStrLen : Nat) :
    Nat → BigNumber → List UInt8 → Option (Bool × BigNumber × List UInt8)
  | 0, _, _ => none
  | fuel + 1, bi, str =>
    if bi.compareTo58 = .CB_COMPARE_LESS_THAN then some (true, bi, str)
    else do
      let mod ← bi.moduloWith58
      if bi.length < str.length + 3 ∧ maxStrLen < str.length + 3 then some (false, bi, str)
      else
        let c ← base58Characters[mod.toNat]?
        let bi ← bi.equalsSubtractionByUInt8 mod
        let bi ← bi.equalsDivisionBy58
        encodeLoop maxStrLen fuel bi (str ++ [c])

/-- The swaps that turn the digits around, from the turn `y` on. -/
def reversalLoop (zeros : Nat) : Nat → Nat → List UInt8 → List UInt8
  | 0, _, str => str
  | turns + 1, y, str =>
    let temp := str.getD (y + zeros) 0
    let str' := str.set (y + zeros) (str.getD (str.length - y - 1) 0)
    reversalLoop zeros turns (y + 1) (str'.set (str.length - y - 1) temp)

/-- `CBEncodeBase58`: what it returns, and the characters that it stores. A
number of `n` bytes has at most `2 * n` digits. -/
def cbEncodeBase58 (bi : BigNumber) (maxStrLen : Nat) : Option (Bool × List UInt8) :=
  if maxStrLen < bi.length then some (false, [])
  else if bi.length = 0 ∨ MAX_BIG_NUMBER < bi.length then none
  else do
    let ones := leadingZeros bi.data bi.length []
    let zeros := ones.length
    let (room, bi, str) ← encodeLoop maxStrLen (2 * bi.length + 2) bi ones
    if room then
      let c ← base58Characters[(bi.data (bi.length - 1)).toNat]?
      let str := str ++ [c]
      some (true, reversalLoop zeros ((str.length - zeros) / 2) 0 str ++ [0])
    else some (false, str)

/-- `encodeBase58`: it copies 25 bytes into a block of 25, in the turned
order when the number is big-endian. -/
def encodeBase58 (bigNumber : List UInt8) (length : Nat) (isBigEndian : Bool)
    (maxStrLen : Nat) : Option (Bool × List UInt8) := do
  if length ≤ 25 then
    let hash ←
      if isBigEndian then
        (List.range 25).mapM (fun i => if i < length then bigNumber[length - 1 - i]? else none)
      else (List.range length).mapM (fun i => bigNumber[i]?)
    cbEncodeBase58 (BigNumber.ofBytes hash length) maxStrLen
  else none

end bitcoinstats.base58
