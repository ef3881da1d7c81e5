-- The hash function of `RIPEMD160.cpp`: two lines of 80 operations on five
-- registers for each block, and the last blocks with the padding.
import BitcoinStats.Library.Words

open byte_memory byte_words

namespace bitcoinstats.ripemd160

def ROL (x n : UInt32) : UInt32 := (x <<< n) ||| (x >>> (32 - n))

def F (x y z : UInt32) : UInt32 := x ^^^ y ^^^ z
def G (x y z : UInt32) : UInt32 := (x &&& y) ||| (~~~x &&& z)
def H (x y z : UInt32) : UInt32 := (x ||| ~~~y) ^^^ z
def I (x y z : UInt32) : UInt32 := (x &&& z) ||| (y &&& ~~~z)
def J (x y z : UInt32) : UInt32 := x ^^^ (y ||| ~~~z)

/-- The variables of one line: `aa` to `ee` of the left one, `aaa` to `eee` of the parallel one. -/
inductive Register
  | aa | bb | cc | dd | ee
deriving DecidableEq, Repr

/-- What the variables of a line hold. -/
structure Line where
  aa : UInt32
  bb : UInt32
  cc : UInt32
  dd : UInt32
  ee : UInt32
deriving DecidableEq, Repr

def Line.get (line : Line) : Register → UInt32
  | .aa => line.aa
  | .bb => line.bb
  | .cc => line.cc
  | .dd => line.dd
  | .ee => line.ee

def Line.set (line : Line) (r : Register) (w : UInt32) : Line :=
  match r with
  | .aa => { line with aa := w }
  | .bb => { line with bb := w }
  | .cc => { line with cc := w }
  | .dd => { line with dd := w }
  | .ee => { line with ee := w }

/-- One operation of a line. -/
abbrev Operation := Line → Line

/-- The shape of the ten macros; `FF` and `FFF` add no constant. -/
def operation (f : UInt32 → UInt32 → UInt32 → UInt32) (k : UInt32) (a b c d e : Register)
    (X : List UInt32) (x : Nat) (s : UInt32) : Operation := fun line =>
  let line := line.set a (line.get a + (f (line.get b) (line.get c) (line.get d) + X.getD x 0 + k))
  let line := line.set a (ROL (line.get a) s + line.get e)
  line.set c (ROL (line.get c) 10)

def FF := operation F 0
def GG := operation G 0x5a827999
def HH := operation H 0x6ed9eba1
def II := operation I 0x8f1bbcdc
def JJ := operation J 0xa953fd4e
def FFF := operation F 0
def GGG := operation G 0x7a6d76e9
def HHH := operation H 0x6d703ef3
def III := operation I 0x5c4dd124
def JJJ := operation J 0x50a28be6

def leftLine (X : List UInt32) : List Operation :=
  [
   -- round 1
   FF .aa .bb .cc .dd .ee X 0 11,
   FF .ee .aa .bb .cc .dd X 1 14,
   FF .dd .ee .aa .bb .cc X 2 15,
   FF .cc .dd .ee .aa .bb X 3 12,
   FF .bb .cc .dd .ee .aa X 4 5,
   FF .aa .bb .cc .dd .ee X 5 8,
   FF .ee .aa .bb .cc .dd X 6 7,
   FF .dd .ee .aa .bb .cc X 7 9,
   FF .cc .dd .ee .aa .bb X 8 11,
   FF .bb .cc .dd .ee .aa X 9 13,
   FF .aa .bb .cc .dd .ee X 10 14,
   FF .ee .aa .bb .cc .dd X 11 15,
   FF .dd .ee .aa .bb .cc X 12 6,
   FF .cc .dd .ee .aa .bb X 13 7,
   FF .bb .cc .dd .ee .aa X 14 9,
   FF .aa .bb .cc .dd .ee X 15 8,
   -- round 2
   GG .ee .aa .bb .cc .dd X 7 7,
   GG .dd .ee .aa .bb .cc X 4 6,
   GG .cc .dd .ee .aa .bb X 13 8,
   GG .bb .cc .dd .ee .aa X 1 13,
   GG .aa .bb .cc .dd .ee X 10 11,
   GG .ee .aa .bb .cc .dd X 6 9,
   GG .dd .ee .aa .bb .cc X 15 7,
   GG .cc .dd .ee .aa .bb X 3 15,
   GG .bb .cc .dd .ee .aa X 12 7,
   GG .aa .bb .cc .dd .ee X 0 12,
   GG .ee .aa .bb .cc .dd X 9 15,
   GG .dd .ee .aa .bb .cc X 5 9,
   GG .cc .dd .ee .aa .bb X 2 11,
   GG .bb .cc .dd .ee .aa X 14 7,
   GG .aa .bb .cc .dd .ee X 11 13,
   GG .ee .aa .bb .cc .dd X 8 12,
   -- round 3
   HH .dd .ee .aa .bb .cc X 3 11,
   HH .cc .dd .ee .aa .bb X 10 13,
   HH .bb .cc .dd .ee .aa X 14 6,
   HH .aa .bb .cc .dd .ee X 4 7,
   HH .ee .aa .bb .cc .dd X 9 14,
   HH .dd .ee .aa .bb .cc X 15 9,
   HH .cc .dd .ee .aa .bb X 8 13,
   HH .bb .cc .dd .ee .aa X 1 15,
   HH .aa .bb .cc .dd .ee X 2 14,
   HH .ee .aa .bb .cc .dd X 7 8,
   HH .dd .ee .aa .bb .cc X 0 13,
   HH .cc .dd .ee .aa .bb X 6 6,
   HH .bb .cc .dd .ee .aa X 13 5,
   HH .aa .bb .cc .dd .ee X 11 12,
   HH .ee .aa .bb .cc .dd X 5 7,
   HH .dd .ee .aa .bb .cc X 12 5,
   -- round 4
   II .cc .dd .ee .aa .bb X 1 11,
   II .bb .cc .dd .ee .aa X 9 12,
   II .aa .bb .cc .dd .ee X 11 14,
   II .ee .aa .bb .cc .dd X 10 15,
   II .dd .ee .aa .bb .cc X 0 14,
   II .cc .dd .ee .aa .bb X 8 15,
   II .bb .cc .dd .ee .aa X 12 9,
   II .aa .bb .cc .dd .ee X 4 8,
   II .ee .aa .bb .cc .dd X 13 9,
   II .dd .ee .aa .bb .cc X 3 14,
   II .cc .dd .ee .aa .bb X 7 5,
   II .bb .cc .dd .ee .aa X 15 6,
   II .aa .bb .cc .dd .ee X 14 8,
   II .ee .aa .bb .cc .dd X 5 6,
   II .dd .ee .aa .bb .cc X 6 5,
   II .cc .dd .ee .aa .bb X 2 12,
   -- round 5
   JJ .bb .cc .dd .ee .aa X 4 9,
   JJ .aa .bb .cc .dd .ee X 0 15,
   JJ .ee .aa .bb .cc .dd X 5 5,
   JJ .dd .ee .aa .bb .cc X 9 11,
   JJ .cc .dd .ee .aa .bb X 7 6,
   JJ .bb .cc .dd .ee .aa X 12 8,
   JJ .aa .bb .cc .dd .ee X 2 13,
   JJ .ee .aa .bb .cc .dd X 10 12,
   JJ .dd .ee .aa .bb .cc X 14 5,
   JJ .cc .dd .ee .aa .bb X 1 12,
   JJ .bb .cc .dd .ee .aa X 3 13,
   JJ .aa .bb .cc .dd .ee X 8 14,
   JJ .ee .aa .bb .cc .dd X 11 11,
   JJ .dd .ee .aa .bb .cc X 6 8,
   JJ .cc .dd .ee .aa .bb X 15 5,
   JJ .bb .cc .dd .ee .aa X 13 6]

def rightLine (X : List UInt32) : List Operation :=
  [
   -- parallel round 1
   JJJ .aa .bb .cc .dd .ee X 5 8,
   JJJ .ee .aa .bb .cc .dd X 14 9,
   JJJ .dd .ee .aa .bb .cc X 7 9,
   JJJ .cc .dd .ee .aa .bb X 0 11,
   JJJ .bb .cc .dd .ee .aa X 9 13,
   JJJ .aa .bb .cc .dd .ee X 2 15,
   JJJ .ee .aa .bb .cc .dd X 11 15,
   JJJ .dd .ee .aa .bb .cc X 4 5,
   JJJ .cc .dd .ee .aa .bb X 13 7,
   JJJ .bb .cc .dd .ee .aa X 6 7,
   JJJ .aa .bb .cc .dd .ee X 15 8,
   JJJ .ee .aa .bb .cc .dd X 8 11,
   JJJ .dd .ee .aa .bb .cc X 1 14,
   JJJ .cc .dd .ee .aa .bb X 10 14,
   JJJ .bb .cc .dd .ee .aa X 3 12,
   JJJ .aa .bb .cc .dd .ee X 12 6,
   -- parallel round 2
   III .ee .aa .bb .cc .dd X 6 9,
   III .dd .ee .aa .bb .cc X 11 13,
   III .cc .dd .ee .aa .bb X 3 15,
   III .bb .cc .dd .ee .aa X 7 7,
   III .aa .bb .cc .dd .ee X 0 12,
   III .ee .aa .bb .cc .dd X 13 8,
   III .dd .ee .aa .bb .cc X 5 9,
   III .cc .dd .ee .aa .bb X 10 11,
   III .bb .cc .dd .ee .aa X 14 7,
   III .aa .bb .cc .dd .ee X 15 7,
   III .ee .aa .bb .cc .dd X 8 12,
   III .dd .ee .aa .bb .cc X 12 7,
   III .cc .dd .ee .aa .bb X 4 6,
   III .bb .cc .dd .ee .aa X 9 15,
   III .aa .bb .cc .dd .ee X 1 13,
   III .ee .aa .bb .cc .dd X 2 11,
   -- parallel round 3
   HHH .dd .ee .aa .bb .cc X 15 9,
   HHH .cc .dd .ee .aa .bb X 5 7,
   HHH .bb .cc .dd .ee .aa X 1 15,
   HHH .aa .bb .cc .dd .ee X 3 11,
   HHH .ee .aa .bb .cc .dd X 7 8,
   HHH .dd .ee .aa .bb .cc X 14 6,
   HHH .cc .dd .ee .aa .bb X 6 6,
   HHH .bb .cc .dd .ee .aa X 9 14,
   HHH .aa .bb .cc .dd .ee X 11 12,
   HHH .ee .aa .bb .cc .dd X 8 13,
   HHH .dd .ee .aa .bb .cc X 12 5,
   HHH .cc .dd .ee .aa .bb X 2 14,
   HHH .bb .cc .dd .ee .aa X 10 13,
   HHH .aa .bb .cc .dd .ee X 0 13,
   HHH .ee .aa .bb .cc .dd X 4 7,
   HHH .dd .ee .aa .bb .cc X 13 5,
   -- parallel round 4
   GGG .cc .dd .ee .aa .bb X 8 15,
   GGG .bb .cc .dd .ee .aa X 6 5,
   GGG .aa .bb .cc .dd .ee X 4 8,
   GGG .ee .aa .bb .cc .dd X 1 11,
   GGG .dd .ee .aa .bb .cc X 3 14,
   GGG .cc .dd .ee .aa .bb X 11 14,
   GGG .bb .cc .dd .ee .aa X 15 6,
   GGG .aa .bb .cc .dd .ee X 0 14,
   GGG .ee .aa .bb .cc .dd X 5 6,
   GGG .dd .ee .aa .bb .cc X 12 9,
   GGG .cc .dd .ee .aa .bb X 2 12,
   GGG .bb .cc .dd .ee .aa X 13 9,
   GGG .aa .bb .cc .dd .ee X 9 12,
   GGG .ee .aa .bb .cc .dd X 7 5,
   GGG .dd .ee .aa .bb .cc X 10 15,
   GGG .cc .dd .ee .aa .bb X 14 8,
   -- parallel round 5
   FFF .bb .cc .dd .ee .aa X 12 8,
   FFF .aa .bb .cc .dd .ee X 15 5,
   FFF .ee .aa .bb .cc .dd X 10 12,
   FFF .dd .ee .aa .bb .cc X 4 9,
   FFF .cc .dd .ee .aa .bb X 1 12,
   FFF .bb .cc .dd .ee .aa X 5 5,
   FFF .aa .bb .cc .dd .ee X 8 14,
   FFF .ee .aa .bb .cc .dd X 7 6,
   FFF .dd .ee .aa .bb .cc X 6 8,
   FFF .cc .dd .ee .aa .bb X 2 13,
   FFF .bb .cc .dd .ee .aa X 13 6,
   FFF .aa .bb .cc .dd .ee X 14 5,
   FFF .ee .aa .bb .cc .dd X 0 15,
   FFF .dd .ee .aa .bb .cc X 3 13,
   FFF .cc .dd .ee .aa .bb X 9 11,
   FFF .bb .cc .dd .ee .aa X 11 11]

/-- The five words of `MDbuf`. -/
structure MDbuf where
  w0 : UInt32
  w1 : UInt32
  w2 : UInt32
  w3 : UInt32
  w4 : UInt32
deriving DecidableEq, Repr, Inhabited

def MDinit : MDbuf := ⟨0x67452301, 0xefcdab89, 0x98badcfe, 0x10325476, 0xc3d2e1f0⟩

/-- The variables at the start of a line. -/
def MDbuf.line (buf : MDbuf) : Line := ⟨buf.w0, buf.w1, buf.w2, buf.w3, buf.w4⟩

def compress (buf : MDbuf) (X : List UInt32) : MDbuf :=
  let left := (leftLine X).foldl (fun line op => op line) buf.line
  let right := (rightLine X).foldl (fun line op => op line) buf.line
  { w0 := right.dd + (left.cc + buf.w1)
    w1 := buf.w2 + left.dd + right.ee
    w2 := buf.w3 + left.ee + right.aa
    w3 := buf.w4 + left.aa + right.bb
    w4 := buf.w0 + left.bb + right.cc }

/-- Byte `i` goes into word `i / 4`. -/
def xorByte (X : List UInt32) (i : Nat) (byte : UInt8) : List UInt32 :=
  X.modify (i / 4) (fun word => word ^^^ (byte.toUInt32 <<< UInt32.ofNat (8 * (i % 4))))

/-- `strptr` points to the bytes behind the last whole block. -/
def MDfinish (buf : MDbuf) (strptr : List UInt8) (lswlen mswlen : UInt32) : MDbuf :=
  let X := List.replicate 16 0
  let X := (List.range (lswlen &&& 63).toNat).foldl (fun X i => xorByte X i (strptr.getD i 0)) X
  let X := X.modify ((lswlen >>> 2) &&& 15).toNat
    (fun word => word ^^^ ((1 : UInt32) <<< (8 * (lswlen &&& 3) + 7)))
  let (buf, X) := if (lswlen &&& 63) > 55 then (compress buf X, List.replicate 16 0) else (buf, X)
  let X := X.set 14 (lswlen <<< 3)
  let X := X.set 15 ((lswlen >>> 29) ||| (mswlen <<< 3))
  compress buf X

def BYTES_TO_DWORD (strptr : List UInt8) : UInt32 :=
  ((strptr.getD 3 0).toUInt32 <<< 24) ||| ((strptr.getD 2 0).toUInt32 <<< 16) |||
    ((strptr.getD 1 0).toUInt32 <<< 8) ||| (strptr.getD 0 0).toUInt32

/-- The 16 words that the loop over `i` collects. -/
def collect (message : List UInt8) : List UInt32 :=
  (List.range 16).map (fun i => BYTES_TO_DWORD (message.drop (4 * i)))

/-- The loop over the whole blocks, and the bytes that are left. -/
def wholeBlocks (buf : MDbuf) (message : List UInt8) : MDbuf × List UInt8 :=
  if message.length > 63 then wholeBlocks (compress buf (collect message)) (message.drop 64)
  else (buf, message)
termination_by message.length

/-- The four bytes that the last loop stores for a word. -/
def wordBytes (w : UInt32) : List UInt8 :=
  [w.toUInt8, (w >>> 8).toUInt8, (w >>> 16).toUInt8, (w >>> 24).toUInt8]

def MDbuf.words (buf : MDbuf) : List UInt32 := [buf.w0, buf.w1, buf.w2, buf.w3, buf.w4]

def computeRIPEMD160 (message : Memory) (length : UInt32) : List UInt8 :=
  let (buf, rest) := wholeBlocks MDinit (window message 0 length.toNat)
  (MDfinish buf rest length 0).words.flatMap wordBytes

end bitcoinstats.ripemd160
