-- The hash function of `SHA256.cpp`: a context that is fed with bytes, its
-- 64 byte buffer, and the rounds over one block.
import BitcoinStats.Library.BlockHash
import BitcoinStats.Library.Cells
import BitcoinStats.Library.Words

open byte_memory byte_words cells

namespace bitcoinstats.sha256

/-! ## One block -/

def ROTL (x n : UInt32) : UInt32 := (x <<< n) ||| (x >>> (32 - n))
def ROTR (x n : UInt32) : UInt32 := (x >>> n) ||| (x <<< (32 - n))

def Ch (x y z : UInt32) : UInt32 := z ^^^ (x &&& (y ^^^ z))
def Maj (x y z : UInt32) : UInt32 := (x &&& (y ||| z)) ||| (y &&& z)
def SIGMA0 (x : UInt32) : UInt32 := ROTR x 2 ^^^ ROTR x 13 ^^^ ROTR x 22
def SIGMA1 (x : UInt32) : UInt32 := ROTR x 6 ^^^ ROTR x 11 ^^^ ROTR x 25
def sigma0 (x : UInt32) : UInt32 := ROTR x 7 ^^^ ROTR x 18 ^^^ (x >>> 3)
def sigma1 (x : UInt32) : UInt32 := ROTR x 17 ^^^ ROTR x 19 ^^^ (x >>> 10)

def K : List UInt32 :=
  [0x428a2f98, 0x71374491, 0xb5c0fbcf, 0xe9b5dba5,
   0x3956c25b, 0x59f111f1, 0x923f82a4, 0xab1c5ed5,
   0xd807aa98, 0x12835b01, 0x243185be, 0x550c7dc3,
   0x72be5d74, 0x80deb1fe, 0x9bdc06a7, 0xc19bf174,
   0xe49b69c1, 0xefbe4786, 0x0fc19dc6, 0x240ca1cc,
   0x2de92c6f, 0x4a7484aa, 0x5cb0a9dc, 0x76f988da,
   0x983e5152, 0xa831c66d, 0xb00327c8, 0xbf597fc7,
   0xc6e00bf3, 0xd5a79147, 0x06ca6351, 0x14292967,
   0x27b70a85, 0x2e1b2138, 0x4d2c6dfc, 0x53380d13,
   0x650a7354, 0x766a0abb, 0x81c2c92e, 0x92722c85,
   0xa2bfe8a1, 0xa81a664b, 0xc24b8b70, 0xc76c51a3,
   0xd192e819, 0xd6990624, 0xf40e3585, 0x106aa070,
   0x19a4c116, 0x1e376c08, 0x2748774c, 0x34b0bcb5,
   0x391c0cb3, 0x4ed8aa4a, 0x5b9cca4f, 0x682e6ff3,
   0x748f82ee, 0x78a5636f, 0x84c87814, 0x8cc70208,
   0x90befffa, 0xa4506ceb, 0xbef9a3f7, 0xc67178f2]

def BYTESWAP (x : UInt32) : UInt32 :=
  (ROTR x 8 &&& 0xff00ff00) ||| (ROTL x 8 &&& 0x00ff00ff)

def byteswap64 (x : UInt64) : UInt64 :=
  let a := (x >>> 32).toUInt32
  let b := x.toUInt32
  ((BYTESWAP b).toUInt64 <<< 32) ||| (BYTESWAP a).toUInt64

/-- Eight words: the entries 0 to 7 of `hash`, and the variables `a` to `h` of the rounds. -/
structure Registers where
  a : UInt32
  b : UInt32
  c : UInt32
  d : UInt32
  e : UInt32
  f : UInt32
  g : UInt32
  h : UInt32
deriving DecidableEq, Repr, Inhabited

def DO_ROUND (r : Registers) (k w : UInt32) : Registers :=
  let t1 := r.h + SIGMA1 r.e + Ch r.e r.f r.g + k + w
  let t2 := SIGMA0 r.a + Maj r.a r.b r.c
  { h := r.g, g := r.f, f := r.e, e := r.d + t1, d := r.c, c := r.b, b := r.a, a := t1 + t2 }

/-- One turn of the loop that fills `buf` behind its first 16 words. In turn `i` the pointers `W2`,
`W7`, `W15` and `W16` have moved `i` words from where they started. -/
def expandTurn (buf : List UInt32) (i : Nat) : List UInt32 :=
  buf ++ [sigma1 (buf.getD (14 + i) 0) + buf.getD (9 + i) 0 + sigma0 (buf.getD (1 + i) 0) +
    buf.getD i 0]

/-- The 64 words of `buf`. -/
def messageWords (cbuf : List UInt32) : List UInt32 :=
  (List.range 48).foldl expandTurn (cbuf.map BYTESWAP)

/-- The sums that end `SHA256Guts`. -/
def Registers.add (hash r : Registers) : Registers where
  a := hash.a + r.a
  b := hash.b + r.b
  c := hash.c + r.c
  d := hash.d + r.d
  e := hash.e + r.e
  f := hash.f + r.f
  g := hash.g + r.g
  h := hash.h + r.h

def SHA256Guts (hash : Registers) (cbuf : List UInt32) : Registers :=
  hash.add ((K.zip (messageWords cbuf)).foldl (fun r kw => DO_ROUND r kw.1 kw.2) hash)

/-! ## The context -/

/-- The byte view of the union `buffer`. -/
abbrev Buffer := { bytes : List UInt8 // bytes.length = 64 }

structure sha256_ctx_t where
  totalLength : UInt64
  hash : Registers
  bufferLength : Nat
  buffer : Buffer

/-- It leaves the buffer as it is. -/
def sha256_init (sc : sha256_ctx_t) : sha256_ctx_t :=
  { sc with
    totalLength := 0
    hash :=
      { a := 0x6a09e667, b := 0xbb67ae85, c := 0x3c6ef372, d := 0xa54ff53a
        e := 0x510e527f, f := 0x9b05688c, g := 0x1f83d9ab, h := 0x5be0cd19 }
    bufferLength := 0 }

/-- `memcpy` to a place of the buffer. It fails where the bytes do not fit. -/
def memcpy (buffer : Buffer) (place : Nat) (bytes : List UInt8) : Option Buffer :=
  if h : place + bytes.length ≤ buffer.val.length then
    some ⟨overwrite buffer.val place bytes, (overwrite_length h).trans buffer.property⟩
  else none

/-- The first part of `sha256_update`: what a buffer in use takes, and the bytes that are left. -/
def fillBuffer (sc : sha256_ctx_t) (data : List UInt8) : Option (sha256_ctx_t × List UInt8) :=
  if sc.bufferLength ≠ 0 then do
    let bufferBytesLeft := 64 - sc.bufferLength
    let bytesToCopy := min bufferBytesLeft data.length
    let buffer ← memcpy sc.buffer sc.bufferLength (data.take bytesToCopy)
    let totalLength := sc.totalLength + UInt64.ofNat (bytesToCopy * 8)
    let bufferLength := sc.bufferLength + bytesToCopy
    if bufferLength = 64 then
      some
        (⟨totalLength, SHA256Guts sc.hash (loadWords buffer.val), 0, buffer⟩, data.drop bytesToCopy)
    else
      some (⟨totalLength, sc.hash, bufferLength, buffer⟩, data.drop bytesToCopy)
  else
    some (sc, data)

/-- The loop over the whole blocks in the data. -/
def wholeBlocks (sc : sha256_ctx_t) (data : List UInt8) : sha256_ctx_t × List UInt8 :=
  if data.length > 63 then
    wholeBlocks
      { sc with
        totalLength := sc.totalLength + 512
        hash := SHA256Guts sc.hash (loadWords data) }
      (data.drop 64)
  else (sc, data)
termination_by data.length

/-- The last part: the bytes that are left go into the buffer. -/
def keepRest (sc : sha256_ctx_t) (data : List UInt8) : Option sha256_ctx_t :=
  if data.length ≠ 0 then do
    let buffer ← memcpy sc.buffer sc.bufferLength data
    some
      { sc with
        totalLength := sc.totalLength + UInt64.ofNat (data.length * 8)
        bufferLength := sc.bufferLength + data.length
        buffer := buffer }
  else some sc

def sha256_update (sc : sha256_ctx_t) (data : List UInt8) : Option sha256_ctx_t := do
  let (sc, data) ← fillBuffer sc data
  let (sc, data) := wholeBlocks sc data
  keepRest sc data

def padding : List UInt8 := 0x80 :: List.replicate 63 0

/-- The eight words of `hash` in their order. -/
def Registers.words (r : Registers) : List UInt32 := [r.a, r.b, r.c, r.d, r.e, r.f, r.g, r.h]

/-- The 32 bytes of the digest. -/
def sha256_finalize (sc : sha256_ctx_t) : Option (List UInt8) := do
  let bytesToPad := 120 - sc.bufferLength
  let bytesToPad := if bytesToPad > 64 then bytesToPad - 64 else bytesToPad
  let lengthPad := byteswap64 sc.totalLength
  let sc ← sha256_update sc (padding.take bytesToPad)
  let sc ← sha256_update sc (leBytes 8 lengthPad.toNat)
  some (sc.hash.words.flatMap (fun x => storeWord (BYTESWAP x)))

/-- The context of a stack frame, which holds anything before `sha256_init`. -/
def computeSHA256 (sc : sha256_ctx_t) (input : Memory) (size : UInt32) : Option (List UInt8) := do
  let sc ← sha256_update (sha256_init sc) (window input 0 size.toNat)
  sha256_finalize sc

end bitcoinstats.sha256
