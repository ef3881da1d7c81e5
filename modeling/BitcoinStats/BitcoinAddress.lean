-- Bitcoin addresses (`BitcoinAddress.cpp`): 25 bytes made of a version byte,
-- a RIPEMD-160 hash and a checksum of four bytes, and their ASCII form.
import BitcoinStats.Base58

open byte_memory bitcoinstats.base58

namespace bitcoinstats.bitcoin_address

/-- The two hash functions of `SHA256.cpp` and `RIPEMD160.cpp`. -/
structure Hashes where
  computeSHA256 : List UInt8 → Vector UInt8 32
  computeRIPEMD160 : List UInt8 → Vector UInt8 20
deriving Inhabited

variable (H : Hashes)

/-- `computeSHA256`, and once more on its result. -/
def Hashes.doubleSHA256 (bytes : List UInt8) : Vector UInt8 32 :=
  H.computeSHA256 (H.computeSHA256 bytes).toList

/-- The `n` bytes at a pointer. -/
def bytesAt (mem : Memory) (p n : Nat) : Vector UInt8 n := Vector.ofFn (fun i => mem (p + i))

theorem bytesAt_of_holds {n p : Nat} {mem : Memory} {v : Vector UInt8 n}
    (h : Holds mem p v.toList) : bytesAt mem p n = v := by
  rw [holds_iff] at h
  apply Vector.ext
  intro i hi
  have hb := h i (by simpa using hi)
  simpa [bytesAt] using hb

/-- The first 21 bytes of an address: the network byte and the hash. -/
def versioned (version : UInt8) (ripeMD160 : Vector UInt8 20) : Vector UInt8 21 :=
  #v[version] ++ ripeMD160

/-- The four checksum bytes of the first 21 bytes. -/
def checksum (first21 : Vector UInt8 21) : Vector UInt8 4 :=
  let hash1 := H.doubleSHA256 first21.toList
  #v[hash1[0], hash1[1], hash1[2], hash1[3]]

/-- The 25 bytes that all four functions below store. -/
def toAddress (version : UInt8) (ripeMD160 : Vector UInt8 20) : Vector UInt8 25 :=
  versioned version ripeMD160 ++ checksum H (versioned version ripeMD160)

/-- It stores nothing when the key does not start with 4. -/
def bitcoinPublicKeyToAddress (input : Memory) (output : Vector UInt8 25) :
    Bool × Vector UInt8 25 :=
  if input 0 = 0x04 then
    let hash1 := H.computeSHA256 (window input 0 65)
    (true, toAddress H 0 (H.computeRIPEMD160 hash1.toList))
  else (false, output)

/-- It stores nothing when the key does not start with 2 or 3. -/
def bitcoinCompressedPublicKeyToAddress (input : Memory) (output : Vector UInt8 25) :
    Bool × Vector UInt8 25 :=
  if input 0 = 0x02 ∨ input 0 = 0x03 then
    let hash1 := H.computeSHA256 (window input 0 33)
    (true, toAddress H 0 (H.computeRIPEMD160 hash1.toList))
  else (false, output)

def bitcoinRIPEMD160ToAddress (ripeMD160 : Vector UInt8 20) : Vector UInt8 25 :=
  toAddress H 0 ripeMD160

def bitcoinRIPEMD160ToScriptAddress (ripeMD160 : Vector UInt8 20) : Vector UInt8 25 :=
  toAddress H 5 ripeMD160

/-- What it returns, and the characters that it stores. -/
def bitcoinAddressToAscii (address : Vector UInt8 25) (maxOutputLen : Nat) :
    Option (Bool × List UInt8) :=
  encodeBase58 address.toList 25 true maxOutputLen

/-- The bytes `stored` over the start of `output`. -/
def stored (bytes : List UInt8) (output : Vector UInt8 25) : Vector UInt8 25 :=
  Vector.ofFn (fun i => bytes.getD i output[i])

/-- One checksum byte of four is enough for it to return `true`. -/
def bitcoinAsciiToAddress (input : List UInt8) (output : Vector UInt8 25) :
    Option (Bool × Vector UInt8 25) := do
  let (len, bytes) ← decodeBase58 input 25 true
  let output := stored bytes output
  if len = 25 then
    let checksum := H.doubleSHA256 (output.toList.take 21)
    some (output[21] = checksum[0] ∨ output[22] = checksum[1] ∨
      output[23] = checksum[2] ∨ output[24] = checksum[3], output)
  else some (false, output)

end bitcoinstats.bitcoin_address
