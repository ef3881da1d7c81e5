-- The addresses of public keys with the two hash functions as the program
-- computes them: one address for two keys needs a collision of block functions.
import BitcoinStats.AddressRoundTrip
import BitcoinStats.Ripemd160Digest
import BitcoinStats.Sha256Stream

open byte_memory byte_words block_hash bitcoinstats.bitcoin_address

namespace bitcoinstats.key_addresses

theorem sha256_digest_length (message : List UInt8) : (sha256.digestByGuts message).length = 32 := by
  simp [sha256.digestByGuts, sha256.Registers.words]

theorem ripemd160_digest_length (message : List UInt8) :
    (ripemd160.standard.digest message).length = 20 := by
  simp [ripemd160.standard.digest, ripemd160.MDbuf.words, storeWord]

/-- The two hash functions of the program. -/
def hashes : Hashes where
  computeSHA256 bytes := ⟨(sha256.digestByGuts bytes).toArray, by simp [sha256_digest_length]⟩
  computeRIPEMD160 bytes :=
    ⟨(ripemd160.standard.digest bytes).toArray, by simp [ripemd160_digest_length]⟩

/-- They are what the code stores, for the bytes at any pointer. -/
theorem hashes_of_code (sc : sha256.sha256_ctx_t) (input : Memory) (size : UInt32) :
    sha256.computeSHA256 sc input size =
        some (hashes.computeSHA256 (window input 0 size.toNat)).toList ∧
      ripemd160.computeRIPEMD160 input size =
        (hashes.computeRIPEMD160 (window input 0 size.toNat)).toList := by
  constructor
  · rw [sha256.computeSHA256_eq, ← sha256.digestByGuts_eq]
    rfl
  · rw [ripemd160.computeRIPEMD160_eq]
    rfl

/-- Both functions are the published ones, for every input and every size of the parameter. -/
theorem the_code_hashes_as_published (sc : sha256.sha256_ctx_t) (input : Memory) (size : UInt32) :
    sha256.computeSHA256 sc input size =
        some (sha256.standard.digest (window input 0 size.toNat)) ∧
      ripemd160.computeRIPEMD160 input size =
        ripemd160.standard.digest (window input 0 size.toNat) :=
  ⟨sha256.computeSHA256_eq sc input size, ripemd160.computeRIPEMD160_eq input size⟩

/-! ## Equal hashes -/

theorem computeSHA256_injective {x y : List UInt8} (hx : x.length < 2 ^ 32) (hy : y.length < 2 ^ 32)
    (hfree : ¬ Collide sha256.guts (sha256.gutsCalls x) (sha256.gutsCalls y))
    (h : hashes.computeSHA256 x = hashes.computeSHA256 y) : x = y := by
  by_contra hne
  have hlist : sha256.digestByGuts x = sha256.digestByGuts y := congrArg Vector.toList h
  rw [sha256.digestByGuts_eq, sha256.digestByGuts_eq] at hlist
  exact hfree (sha256.calls_collide hx hy hne hlist)

theorem computeRIPEMD160_injective {x y : List UInt8} (hx : x.length < 2 ^ 32)
    (hy : y.length < 2 ^ 32)
    (hfree : ¬ Collide ripemd160.compressBlock (ripemd160.compressCalls x)
      (ripemd160.compressCalls y))
    (h : hashes.computeRIPEMD160 x = hashes.computeRIPEMD160 y) : x = y := by
  by_contra hne
  exact hfree (ripemd160.calls_collide hx hy hne (congrArg Vector.toList h))

/-! ## The addresses of keys -/

/-- The key bytes of a call, and the address that it stores. -/
inductive KeyAddress : List UInt8 → Vector UInt8 25 → Prop
  | full {input : Memory} (output : Vector UInt8 25) {address : Vector UInt8 25} :
      bitcoinPublicKeyToAddress hashes input output = (true, address) →
        KeyAddress (window input 0 65) address
  | compressed {input : Memory} (output : Vector UInt8 25) {address : Vector UInt8 25} :
      bitcoinCompressedPublicKeyToAddress hashes input output = (true, address) →
        KeyAddress (window input 0 33) address

theorem KeyAddress.length_lt {key : List UInt8} {address : Vector UInt8 25}
    (h : KeyAddress key address) : key.length < 2 ^ 32 := by
  cases h <;> rw [window_length] <;> decide

theorem KeyAddress.eq_toAddress {key : List UInt8} {address : Vector UInt8 25}
    (h : KeyAddress key address) :
    address = toAddress hashes 0 (hashes.computeRIPEMD160 (hashes.computeSHA256 key).toList) := by
  cases h with
  | full output hcall =>
    rw [bitcoinPublicKeyToAddress] at hcall
    split at hcall
    · exact (Prod.mk.inj hcall).2.symm
    · cases (Prod.mk.inj hcall).1
  | compressed output hcall =>
    rw [bitcoinCompressedPublicKeyToAddress] at hcall
    split at hcall
    · exact (Prod.mk.inj hcall).2.symm
    · cases (Prod.mk.inj hcall).1

/-- Two keys of any form have one address only if they are one key, unless two calls of a block
function collide on the way. -/
theorem an_address_has_one_key {key key' : List UInt8} {address address' : Vector UInt8 25}
    (hkey : KeyAddress key address) (hkey' : KeyAddress key' address')
    (hsha : ¬ Collide sha256.guts (sha256.gutsCalls key) (sha256.gutsCalls key'))
    (hripemd : ¬ Collide ripemd160.compressBlock
      (ripemd160.compressCalls (hashes.computeSHA256 key).toList)
      (ripemd160.compressCalls (hashes.computeSHA256 key').toList)) :
    address = address' ↔ key = key' := by
  rw [hkey.eq_toAddress, hkey'.eq_toAddress]
  constructor
  · intro h
    have hsum := computeRIPEMD160_injective (by simp) (by simp) hripemd ((toAddress_inj hashes).mp h)
    exact computeSHA256_injective hkey.length_lt hkey'.length_lt hsha (Vector.toList_inj.mp hsum)
  · rintro rfl
    rfl

/-- Two compressed keys that differ in their first byte. -/
def evenKey : Memory := fun i => if i = 0 then 2 else 0
def oddKey : Memory := fun i => if i = 0 then 3 else 0

def zeros : Vector UInt8 25 := Vector.replicate 25 0

theorem the_address_of_an_even_key_is_not_that_of_the_odd_one :
    (bitcoinCompressedPublicKeyToAddress hashes evenKey zeros).2 =
        (bitcoinCompressedPublicKeyToAddress hashes oddKey zeros).2 ↔
      window evenKey 0 33 = window oddKey 0 33 :=
  an_address_has_one_key (.compressed zeros rfl) (.compressed zeros rfl) (by decide +kernel)
    (by decide +kernel)

end bitcoinstats.key_addresses
