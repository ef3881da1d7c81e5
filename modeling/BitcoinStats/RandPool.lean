-- The random number pool of `rand.h`: in each round the part of the array from
-- `mTop` on holds the numbers that are dealt, in turned order.
import BitcoinStats.Library.Cells

open cells

namespace bitcoinstats.rand

/-! ## The generator and the pool -/

structure Rand where
  mCurrent : BitVec 32
deriving DecidableEq

/-- The product and the sum wrap when they are stored. -/
def Rand.Get (r : Rand) : Int × Rand :=
  let mCurrent := BitVec.ofInt 32 (r.mCurrent.toInt * 214013 + 2531011)
  ((mCurrent &&& 0x7fffffff#32).toInt, { mCurrent })

structure RandPool where
  mRand : Rand
  mData : List Int
  mSize : Int
  mTop : Int
deriving DecidableEq

/-- The numbers of a pool. -/
def numbers (size : Int) : List Int := (List.range size.toNat).map Int.ofNat

def RandPool.new (size : Int) (seed : BitVec 32) : RandPool :=
  { mRand := { mCurrent := seed }, mData := numbers size, mSize := size, mTop := size }

/-- `Get` once the generator has given a number: the remainder of a division by
0 and an access outside of the array fail. -/
def RandPool.deal (pool : RandPool) (random mTop : Int) : Option (Int × RandPool) :=
  if mTop = 0 then none
  else do
    let entry := random.tmod mTop
    let mTop := mTop - 1
    let ret ← load pool.mData entry
    let mData ← exchange pool.mData entry mTop
    return (ret, { pool with mData, mTop })

/-- The number and the flag `shuffled`. -/
def RandPool.Get (pool : RandPool) : Option ((Int × Bool) × RandPool) := do
  let shuffled := decide (pool.mTop = 0)
  let mTop := if pool.mTop = 0 then pool.mSize else pool.mTop
  let (random, mRand) := pool.mRand.Get
  let (ret, pool) ← RandPool.deal { pool with mRand } random mTop
  return ((ret, shuffled), pool)

/-- What the first `n` calls of `Get` return. -/
def RandPool.calls (pool : RandPool) : Nat → Option (List (Int × Bool) × RandPool)
  | 0 => some ([], pool)
  | n + 1 => do
    let (returned, pool) ← pool.calls n
    let (call, pool) ← pool.Get
    return (returned ++ [call], pool)

/-! ## One draw -/

theorem Rand.Get_nonneg (r : Rand) : 0 ≤ r.Get.1 := by
  have hmask : (0x7fffffff#32).msb = false := by decide
  have hmsb : ∀ v : BitVec 32, (v &&& 0x7fffffff#32).msb = false := by
    intro v
    rw [BitVec.msb_and, hmask, Bool.and_false]
  show 0 ≤ (_ &&& _ : BitVec 32).toInt
  rw [BitVec.toInt_eq_toNat_of_msb (hmsb _)]
  exact Int.natCast_nonneg _

theorem numbers_length {size : Int} (h : 1 ≤ size) : ((numbers size).length : Int) = size := by
  rw [numbers, List.length_map, List.length_range]
  omega

/-- The drawn number is exchanged to the place under the ones that are dealt. -/
theorem RandPool.deal_spec (pool : RandPool) {random mTop : Int} (hrandom : 0 ≤ random)
    (hpos : 0 < mTop) (hle : mTop ≤ pool.mData.length) :
    ∃ ret mData, pool.deal random mTop = some (ret, { pool with mData, mTop := mTop - 1 }) ∧
      mData.Perm pool.mData ∧
      mData.drop (mTop - 1).toNat = ret :: pool.mData.drop mTop.toNat := by
  have hmod : random.tmod mTop = random % mTop := Int.tmod_eq_emod_of_nonneg hrandom
  have hentry : Within pool.mData (random.tmod mTop) := by
    have hnonneg := Int.emod_nonneg random (ne_of_gt hpos)
    have hlt := Int.emod_lt_of_pos random hpos
    rw [hmod]
    exact ⟨hnonneg, by omega⟩
  have htop : Within pool.mData (mTop - 1) := ⟨by omega, by omega⟩
  have hentryLt : (random.tmod mTop).toNat < mTop.toNat := by
    have hlt := Int.emod_lt_of_pos random hpos
    rw [hmod]
    omega
  obtain ⟨mData, hexchange, hperm, hget⟩ := exchange_within hentry htop
  refine ⟨pool.mData.getD (random.tmod mTop).toNat 0, mData, ?_, hperm, ?_⟩
  · unfold RandPool.deal
    simp only [Option.bind_eq_bind]
    rw [if_neg (by omega), load_within hentry 0, Option.bind_some, hexchange]
    rfl
  · have hlen := hperm.length_eq
    have hlt : (mTop - 1).toNat < mData.length := by omega
    -- the places from `mTop` on take no part in the exchange
    have hrest : mData.drop mTop.toNat = pool.mData.drop mTop.toNat := by
      apply drop_eq_of_getD hlen
      intro d k hk
      rw [hget, Equiv.swap_apply_of_ne_of_ne (by omega) (by omega)]
    have hdealt : mData[(mTop - 1).toNat] = pool.mData.getD (random.tmod mTop).toNat 0 := by
      have h0 := hget 0 (mTop - 1).toNat
      rw [Equiv.swap_apply_right] at h0
      rw [← h0, List.getD, List.getElem?_eq_getElem hlt, Option.getD_some]
    rw [List.drop_eq_getElem_cons hlt, hdealt, ← hrest]
    congr 2
    omega

/-! ## The rounds -/

/-- After the full rounds and the numbers of the current one: what is dealt in
the current round is the array from `mTop` on. -/
structure Rounds (size : Int) (rounds : List (List Int)) (current : List Int) (pool : RandPool) :
    Prop where
  mSize : pool.mSize = size
  permutation : pool.mData.Perm (numbers size)
  nonneg : 0 ≤ pool.mTop
  le : pool.mTop ≤ size
  full : ∀ round ∈ rounds, round.Perm (numbers size)
  dealt : pool.mData.drop pool.mTop.toNat = current.reverse
  start : pool.mTop = size → rounds = []

variable {size : Int} {rounds : List (List Int)} {current : List Int} {pool : RandPool}

theorem rounds_new (hsize : 1 ≤ size) (seed : BitVec 32) :
    Rounds size [] [] (RandPool.new size seed) := by
  have hlen := numbers_length hsize
  constructor
  · rfl
  · exact List.Perm.refl _
  · show 0 ≤ size
    omega
  · exact le_refl size
  · simp
  · apply List.drop_eq_nil_of_le
    show (numbers size).length ≤ size.toNat
    omega
  · intro _
    rfl

theorem Rounds.data_length (hsize : 1 ≤ size) (h : Rounds size rounds current pool) :
    (pool.mData.length : Int) = size := by
  rw [h.permutation.length_eq]
  exact numbers_length hsize

theorem Rounds.current_length (hsize : 1 ≤ size) (h : Rounds size rounds current pool) :
    (current.length : Int) = size - pool.mTop := by
  have hlen := congrArg List.length h.dealt
  have hdata := h.data_length hsize
  have hle := h.le
  have hnonneg := h.nonneg
  rw [List.length_drop, List.length_reverse] at hlen
  omega

/-- A draw from a pool that is not exhausted goes on with the round. -/
theorem Rounds.draw (hsize : 1 ≤ size) (h : Rounds size rounds current pool) (hpos : 0 < pool.mTop) :
    ∃ ret pool', pool.Get = some ((ret, false), pool') ∧
      Rounds size rounds (current ++ [ret]) pool' := by
  have hdata := h.data_length hsize
  have hle := h.le
  obtain ⟨ret, mData, hdeal, hperm, hdrop⟩ :=
    RandPool.deal_spec { pool with mRand := pool.mRand.Get.2 } pool.mRand.Get_nonneg hpos
      (by simpa [hdata] using hle)
  refine ⟨ret, { pool with mRand := pool.mRand.Get.2, mData, mTop := pool.mTop - 1 }, ?_, ?_⟩
  · unfold RandPool.Get
    simp only [Option.bind_eq_bind]
    rw [if_neg (by omega), hdeal, Option.bind_some]
    simp [ne_of_gt hpos]
  · constructor
    · exact h.mSize
    · exact hperm.trans h.permutation
    · show 0 ≤ pool.mTop - 1
      omega
    · show pool.mTop - 1 ≤ size
      omega
    · exact h.full
    · rw [List.reverse_append, List.reverse_singleton, List.singleton_append, ← h.dealt]
      exact hdrop
    · intro htop
      have htop' : pool.mTop - 1 = size := htop
      omega

/-- A draw from an exhausted pool begins a round. -/
theorem Rounds.shuffle (hsize : 1 ≤ size) (h : Rounds size rounds current pool)
    (hzero : pool.mTop = 0) :
    ∃ ret pool', pool.Get = some ((ret, true), pool') ∧
      Rounds size (rounds ++ [current]) [ret] pool' := by
  have hdata := h.data_length hsize
  have hmSize := h.mSize
  obtain ⟨ret, mData, hdeal, hperm, hdrop⟩ :=
    RandPool.deal_spec { pool with mRand := pool.mRand.Get.2 } pool.mRand.Get_nonneg
      (show 0 < pool.mSize by omega) (by simp only; omega)
  refine ⟨ret, { pool with mRand := pool.mRand.Get.2, mData, mTop := pool.mSize - 1 }, ?_, ?_⟩
  · unfold RandPool.Get
    simp only [Option.bind_eq_bind]
    rw [if_pos hzero, hdeal, Option.bind_some]
    simp [hzero]
  · constructor
    · exact h.mSize
    · exact hperm.trans h.permutation
    · show 0 ≤ pool.mSize - 1
      omega
    · show pool.mSize - 1 ≤ size
      omega
    · -- the whole array is dealt
      have hwhole : current.reverse = pool.mData := by
        rw [← h.dealt, hzero]
        rfl
      intro round hround
      rcases List.mem_append.mp hround with hold | hnew
      · exact h.full round hold
      · obtain rfl := List.mem_singleton.mp hnew
        exact (List.reverse_perm _).symm.trans (hwhole ▸ h.permutation)
    · have hnil : pool.mData.drop pool.mSize.toNat = [] :=
        List.drop_eq_nil_of_le (by omega)
      simp only at hdrop
      rw [hdrop, hnil]
      rfl
    · intro htop
      have htop' : pool.mSize - 1 = size := htop
      omega

/-! ## All calls -/

/-- The pieces of one length in a row, one by one. -/
theorem piece_of_flatten {s : Nat} (pieces : List (List Int)) (rest : List Int)
    (hlen : ∀ piece ∈ pieces, piece.length = s) {k : Nat} (hk : k < pieces.length) :
    ((pieces.flatten ++ rest).drop (k * s)).take s = pieces[k] := by
  induction pieces generalizing k with
  | nil => simp at hk
  | cons piece pieces ih =>
    have hpiece := hlen piece (List.mem_cons_self ..)
    rw [List.flatten_cons, List.append_assoc]
    cases k with
    | zero => simp [← hpiece]
    | succ k =>
      have hdrop : (k + 1) * s = piece.length + k * s := by
        rw [hpiece, Nat.succ_mul, Nat.add_comm]
      rw [hdrop, List.drop_append, List.drop_eq_nil_of_le (Nat.le_add_right _ _)]
      simpa using ih (fun l hl => hlen l (List.mem_cons_of_mem _ hl)) (by simpa using hk)

/-- What the calls so far have returned, in rounds, with the flags. -/
structure Dealt (size : Int) (rounds : List (List Int)) (current : List Int)
    (returned : List (Int × Bool)) (pool : RandPool) : Prop extends
    Rounds size rounds current pool where
  values : returned.map Prod.fst = rounds.flatten ++ current
  flags : ∀ i call, returned[i]? = some call →
    (call.2 = true ↔ ∃ k, 1 ≤ k ∧ i = k * size.toNat)

variable {returned : List (Int × Bool)}

theorem Rounds.round_length (hsize : 1 ≤ size) (h : Rounds size rounds current pool) :
    ∀ round ∈ rounds, round.length = size.toNat := by
  intro round hround
  have hlen := (h.full round hround).length_eq
  have hnumbers := numbers_length hsize
  omega

theorem Dealt.length (hsize : 1 ≤ size) (h : Dealt size rounds current returned pool) :
    returned.length = rounds.length * size.toNat + current.length := by
  have hlen := congrArg List.length h.values
  rw [List.length_map, List.length_append, List.length_flatten,
    List.map_eq_replicate_iff.mpr (h.round_length hsize), List.sum_replicate] at hlen
  simpa using hlen

/-- The flag of the next call is right. -/
theorem flags_snoc (hflags : ∀ i call, returned[i]? = some call →
      (call.2 = true ↔ ∃ k, 1 ≤ k ∧ i = k * size.toNat)) {call : Int × Bool}
    (hcall : call.2 = true ↔ ∃ k, 1 ≤ k ∧ returned.length = k * size.toNat) :
    ∀ i c, (returned ++ [call])[i]? = some c →
      (c.2 = true ↔ ∃ k, 1 ≤ k ∧ i = k * size.toNat) := by
  intro i c hc
  rcases lt_trichotomy i returned.length with hlt | heq | hgt
  · rw [List.getElem?_append_left hlt] at hc
    exact hflags i c hc
  · subst heq
    rw [List.getElem?_concat_length] at hc
    obtain rfl := Option.some.inj hc
    exact hcall
  · rw [List.getElem?_eq_none (by simp; omega)] at hc
    simp at hc

/-- One more call. -/
theorem Dealt.Get (hsize : 1 ≤ size) (h : Dealt size rounds current returned pool) :
    ∃ call pool' rounds' current', pool.Get = some (call, pool') ∧
      Dealt size rounds' current' (returned ++ [call]) pool' := by
  have hlen := h.length hsize
  have hcurrent := h.current_length hsize
  have hle := h.le
  rcases h.nonneg.eq_or_lt with hzero | hpos
  · obtain ⟨ret, pool', hget, hrounds⟩ := h.shuffle hsize hzero.symm
    refine ⟨(ret, true), pool', _, _, hget, hrounds, ?_, flags_snoc h.flags ?_⟩
    · rw [List.map_append, h.values]
      simp
    · simp only [true_iff]
      refine ⟨rounds.length + 1, by omega, ?_⟩
      rw [hlen, Nat.succ_mul]
      omega
  · obtain ⟨ret, pool', hget, hrounds⟩ := h.draw hsize hpos
    refine ⟨(ret, false), pool', _, _, hget, hrounds, ?_, flags_snoc h.flags ?_⟩
    · rw [List.map_append, h.values]
      simp
    · simp only [Bool.false_eq_true, false_iff]
      rintro ⟨k, hk, heq⟩
      -- only before the first call is a multiple of the size reached with the pool full
      have hmod : current.length = 0 := by
        have hrem := congrArg (· % size.toNat) (hlen.symm.trans heq)
        simp only [Nat.mul_add_mod_self_right, Nat.mul_mod_left] at hrem
        rwa [Nat.mod_eq_of_lt (by omega)] at hrem
      have hrounds0 := h.start (by omega)
      subst hrounds0
      have hpos' : 0 < k * size.toNat := Nat.mul_pos hk (by omega)
      simp at hlen
      omega

theorem dealt_calls (hsize : 1 ≤ size) (seed : BitVec 32) (n : Nat) :
    ∃ returned pool rounds current, (RandPool.new size seed).calls n = some (returned, pool) ∧
      Dealt size rounds current returned pool ∧ returned.length = n := by
  induction n with
  | zero =>
    refine ⟨[], _, [], [], rfl, ⟨rounds_new hsize seed, by simp, ?_⟩, rfl⟩
    intro i call hcall
    simp at hcall
  | succ n ih =>
    obtain ⟨returned, pool, rounds, current, hcalls, hdealt, hlen⟩ := ih
    obtain ⟨call, pool', rounds', current', hget, hdealt'⟩ := hdealt.Get hsize
    refine ⟨returned ++ [call], pool', rounds', current', ?_, hdealt', ?_⟩
    · unfold RandPool.calls
      simp only [Option.bind_eq_bind]
      rw [hcalls, Option.bind_some]
      simp [hget]
    · rw [List.length_append, hlen, List.length_singleton]

/-- The numbers of a finished round. -/
theorem Dealt.round (hsize : 1 ≤ size) (h : Dealt size rounds current returned pool) {k : Nat}
    (hk : (k + 1) * size.toNat ≤ returned.length) :
    (((returned.drop (k * size.toNat)).take size.toNat).map Prod.fst).Perm (numbers size) := by
  have hlen := h.length hsize
  have hcurrent := h.current_length hsize
  have hnonneg := h.nonneg
  have hround := h.round_length hsize
  rw [List.map_take, List.map_drop, h.values]
  by_cases hlt : k < rounds.length
  · rw [piece_of_flatten rounds current hround hlt]
    exact h.full _ (List.getElem_mem hlt)
  · -- the current round is the one asked for, and it is complete
    have hkeq : k = rounds.length := by
      by_contra hne
      have hmul : (rounds.length + 2) * size.toNat ≤ (k + 1) * size.toNat :=
        Nat.mul_le_mul_right _ (by omega)
      rw [Nat.add_mul] at hmul
      omega
    subst hkeq
    rw [Nat.succ_mul] at hk
    have htop : pool.mTop = 0 := by omega
    have hwhole : current.reverse = pool.mData := by
      rw [← h.dealt, htop]
      rfl
    have hflat : (rounds.flatten).length = rounds.length * size.toNat := by
      rw [List.length_flatten, List.map_eq_replicate_iff.mpr hround, List.sum_replicate]
      simp
    rw [← hflat, List.drop_left, List.take_of_length_le (by omega)]
    exact (List.reverse_perm _).symm.trans (hwhole ▸ h.permutation)

/-- The promise of the pool: in each round every number is dealt once, and the
flag stands at the first call of each round but the first one. -/
theorem every_round_deals_each_number_once (size : Int) (hsize : 1 ≤ size) (seed : BitVec 32)
    (n : Nat) :
    ∃ returned pool, (RandPool.new size seed).calls n = some (returned, pool) ∧
      returned.length = n ∧ pool.mData.Perm (numbers size) ∧ 0 ≤ pool.mTop ∧ pool.mTop ≤ size ∧
      (∀ k, (k + 1) * size.toNat ≤ n →
        (((returned.drop (k * size.toNat)).take size.toNat).map Prod.fst).Perm (numbers size)) ∧
      ∀ i call, returned[i]? = some call →
        (call.2 = true ↔ ∃ k, 1 ≤ k ∧ i = k * size.toNat) := by
  obtain ⟨returned, pool, rounds, current, hcalls, hdealt, hlen⟩ := dealt_calls hsize seed n
  refine ⟨returned, pool, hcalls, hlen, hdealt.permutation, hdealt.nonneg, hdealt.le, ?_,
    hdealt.flags⟩
  intro k hk
  exact hdealt.round hsize (by omega)

/-- The deck of cards of the source's comment. -/
theorem deck_of_52 :
    ∃ returned pool, (RandPool.new 52 0).calls 105 = some (returned, pool) ∧
      returned.length = 105 ∧ pool.mData.Perm (numbers 52) ∧ 0 ≤ pool.mTop ∧ pool.mTop ≤ 52 ∧
      (∀ k, (k + 1) * (52 : Int).toNat ≤ 105 →
        (((returned.drop (k * (52 : Int).toNat)).take (52 : Int).toNat).map Prod.fst).Perm
          (numbers 52)) ∧
      ∀ i call, returned[i]? = some call →
        (call.2 = true ↔ ∃ k, 1 ≤ k ∧ i = k * (52 : Int).toNat) :=
  every_round_deals_each_number_once 52 (by decide) 0 105

end bitcoinstats.rand
