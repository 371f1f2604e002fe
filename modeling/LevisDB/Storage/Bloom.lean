import LevisDB.Core.Bytes
import Mathlib.Data.Nat.Bitwise

/-!
# Bloom filter

Each table carries a bloom filter over the hashes of its user keys. The bit
array length is a power of two, so a probe reduces the hash with a mask; the
probe count is stored in the last byte. Bits are only ever set while the filter
is built, so every hash it was built from still answers "maybe".
-/

namespace LevisDB

open List

variable {hashes : List UInt32} {out : List UInt8} {m n : Nat} {bit : UInt32}

structure BloomFilter where
  bitsPerKey : Nat

def newBloom (bitsPerKey : Int) : BloomFilter :=
  ⟨if bitsPerKey < 1 then 1 else bitsPerKey.toNat⟩

/-- `round(bitsPerKey * 0.69)` clamped to `1..30`. -/
def BloomFilter.probes (b : BloomFilter) : Nat :=
  let k := (69 * b.bitsPerKey + 50) / 100
  if k < 1 then 1 else if 30 < k then 30 else k

def roundUp (nbytes : Nat) : Nat :=
  if nbytes &&& (nbytes - 1) ≠ 0 then 2 ^ (Nat.log2 nbytes + 1) else nbytes

/-- The smallest power-of-two byte count of at least `minBits` bits and at least 8 bytes. -/
def pow2Bytes (minBits : Nat) : Nat := roundUp (max ((minBits + 7) / 8) 8)

def rotateLeft15 (h : UInt32) : UInt32 := (h <<< 15) ||| (h >>> 17)

/-- The bits `k` rounds of double hashing visit. -/
def probeBits : Nat → UInt32 → UInt32 → UInt32 → List UInt32
  | 0, _, _, _ => []
  | k + 1, mask, delta, h => (h &&& mask) :: probeBits k mask delta (h + delta)

def byteIndex (bit : UInt32) : Nat := (bit >>> 3).toNat

def bitMask (bit : UInt32) : UInt8 := 1 <<< (bit &&& 7).toUInt8

def setBit (out : List UInt8) (bit : UInt32) : List UInt8 :=
  out.modify (byteIndex bit) (· ||| bitMask bit)

def testBit (out : List UInt8) (bit : UInt32) : Bool :=
  out.getD (byteIndex bit) 0 &&& bitMask bit ≠ 0

/-- The array of `build` for a given probe count and size. -/
def fillFilter (k nbytes : Nat) (hashes : List UInt32) : Bytes :=
  let mask := UInt32.ofNat (nbytes * 8) - 1
  let out := replicate nbytes (0 : UInt8) ++ [UInt8.ofNat k]
  (hashes.flatMap fun h => probeBits k mask (rotateLeft15 h) h).foldl setBit out

def BloomFilter.build (b : BloomFilter) (hashes : List UInt32) : Bytes :=
  fillFilter b.probes (pow2Bytes (hashes.length * b.bitsPerKey)) hashes

/-- `pow2Bytes` over machine words: the sum may wrap, and then the floor applies. -/
def pow2Bytes64 (minBits : Int64) : Nat := roundUp (max ((minBits + 7) / 8).toInt 8).toNat

/-- `build` over machine words: the bit count is a product that may wrap. -/
def build64 (bitsPerKey : Int64) (k : Nat) (hashes : List UInt32) : Bytes :=
  let bitsPerKey := if bitsPerKey < 1 then 1 else bitsPerKey
  fillFilter k (pow2Bytes64 (Int64.ofNat hashes.length * bitsPerKey)) hashes

def bloomMayContain (filter : Bytes) (hash : UInt32) : Bool :=
  if filter.length < 2 then false
  else
    let k := (filter.getD (filter.length - 1) 0).toNat
    if 30 < k then true
    else
      let nbytes := filter.length - 1
      let nbits := UInt32.ofNat (nbytes * 8)
      if nbytes &&& (nbytes - 1) = 0 then
        (probeBits k (nbits - 1) (rotateLeft15 hash) hash).all (testBit filter)
      else
        (moduloBits k nbits (rotateLeft15 hash) hash).all (testBit filter)
where
  /-- The probes of a filter whose length is not a power of two. -/
  moduloBits : Nat → UInt32 → UInt32 → UInt32 → List UInt32
    | 0, _, _, _ => []
    | k + 1, nbits, delta, h => (h % nbits) :: moduloBits k nbits delta (h + delta)

def bloomHash (key : Key) : UInt32 :=
  let h := key.foldl (fun (h : UInt32) c => (h ^^^ c.toUInt32) * 16777619) 2166136261
  let h := (h ^^^ (h >>> 15)) * 0x2c1b3c6d
  h ^^^ (h >>> 12)

@[simp] theorem setBit_length (out : List UInt8) (bit : UInt32) :
    (setBit out bit).length = out.length := by
  simp [setBit]

theorem setBit_getD (out : List UInt8) (bit : UInt32) (i : Nat) :
    (setBit out bit).getD i 0 =
      if byteIndex bit = i ∧ i < out.length then out.getD i 0 ||| bitMask bit
      else out.getD i 0 := by
  by_cases hi : i < out.length
  · by_cases hb : byteIndex bit = i
    · simp [setBit, hi, hb]
    · simp [setBit, hi, hb]
  · simp [setBit, hi]

theorem bitMask_ne_zero (bit : UInt32) : bitMask bit ≠ 0 := by
  have hall : ∀ n : Fin 8, (1 : UInt8) <<< UInt8.ofNat n ≠ 0 := by decide
  have hlt : (bit &&& 7).toUInt8.toNat < 8 := by
    have hle : (bit &&& 7).toNat ≤ 7 := by
      simpa using Nat.and_le_right (n := bit.toNat) (m := 7)
    simp only [UInt32.toNat_toUInt8]
    omega
  have heq : UInt8.ofNat (bit &&& 7).toUInt8.toNat = (bit &&& 7).toUInt8 := UInt8.ofNat_toNat
  unfold bitMask
  rw [← heq]
  exact hall ⟨_, hlt⟩

theorem or_and_self_right (x y : UInt8) : (x ||| y) &&& y = y := by
  apply UInt8.toBitVec_inj.1
  ext i hi
  simpa using Or.inr

theorem or_and_ne_zero {x y m : UInt8} (h : x &&& m ≠ 0) : (x ||| y) &&& m ≠ 0 := by
  intro heq
  have hsplit : (x ||| y) &&& m = (x &&& m) ||| (y &&& m) := by
    apply UInt8.toBitVec_inj.1
    ext i hi
    simp [Bool.and_or_distrib_right]
  rw [hsplit, UInt8.or_eq_zero_iff] at heq
  exact h heq.1

theorem testBit_setBit_self
    (h : byteIndex bit < out.length) : testBit (setBit out bit) bit = true := by
  simp only [testBit, setBit_getD, h, and_self, if_true, decide_eq_true_eq, or_and_self_right]
  exact bitMask_ne_zero bit

theorem testBit_setBit_mono {other : UInt32}
    (h : testBit out bit = true) : testBit (setBit out other) bit = true := by
  simp only [testBit, decide_eq_true_eq, setBit_getD] at h ⊢
  split_ifs
  · exact or_and_ne_zero h
  · exact h

theorem testBit_foldl_setBit {bits : List UInt32}
    (h : testBit out bit = true ∨ (bit ∈ bits ∧ byteIndex bit < out.length)) :
    testBit (bits.foldl setBit out) bit = true := by
  induction bits generalizing out with
  | nil => simpa using h
  | cons b bits ih =>
    apply ih
    rcases h with h | ⟨h, hlen⟩
    · exact Or.inl (testBit_setBit_mono h)
    · rcases mem_cons.1 h with rfl | h
      · exact Or.inl (testBit_setBit_self hlen)
      · exact Or.inr ⟨h, by simpa using hlen⟩

theorem foldl_setBit_length (bits : List UInt32) (out : List UInt8) :
    (bits.foldl setBit out).length = out.length := by
  induction bits generalizing out with
  | nil => rfl
  | cons b bits ih => simp [ih]

theorem foldl_setBit_getD {bits : List UInt32} {i : Nat}
    (h : ∀ bit ∈ bits, byteIndex bit < i) :
    (bits.foldl setBit out).getD i 0 = out.getD i 0 := by
  induction bits generalizing out with
  | nil => rfl
  | cons b bits ih =>
    have hb := h b (by simp)
    have hstep : (setBit out b).getD i 0 = out.getD i 0 := by
      rw [setBit_getD, if_neg (by omega)]
    rw [foldl_cons, ih (fun bit hbit => h bit (by simp [hbit])), hstep]

theorem eq_two_pow_of_and_pred (hn : n ≠ 0) (h : n &&& (n - 1) = 0) :
    n = 2 ^ n.log2 := by
  have hle := Nat.log2_self_le hn
  by_contra hne
  -- Otherwise the top bit of `n` is also set in `n - 1`.
  have htop : (n - 1).testBit n.log2 = true :=
    Nat.testBit_of_two_pow_le_and_two_pow_add_one_gt (by omega)
      (by have := Nat.lt_log2_self (n := n); omega)
  have hand : (n &&& (n - 1)).testBit n.log2 = true := by
    rw [Nat.testBit_and, Nat.testBit_log2 hn, htop, Bool.and_self]
  rw [h] at hand
  simp at hand

theorem roundUp_eq_two_pow (hn : 8 ≤ n) :
    ∃ m, 3 ≤ m ∧ roundUp n = 2 ^ m := by
  have hlog : 3 ≤ Nat.log2 n := (Nat.le_log2 (by omega)).2 hn
  unfold roundUp
  split_ifs with h
  · exact ⟨Nat.log2 n + 1, by omega, rfl⟩
  · exact ⟨Nat.log2 n, hlog, eq_two_pow_of_and_pred (by omega) (not_not.1 h)⟩

theorem pow2Bytes_eq_two_pow (minBits : Nat) : ∃ m, 3 ≤ m ∧ pow2Bytes minBits = 2 ^ m :=
  roundUp_eq_two_pow (le_max_right _ _)

theorem pow2Bytes64_eq_two_pow (minBits : Int64) : ∃ m, 3 ≤ m ∧ pow2Bytes64 minBits = 2 ^ m :=
  roundUp_eq_two_pow (by omega)

theorem byteIndex_and_mask_lt (h : UInt32) (m : Nat) :
    byteIndex (h &&& (UInt32.ofNat (2 ^ m * 8) - 1)) < 2 ^ m := by
  have hshift : ∀ x : UInt32, byteIndex x = x.toNat / 8 := by
    intro x
    simp [byteIndex, Nat.shiftRight_eq_div_pow]
  rw [hshift]
  by_cases hm : m < 29
  · have hpow : 2 ^ m * 8 < 2 ^ 32 := by
      calc 2 ^ m * 8 = 2 ^ (m + 3) := by rw [Nat.pow_add]
        _ < 2 ^ 32 := Nat.pow_lt_pow_right (by omega) (by omega)
    have hpos : 0 < 2 ^ m := Nat.two_pow_pos m
    have hof : (UInt32.ofNat (2 ^ m * 8)).toNat = 2 ^ m * 8 := by
      simpa using Nat.mod_eq_of_lt hpow
    have hmask : (UInt32.ofNat (2 ^ m * 8) - 1).toNat = 2 ^ m * 8 - 1 := by
      rw [UInt32.toNat_sub_of_le _ _ (by rw [UInt32.le_iff_toNat_le, hof]; exact (by
        show 1 ≤ _; omega)), hof]
      rfl
    have hle := Nat.and_le_right (n := h.toNat) (m := (UInt32.ofNat (2 ^ m * 8) - 1).toNat)
    rw [UInt32.toNat_and]
    omega
  · have hlt := UInt32.toNat_lt (h &&& (UInt32.ofNat (2 ^ m * 8) - 1))
    have hpow : 2 ^ 29 ≤ 2 ^ m := Nat.pow_le_pow_right (by omega) (by omega)
    omega

theorem mem_probeBits_lt {k : Nat} {delta h : UInt32}
    (hbit : bit ∈ probeBits k (UInt32.ofNat (2 ^ m * 8) - 1) delta h) : byteIndex bit < 2 ^ m := by
  induction k generalizing h with
  | zero => simp [probeBits] at hbit
  | succ k ih =>
    rcases mem_cons.1 hbit with rfl | hbit
    · exact byteIndex_and_mask_lt h m
    · exact ih hbit

theorem probes_le (b : BloomFilter) : b.probes ≤ 30 := by
  unfold BloomFilter.probes
  dsimp only
  split_ifs <;> omega

theorem probes_pos (b : BloomFilter) : 1 ≤ b.probes := by
  unfold BloomFilter.probes
  dsimp only
  split_ifs <;> omega

theorem two_pow_and_pred (m : Nat) : 2 ^ m &&& (2 ^ m - 1) = 0 := by
  rw [Nat.and_two_pow_sub_one_eq_mod, Nat.mod_self]

/-- A filter of `2 ^ m` bytes and its probe count, in which the bits of all hashes are set. -/
structure Filled (k m : Nat) (hashes : List UInt32) (filter : Bytes) : Prop where
  floor : 3 ≤ m
  length : filter.length = 2 ^ m + 1
  last : filter.getD (2 ^ m) 0 = UInt8.ofNat k
  bits : ∀ hash ∈ hashes, ∀ bit ∈ probeBits k (UInt32.ofNat (2 ^ m * 8) - 1) (rotateLeft15 hash)
    hash, testBit filter bit = true

theorem filled_fillFilter (k : Nat) (hm : 3 ≤ m) (hashes : List UInt32) :
    Filled k m hashes (fillFilter k (2 ^ m) hashes) := by
  have hin : ∀ bit ∈ hashes.flatMap fun h =>
      probeBits k (UInt32.ofNat (2 ^ m * 8) - 1) (rotateLeft15 h) h, byteIndex bit < 2 ^ m := by
    intro bit hbit
    obtain ⟨h, _, hbit⟩ := mem_flatMap.1 hbit
    exact mem_probeBits_lt hbit
  refine ⟨hm, ?_, ?_, ?_⟩
  · rw [fillFilter, foldl_setBit_length]
    simp
  · rw [fillFilter, foldl_setBit_getD hin]
    simp
  · intro hash hmem bit hbit
    have hbit' : bit ∈ hashes.flatMap fun h =>
        probeBits k (UInt32.ofNat (2 ^ m * 8) - 1) (rotateLeft15 h) h :=
      mem_flatMap.2 ⟨hash, hmem, hbit⟩
    rw [fillFilter]
    refine testBit_foldl_setBit (Or.inr ⟨hbit', ?_⟩)
    have := hin bit hbit'
    simp only [length_append, length_replicate, length_singleton]
    omega

theorem build_filled (b : BloomFilter) (hashes : List UInt32) :
    ∃ m, Filled b.probes m hashes (b.build hashes) := by
  obtain ⟨m, hm, hbytes⟩ := pow2Bytes_eq_two_pow (hashes.length * b.bitsPerKey)
  rw [BloomFilter.build, hbytes]
  exact ⟨m, filled_fillFilter b.probes hm hashes⟩

theorem build64_filled (bitsPerKey : Int64) (k : Nat) (hashes : List UInt32) :
    ∃ m, Filled k m hashes (build64 bitsPerKey k hashes) := by
  obtain ⟨m, hm, hbytes⟩ :=
    pow2Bytes64_eq_two_pow (Int64.ofNat hashes.length * if bitsPerKey < 1 then 1 else bitsPerKey)
  exact ⟨m, by simpa only [build64, hbytes] using filled_fillFilter k hm hashes⟩

theorem pow2Bytes64_eq_pow2Bytes {minBits : Int64} (h : minBits.toInt = n)
    (hsmall : n + 7 < 2 ^ 63) : pow2Bytes64 minBits = pow2Bytes n := by
  have hadd : (minBits + 7).toInt = n + 7 := by
    rw [Int64.toInt_add, h]
    exact Int.bmod_eq_of_le (by change _ ≤ (n : Int) + 7; omega)
      (by change (n : Int) + 7 < _; omega)
  have hdiv : ((minBits + 7) / 8).toInt = ((n + 7) / 8 : Nat) := by
    rw [Int64.toInt_div_of_ne_right _ _ (by decide), hadd]
    exact Int.tdiv_eq_ediv_of_nonneg (by omega)
  have hmax : (max ((minBits + 7) / 8).toInt 8).toNat = max ((n + 7) / 8) 8 := by
    rw [hdiv]
    omega
  rw [pow2Bytes64, hmax, pow2Bytes]

theorem build64_eq_build {bitsPerKey : Int64} (hbits : 1 ≤ bitsPerKey.toInt)
    (hsmall : hashes.length * bitsPerKey.toInt.toNat + 7 < 2 ^ 63) :
    build64 bitsPerKey (newBloom bitsPerKey.toInt).probes hashes =
      (newBloom bitsPerKey.toInt).build hashes := by
  have hone : ¬ bitsPerKey < 1 := by
    rw [Int64.lt_iff_toInt_lt]
    change ¬ bitsPerKey.toInt < 1
    omega
  have hnat : (newBloom bitsPerKey.toInt).bitsPerKey = bitsPerKey.toInt.toNat := by
    rw [newBloom, if_neg (by omega)]
  have hlen : hashes.length ≤ hashes.length * bitsPerKey.toInt.toNat :=
    Nat.le_mul_of_pos_right _ (by omega)
  have hprod : (Int64.ofNat hashes.length * bitsPerKey).toInt =
      (hashes.length * bitsPerKey.toInt.toNat : Nat) := by
    have hcast : ((hashes.length * bitsPerKey.toInt.toNat : Nat) : Int) =
        hashes.length * bitsPerKey.toInt := by
      rw [Int.natCast_mul, Int.toNat_of_nonneg (by omega)]
    rw [Int64.toInt_mul, Int64.toInt_ofNat_of_lt (by omega), ← hcast]
    exact Int.bmod_eq_of_le (by omega) (by omega)
  rw [build64, if_neg hone, pow2Bytes64_eq_pow2Bytes hprod hsmall, ← hnat, BloomFilter.build]

theorem Filled.bloomMayContain {k : Nat} {filter : Bytes} {hash : UInt32}
    (h : Filled k m hashes filter) (hk : k ≤ 30) (hmem : hash ∈ hashes) :
    bloomMayContain filter hash = true := by
  have hm8 : 2 ^ 3 ≤ 2 ^ m := Nat.pow_le_pow_right (by omega) h.floor
  have hlast : (filter.getD (2 ^ m) 0).toNat = k := by
    rw [h.last]
    exact UInt8.toNat_ofNat_of_lt' (by change k < 256; omega)
  unfold LevisDB.bloomMayContain
  rw [if_neg (by have := h.length; omega)]
  simp only [h.length, Nat.add_sub_cancel, hlast, two_pow_and_pred, if_true]
  rw [if_neg (by omega), all_eq_true]
  exact h.bits hash hmem

theorem bloomMayContain_build (b : BloomFilter) {hash : UInt32}
    (hmem : hash ∈ hashes) : bloomMayContain (b.build hashes) hash = true := by
  obtain ⟨m, hfilled⟩ := build_filled b hashes
  exact hfilled.bloomMayContain (probes_le b) hmem

end LevisDB
