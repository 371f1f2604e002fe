import Mathlib.Algebra.Order.Ring.Int

/-!
# Base-128 integers

`put` writes a 64-bit unsigned integer seven bits at a time, least significant
first, with the high bit set on every byte but the last. `get` reads one back from
the front of a byte string and refuses a run of bytes that ends too early or does
not fit 64 bits.
-/

namespace Varint

variable {bytes rest : List UInt8} {n : Nat}

/-- The longest encoding of a 64-bit integer. -/
def maxLen : Nat := 10

def putFuel : Nat → Nat → List UInt8
  | 0, _ => []
  | fuel + 1, n =>
    if n < 128 then [UInt8.ofNat n] else UInt8.ofNat (n % 128 + 128) :: putFuel fuel (n / 128)

def put (n : Nat) : List UInt8 := putFuel maxLen n

/-- Reads at most `left` bytes; the last of ten may only carry one bit. -/
def getFuel : Nat → List UInt8 → Option (Nat × List UInt8)
  | _, [] => none
  | 0, _ :: _ => none
  | left + 1, byte :: rest =>
    if byte.toNat < 128 then
      if left = 0 ∧ 1 < byte.toNat then none else some (byte.toNat, rest)
    else (getFuel left rest).map fun r => (byte.toNat % 128 + 128 * r.1, r.2)

/-- The integer at the front of a byte string, and what follows it. -/
def get (bytes : List UInt8) : Option (Nat × List UInt8) := getFuel maxLen bytes

theorem putFuel_ne_nil (fuel n : Nat) : putFuel (fuel + 1) n ≠ [] := by
  unfold putFuel
  split_ifs <;> simp

theorem put_ne_nil (n : Nat) : put n ≠ [] := putFuel_ne_nil 9 n

theorem putFuel_length_le (fuel n : Nat) : (putFuel fuel n).length ≤ fuel := by
  induction fuel generalizing n with
  | zero => simp [putFuel]
  | succ fuel ih =>
    unfold putFuel
    split_ifs
    · simp
    · simpa using ih (n / 128)

theorem put_length_le (n : Nat) : (put n).length ≤ maxLen := putFuel_length_le maxLen n

theorem getFuel_putFuel {fuel : Nat} (h : n < 2 * 128 ^ fuel) (rest : List UInt8) :
    getFuel (fuel + 1) (putFuel (fuel + 1) n ++ rest) = some (n, rest) := by
  induction fuel generalizing n with
  | zero =>
    have hn : n < 2 := by simpa using h
    have hsmall : n < 128 := by omega
    have hbyte : (UInt8.ofNat n).toNat = n := by
      rw [UInt8.toNat_ofNat']
      omega
    have hfit : ¬ 1 < n := by omega
    simp [putFuel, getFuel, hsmall, hbyte, hfit]
  | succ fuel ih =>
    rw [putFuel]
    by_cases hsmall : n < 128
    · have hbyte : (UInt8.ofNat n).toNat = n := by
        rw [UInt8.toNat_ofNat']
        omega
      rw [if_pos hsmall, List.singleton_append, getFuel, hbyte, if_pos hsmall,
        if_neg (fun hbad => absurd hbad.1 (Nat.succ_ne_zero fuel))]
    · have hbyte : (UInt8.ofNat (n % 128 + 128)).toNat = n % 128 + 128 := by
        rw [UInt8.toNat_ofNat']
        omega
      have hrest : n / 128 < 2 * 128 ^ fuel := by
        rw [Nat.div_lt_iff_lt_mul (by omega)]
        rw [Nat.pow_succ] at h
        omega
      rw [if_neg hsmall, List.cons_append, getFuel, hbyte, if_neg (by omega), ih hrest]
      simp only [Option.map_some, Option.some.injEq, Prod.mk.injEq, and_true]
      omega

theorem get_put_append (h : n < 2 ^ 64) (rest : List UInt8) :
    get (put n ++ rest) = some (n, rest) := by
  have hpow : (2 : Nat) * 128 ^ 9 = 2 ^ 64 := by decide
  have hfit : n < 2 * 128 ^ 9 := by rwa [hpow]
  exact getFuel_putFuel hfit rest

theorem getFuel_local {left : Nat}
    (h : getFuel left bytes = some (n, rest)) :
    ∃ used, used ≠ [] ∧ bytes = used ++ rest ∧
      ∀ tail, getFuel left (used ++ tail) = some (n, tail) := by
  induction left generalizing bytes n with
  | zero => cases bytes <;> cases h
  | succ left ih =>
    cases bytes with
    | nil => cases h
    | cons byte bytes =>
      rw [getFuel] at h
      split_ifs at h with hlast hwide
      · cases h
        refine ⟨[byte], by simp, rfl, fun tail => ?_⟩
        rw [List.singleton_append, getFuel, if_pos hlast, if_neg hwide]
      · obtain ⟨⟨m, more⟩, hmore, heq⟩ := Option.map_eq_some_iff.1 h
        obtain ⟨rfl, rfl⟩ := Prod.mk.inj heq
        obtain ⟨used, _, rfl, hused⟩ := ih hmore
        refine ⟨byte :: used, by simp, rfl, fun tail => ?_⟩
        rw [List.cons_append, getFuel, if_neg hlast, hused tail]
        rfl

theorem get_local (h : get bytes = some (n, rest)) :
    ∃ used, used ≠ [] ∧ bytes = used ++ rest ∧ ∀ tail, get (used ++ tail) = some (n, tail) :=
  getFuel_local h

theorem getFuel_lt {left : Nat}
    (h : getFuel (left + 1) bytes = some (n, rest)) : n < 2 * 128 ^ left := by
  induction left generalizing bytes rest n with
  | zero =>
    cases bytes with
    | nil => cases h
    | cons byte bytes =>
      rw [getFuel] at h
      split_ifs at h with hlast hwide
      · obtain ⟨rfl, _⟩ := Prod.mk.inj (Option.some.inj h)
        simp only [true_and] at hwide
        omega
      · cases bytes <;> cases h
  | succ left ih =>
    cases bytes with
    | nil => cases h
    | cons byte bytes =>
      rw [getFuel] at h
      have hpow : 0 < 128 ^ left := Nat.pow_pos (by omega)
      split_ifs at h with hlast
      · obtain ⟨rfl, _⟩ := Prod.mk.inj (Option.some.inj h)
        rw [Nat.pow_succ]
        omega
      · obtain ⟨⟨m, more⟩, hmore, heq⟩ := Option.map_eq_some_iff.1 h
        obtain ⟨rfl, _⟩ := Prod.mk.inj heq
        have := ih hmore
        have hbyte := Nat.mod_lt byte.toNat (show 0 < 128 by omega)
        rw [Nat.pow_succ]
        dsimp only
        omega

theorem get_lt (h : get bytes = some (n, rest)) :
    n < 2 ^ 64 := by
  have hpow : (2 : Nat) * 128 ^ 9 = 2 ^ 64 := by decide
  rw [← hpow]
  exact getFuel_lt h

/-- Signs are folded into the lowest bit, so that small magnitudes stay short. -/
def zigzag (x : Int) : Nat := if 0 ≤ x then (2 * x).toNat else (-2 * x - 1).toNat

def unzigzag (n : Nat) : Int := if n % 2 = 0 then (n / 2 : Nat) else -((n / 2 : Nat) : Int) - 1

def putSigned (x : Int) : List UInt8 := put (zigzag x)

def getSigned (bytes : List UInt8) : Option (Int × List UInt8) :=
  (get bytes).map fun r => (unzigzag r.1, r.2)

theorem unzigzag_zigzag (x : Int) : unzigzag (zigzag x) = x := by
  unfold zigzag unzigzag
  split_ifs <;> omega

theorem getSigned_putSigned_append {x : Int} (hlo : -2 ^ 63 ≤ x) (hhi : x < 2 ^ 63)
    (rest : List UInt8) : getSigned (putSigned x ++ rest) = some (x, rest) := by
  have hfit : zigzag x < 2 ^ 64 := by
    unfold zigzag
    split_ifs <;> omega
  rw [getSigned, putSigned, get_put_append hfit, Option.map_some, unzigzag_zigzag]

end Varint
