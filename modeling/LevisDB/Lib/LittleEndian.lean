import Mathlib.Algebra.Order.Group.Nat

/-!
# Fixed-width little-endian integers

`put width n` writes the low `width` bytes of `n`, least significant first;
`get` reads a byte string back as a natural number. The two are inverse up to
truncation at the width.
-/

namespace LittleEndian

def put : Nat → Nat → List UInt8
  | 0, _ => []
  | width + 1, n => UInt8.ofNat n :: put width (n / 256)

def get : List UInt8 → Nat
  | [] => 0
  | byte :: rest => byte.toNat + 256 * get rest

@[simp] theorem put_length (width n : Nat) : (put width n).length = width := by
  induction width generalizing n with
  | zero => rfl
  | succ width ih => simp [put, ih]

theorem get_put (width n : Nat) : get (put width n) = n % 256 ^ width := by
  induction width generalizing n with
  | zero => simp [put, get, Nat.mod_one]
  | succ width ih =>
    have hlow : (UInt8.ofNat n).toNat = n % 256 := by simp
    simp only [put, get, ih, hlow]
    rw [Nat.pow_succ, Nat.mul_comm (256 ^ width) 256, Nat.mod_mul]

theorem get_lt (bytes : List UInt8) : get bytes < 256 ^ bytes.length := by
  induction bytes with
  | nil => decide
  | cons byte rest ih =>
    have hbyte := byte.toNat_lt
    rw [get, List.length_cons, Nat.pow_succ]
    omega

theorem get_put_of_lt {width n : Nat} (h : n < 256 ^ width) : get (put width n) = n := by
  rw [get_put, Nat.mod_eq_of_lt h]

theorem get_take_put_append {width n : Nat} (h : n < 256 ^ width) (rest : List UInt8) :
    get ((put width n ++ rest).take width) = n := by
  rw [List.take_append_of_le_length (by simp), List.take_of_length_le (by simp),
    get_put_of_lt h]

theorem drop_put_append (width n : Nat) (rest : List UInt8) :
    (put width n ++ rest).drop width = rest := by
  rw [List.drop_append_of_le_length (by simp), List.drop_of_length_le (by simp), List.nil_append]

end LittleEndian
