import Mathlib.Data.List.Lex
import Mathlib.Order.Basic

/-!
# Byte strings and machine integers

User keys and values are Go byte slices. Keys are compared by `bytes.Compare`,
which is the lexicographic order on byte lists; clock readings and TTL deadlines
are signed 64-bit Unix seconds and are only ever compared.
-/

namespace LevisDB

instance instLinearOrderUInt8 : LinearOrder UInt8 where
  le_refl := UInt8.le_refl
  le_trans _ _ _ := UInt8.le_trans
  le_antisymm _ _ := UInt8.le_antisymm
  le_total := UInt8.le_total
  lt_iff_le_not_ge a b := by
    simp only [UInt8.lt_iff_toNat_lt, UInt8.le_iff_toNat_le]
    omega
  toDecidableLE := inferInstance
  toDecidableLT := inferInstance
  toDecidableEq := inferInstance

instance instLinearOrderInt64 : LinearOrder Int64 where
  le_refl := Int64.le_refl
  le_trans _ _ _ := Int64.le_trans
  le_antisymm _ _ := Int64.le_antisymm
  le_total := Int64.le_total
  lt_iff_le_not_ge a b := by
    simp only [Int64.lt_iff_toInt_lt, Int64.le_iff_toInt_le]
    omega
  toDecidableLE := inferInstance
  toDecidableLT := inferInstance
  toDecidableEq := inferInstance

abbrev Bytes := List UInt8

/-- A user key, ordered by `bytes.Compare`. -/
abbrev Key := List UInt8

/-- Unix seconds, as `time.Time.Unix` reports them. -/
abbrev Time := Int64

end LevisDB
