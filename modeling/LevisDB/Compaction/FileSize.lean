import LevisDB.Compaction.Scope
import Mathlib.Algebra.Order.Ring.Int
import Mathlib.Tactic.Linarith

/-!
# File-size targets

The merge rolls its output to a new table at the tier's file-size target. The
unbounded loop of the merge model is `min (base * mul ^ depth) max`; the loop over
64-bit words computes the same number, because the division in its guard keeps
every product at or below the cap.
-/

namespace LevisDB

theorem maxSize_le_of_guard {maxSize mul target : Int} (hmul : 0 < mul) (htarget : 0 < target)
    (h : maxSize ≤ target ∨ maxSize / mul < target) : maxSize ≤ target * mul := by
  cases h with
  | inl hle => exact hle.trans (le_mul_of_one_le_right htarget.le hmul)
  | inr hlt => exact (Int.lt_mul_of_ediv_lt hmul hlt).le

theorem mul_le_of_not_guard {maxSize mul target : Int} (hmul : 0 < mul)
    (h : ¬ (maxSize ≤ target ∨ maxSize / mul < target)) : target * mul ≤ maxSize := by
  have hle : target ≤ maxSize / mul := by omega
  exact Int.mul_le_of_le_ediv hmul hle

theorem targetLoop_eq {maxSize mul : Int} (hmul : 0 < mul) (depth : Nat) (target : Int)
    (htarget : 0 < target) :
    targetLoop maxSize mul depth target = min (target * mul ^ depth) maxSize := by
  induction depth generalizing target with
  | zero =>
    rw [targetLoop, pow_zero, mul_one]
    by_cases h : maxSize < target
    · rw [if_pos h, min_eq_right h.le]
    · rw [if_neg h, min_eq_left (not_lt.1 h)]
  | succ depth ih =>
    rw [targetLoop]
    split
    · case isTrue hguard =>
        -- the remaining factors are at least one, so the cap stays below the power
        have hcap := maxSize_le_of_guard hmul htarget hguard
        have hpow : target * mul ≤ target * mul * mul ^ depth :=
          le_mul_of_one_le_right (mul_pos htarget hmul).le (one_le_pow₀ hmul)
        rw [pow_succ', ← mul_assoc, min_eq_right (hcap.trans hpow)]
    · rw [ih (target * mul) (mul_pos htarget hmul), pow_succ', mul_assoc]

structure FileSizes where
  fileSizeBase : Int64
  fileSizeMultiplier : Int64
  fileSizeMax : Int64
  deriving DecidableEq

namespace FileSizes

def base (c : FileSizes) : Int64 :=
  if c.fileSizeBase ≤ 0 then Int64.ofInt defaultFileSizeBase else c.fileSizeBase

def maxSize (c : FileSizes) : Int64 :=
  if c.fileSizeMax < c.base then
    if Int64.ofInt defaultFileSizeMax < c.base then c.base else Int64.ofInt defaultFileSizeMax
  else c.fileSizeMax

def mul (c : FileSizes) : Int64 :=
  if c.fileSizeMultiplier < 1 then Int64.ofInt defaultFileSizeMultiplier else c.fileSizeMultiplier

def loop (maxSize mul : Int64) : Nat → Int64 → Int64
  | 0, target => if maxSize < target then maxSize else target
  | depth + 1, target =>
    if maxSize ≤ target ∨ maxSize / mul < target then maxSize
    else loop maxSize mul depth (target * mul)

/-- The factors of every product the loop forms, in order. -/
def products (maxSize mul : Int64) : Nat → Int64 → List (Int64 × Int64)
  | 0, _ => []
  | depth + 1, target =>
    if maxSize ≤ target ∨ maxSize / mul < target then []
    else (target, mul) :: products maxSize mul depth (target * mul)

def targetFileSize (c : FileSizes) (depth : Nat) : Int64 :=
  loop c.maxSize c.mul depth c.base

theorem base_pos (c : FileSizes) : 0 < c.base.toInt := by
  unfold base
  split
  · decide
  · case isFalse h => simpa [Int64.lt_iff_toInt_lt] using not_le.1 h

theorem base_le_maxSize (c : FileSizes) : c.base.toInt ≤ c.maxSize.toInt := by
  unfold maxSize
  split
  · split
    · exact le_rfl
    · case isFalse h => exact Int64.le_iff_toInt_le.1 (not_lt.1 h)
  · case isFalse h => exact Int64.le_iff_toInt_le.1 (not_lt.1 h)

theorem mul_pos (c : FileSizes) : 0 < c.mul.toInt := by
  unfold mul
  split
  · decide
  · case isFalse h =>
      have hle : (1 : Int64).toInt ≤ c.fileSizeMultiplier.toInt :=
        Int64.le_iff_toInt_le.1 (not_lt.1 h)
      change (1 : Int) ≤ _ at hle
      omega

theorem guard_iff {maxSize mul target : Int64} (hmax : 0 < maxSize.toInt) :
    (maxSize ≤ target ∨ maxSize / mul < target) ↔
      (maxSize.toInt ≤ target.toInt ∨ maxSize.toInt / mul.toInt < target.toInt) := by
  have hne : maxSize ≠ Int64.minValue := by
    intro h
    rw [h] at hmax
    exact absurd hmax (by decide)
  rw [Int64.le_iff_toInt_le, Int64.lt_iff_toInt_lt, Int64.toInt_div_of_ne_left _ _ hne,
    Int.tdiv_eq_ediv_of_nonneg hmax.le]

theorem toInt_mul_of_not_guard {maxSize mul target : Int64} (hmul : 0 < mul.toInt)
    (htarget : 0 < target.toInt)
    (h : ¬ (maxSize.toInt ≤ target.toInt ∨ maxSize.toInt / mul.toInt < target.toInt)) :
    (target * mul).toInt = target.toInt * mul.toInt := by
  have hle := mul_le_of_not_guard hmul h
  have hlt := maxSize.toInt_lt
  have hpos := Int.mul_pos htarget hmul
  rw [Int64.toInt_mul]
  exact Int.bmod_eq_of_le (by omega) (by omega)

theorem loop_toInt {maxSize mul : Int64} (hmax : 0 < maxSize.toInt) (hmul : 0 < mul.toInt)
    (depth : Nat) (target : Int64) (htarget : 0 < target.toInt) :
    (loop maxSize mul depth target).toInt =
        targetLoop maxSize.toInt mul.toInt depth target.toInt ∧
      ∀ p ∈ products maxSize mul depth target, (p.1 * p.2).toInt = p.1.toInt * p.2.toInt := by
  induction depth generalizing target with
  | zero =>
    refine ⟨?_, by simp [products]⟩
    rw [loop, targetLoop, apply_ite Int64.toInt]
    simp only [Int64.lt_iff_toInt_lt]
  | succ depth ih =>
    rw [loop, products, targetLoop]
    by_cases hguard : maxSize ≤ target ∨ maxSize / mul < target
    · have hint := (guard_iff hmax).1 hguard
      rw [if_pos hguard, if_pos hguard, if_pos hint]
      exact ⟨rfl, by simp⟩
    · have hint := mt (guard_iff hmax).2 hguard
      have hmulInt := toInt_mul_of_not_guard hmul htarget hint
      have hnext : 0 < (target * mul).toInt := hmulInt ▸ Int.mul_pos htarget hmul
      obtain ⟨hloop, hproducts⟩ := ih (target * mul) hnext
      rw [if_neg hguard, if_neg hguard, if_neg hint, hloop, hmulInt]
      refine ⟨rfl, ?_⟩
      intro p hp
      cases hp with
      | head => exact hmulInt
      | tail _ hp => exact hproducts p hp

theorem targetFileSize_toInt (c : FileSizes) (depth : Nat) :
    (c.targetFileSize depth).toInt =
      min (c.base.toInt * c.mul.toInt ^ depth) c.maxSize.toInt := by
  have hmax := c.base_pos.trans_le c.base_le_maxSize
  rw [targetFileSize, (loop_toInt hmax c.mul_pos depth c.base c.base_pos).1,
    targetLoop_eq c.mul_pos depth _ c.base_pos]

theorem targetFileSize_config (c : FileSizes) (cc : CompactionConfig)
    (hbase : cc.fileSizeBase = c.fileSizeBase.toInt)
    (hmul : cc.fileSizeMultiplier = c.fileSizeMultiplier.toInt)
    (hmax : cc.fileSizeMax = c.fileSizeMax.toInt) (depth : Nat) :
    cc.targetFileSize depth = (c.targetFileSize depth).toInt := by
  have hpos := c.base_pos.trans_le c.base_le_maxSize
  rw [targetFileSize, (loop_toInt hpos c.mul_pos depth c.base c.base_pos).1]
  have hb : (if cc.fileSizeBase ≤ 0 then defaultFileSizeBase else cc.fileSizeBase) =
      c.base.toInt := by
    unfold base
    rw [hbase, apply_ite Int64.toInt]
    simp only [Int64.le_iff_toInt_le]
    rfl
  have hm : (if cc.fileSizeMultiplier < 1 then defaultFileSizeMultiplier
      else cc.fileSizeMultiplier) = c.mul.toInt := by
    unfold mul
    rw [hmul, apply_ite Int64.toInt]
    simp only [Int64.lt_iff_toInt_lt]
    rfl
  unfold CompactionConfig.targetFileSize
  simp only [hb, hm]
  congr 1
  unfold maxSize
  rw [hmax, apply_ite Int64.toInt, apply_ite Int64.toInt]
  simp only [Int64.lt_iff_toInt_lt]
  rfl

/-- The target is the capped power over unbounded integers; it is positive, grows with
the depth, stays under the cap, and no product of the loop wraps. -/
theorem targetFileSize_curve (c : FileSizes) (depth more : Nat) :
    (c.targetFileSize depth).toInt =
        min (c.base.toInt * c.mul.toInt ^ depth) c.maxSize.toInt ∧
      0 < (c.targetFileSize depth).toInt ∧
      c.targetFileSize depth ≤ c.targetFileSize (depth + more) ∧
      c.targetFileSize depth ≤ c.maxSize ∧
      ∀ p ∈ products c.maxSize c.mul depth c.base, (p.1 * p.2).toInt = p.1.toInt * p.2.toInt := by
  have hmax := c.base_pos.trans_le c.base_le_maxSize
  have hpow : 0 < c.base.toInt * c.mul.toInt ^ depth :=
    Int.mul_pos c.base_pos (Int.pow_pos c.mul_pos)
  refine ⟨c.targetFileSize_toInt depth, ?_, ?_, ?_, ?_⟩
  · rw [targetFileSize_toInt]
    exact lt_min hpow hmax
  · rw [Int64.le_iff_toInt_le, targetFileSize_toInt, targetFileSize_toInt, pow_add, ← mul_assoc]
    exact min_le_min_right _ (le_mul_of_one_le_right hpow.le (one_le_pow₀ c.mul_pos))
  · rw [Int64.le_iff_toInt_le, targetFileSize_toInt]
    exact min_le_right _ _
  · exact (loop_toInt hmax c.mul_pos depth c.base c.base_pos).2

theorem targetFileSize_curve_rounded :
    (targetFileSize ⟨3, 3, 10⟩ 1).toInt = min (3 * 3 ^ 1) 10 ∧
      ((3 : Int64) * 3).toInt = (3 : Int64).toInt * (3 : Int64).toInt :=
  ⟨(targetFileSize_curve ⟨3, 3, 10⟩ 1 1).1,
    (targetFileSize_curve ⟨3, 3, 10⟩ 1 1).2.2.2.2 (3, 3) (by decide)⟩

end FileSizes

end LevisDB
