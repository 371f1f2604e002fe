import Mathlib.Data.List.Nodup
import Mathlib.Logic.Function.Basic

/-!
# The clock

A hand goes round a ring and picks the first member that is neither to be
skipped nor marked as used; on its way it takes the mark off the members it
passes.
-/

namespace Clock

variable {α : Type*} [DecidableEq α]

/-- Where the hand stands: past the end it starts over. -/
def position (ring : List α) (hand : Nat) : Nat := if ring.length ≤ hand then 0 else hand

/-- Sweeps for a number of steps: who is picked, and the hand and the marks at the end. -/
def sweep (ring : List α) (skip : α → Bool) :
    Nat → Nat → (α → Bool) → Option α × Nat × (α → Bool)
  | 0, hand, used => (none, hand, used)
  | steps + 1, hand, used =>
    match ring[position ring hand]? with
    | none => (none, position ring hand, used)
    | some v =>
      if skip v then sweep ring skip steps (position ring hand + 1) used
      else if used v then
        sweep ring skip steps (position ring hand + 1) (Function.update used v false)
      else (some v, position ring hand, used)

variable {ring : List α} {skip used : α → Bool} {steps hand : Nat} {v : α}

omit [DecidableEq α] in
theorem position_lt (h : ring ≠ []) (hand : Nat) : position ring hand < ring.length := by
  have hpos := List.length_pos_iff.2 h
  unfold position
  split <;> omega

theorem sweep_some (h : (sweep ring skip steps hand used).1 = some v) :
    skip v = false ∧ ring[(sweep ring skip steps hand used).2.1]? = some v := by
  induction steps generalizing hand used with
  | zero => cases h
  | succ steps ih =>
    rw [sweep] at h ⊢
    cases hu : ring[position ring hand]? with
    | none =>
      rw [hu] at h
      cases h
    | some u =>
      rw [hu] at h
      dsimp only at h ⊢
      by_cases hskip : skip u = true
      · rw [if_pos hskip] at h ⊢
        exact ih h
      rw [if_neg hskip] at h ⊢
      by_cases hused : used u = true
      · rw [if_pos hused] at h ⊢
        exact ih h
      rw [if_neg hused] at h ⊢
      cases h
      exact ⟨Bool.eq_false_iff.2 hskip, hu⟩

theorem sweep_hand_le (hhand : hand ≤ ring.length) :
    (sweep ring skip steps hand used).2.1 ≤ ring.length := by
  induction steps generalizing hand used with
  | zero => exact hhand
  | succ steps ih =>
    have hpos : position ring hand ≤ ring.length := by
      unfold position
      split <;> omega
    rw [sweep]
    split
    · exact hpos
    · rename_i u hu
      have hlt := (List.getElem?_eq_some_iff.1 hu).1
      split
      · exact ih hlt
      · split
        · exact ih hlt
        · exact hpos

def distance (n i j : Nat) : Nat := if i ≤ j then j - i else j + n - i

theorem distance_lt {n i j : Nat} (hi : i < n) (hj : j < n) : distance n i j < n := by
  unfold distance
  split <;> omega

omit [DecidableEq α] in
theorem distance_step {i j : Nat} (hi : i < ring.length) (hj : j < ring.length) (hne : i ≠ j) :
    distance ring.length (position ring (i + 1)) j + 1 = distance ring.length i j := by
  unfold distance position
  split_ifs <;> omega

omit [DecidableEq α] in
theorem distance_lap {j : Nat} (hj : j < ring.length) :
    distance ring.length (position ring (j + 1)) j + 1 = ring.length := by
  unfold distance position
  split_ifs <;> omega

theorem sweep_isSome (hnodup : ring.Nodup) {j : Nat} (hj : ring[j]? = some v)
    (hskip : skip v = false)
    (hsteps : distance ring.length (position ring hand) j +
      (if used v then ring.length else 0) < steps) :
    (sweep ring skip steps hand used).1.isSome := by
  induction steps generalizing hand used with
  | zero => exact absurd hsteps (Nat.not_lt_zero _)
  | succ steps ih =>
    have hjlt := (List.getElem?_eq_some_iff.1 hj).1
    have hpos := position_lt (List.ne_nil_of_length_pos (Nat.zero_lt_of_lt hjlt)) hand
    rw [sweep]
    by_cases hat : position ring hand = j
    · have hlap := distance_lap hjlt
      rw [hat, hj]
      dsimp only
      rw [hskip, if_neg Bool.false_ne_true]
      split
      · next hused =>
        rw [if_pos hused] at hsteps
        refine ih ?_
        rw [Function.update_self, if_neg Bool.false_ne_true]
        omega
      · rfl
    · have hdist := distance_step hpos hjlt hat
      have hother : v ≠ ring[position ring hand] := by
        intro heq
        have hsame : ring[position ring hand]? = ring[j]? := by
          rw [hj, heq, List.getElem?_eq_getElem hpos]
        exact hat ((List.getElem?_inj hpos hnodup).1 hsame)
      rw [List.getElem?_eq_getElem hpos]
      dsimp only
      split
      · exact ih (by omega)
      · split
        · refine ih ?_
          rw [Function.update_of_ne hother]
          omega
        · rfl

theorem sweep_none (hnodup : ring.Nodup)
    (h : (sweep ring skip (2 * ring.length) hand used).1 = none) : ∀ v ∈ ring, skip v = true := by
  intro v hv
  by_contra hskip
  obtain ⟨j, hj⟩ := List.mem_iff_getElem?.1 hv
  have hjlt := (List.getElem?_eq_some_iff.1 hj).1
  have hpos := position_lt (List.ne_nil_of_length_pos (Nat.zero_lt_of_lt hjlt)) hand
  have hdist := distance_lt hpos hjlt
  have hsome : (sweep ring skip (2 * ring.length) hand used).1.isSome :=
    sweep_isSome hnodup hj (Bool.eq_false_iff.2 hskip) (by split <;> omega)
  rw [h] at hsome
  cases hsome

end Clock
