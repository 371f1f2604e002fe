import Mathlib.Data.List.Basic

/-!
# Singly linked lists

The links of a list are a function from nodes to stored references, `ptr` the
reference of a node and `nil` the end mark. `Visits next ptr nil x ys` says that the
links lead from `x` through exactly `ys`.
-/

namespace LinkedList

open List

variable {α β : Type*}

def Visits (next ptr : α → β) (nil : β) : α → List α → Prop
  | x, [] => next x = nil
  | x, y :: ys => next x = ptr y ∧ Visits next ptr nil y ys

def last : α → List α → α
  | x, [] => x
  | _, y :: ys => last y ys

theorem last_mem (x : α) (ys : List α) : last x ys ∈ x :: ys := by
  induction ys generalizing x with
  | nil => simp [last]
  | cons y ys ih => exact mem_cons_of_mem x (ih y)

theorem last_append (x : α) (p q : List α) : last x (p ++ q) = last (last x p) q := by
  induction p generalizing x with
  | nil => rfl
  | cons y p ih => exact ih y

variable {next next' ptr : α → β} {nil : β} {x : α}

theorem Visits.rest {p q : List α} (h : Visits next ptr nil x (p ++ q)) :
    Visits next ptr nil (last x p) q := by
  induction p generalizing x with
  | nil => exact h
  | cons y p ih => exact ih h.2

theorem Visits.congr {ys : List α} (h : Visits next ptr nil x ys)
    (hsame : ∀ y ∈ x :: ys, next' y = next y) : Visits next' ptr nil x ys := by
  induction ys generalizing x with
  | nil =>
    change next' x = nil
    rw [hsame x (by simp)]
    exact h
  | cons y ys ih =>
    refine ⟨?_, ih h.2 fun z hz => hsame z (mem_cons_of_mem x hz)⟩
    rw [hsame x (by simp)]
    exact h.1

theorem Visits.splice {q r : List α} {c : α} (h : Visits next ptr nil x (q ++ r))
    (hnodup : (x :: (q ++ r)).Nodup)
    (hsame : ∀ y ∈ x :: (q ++ r), y ≠ last x q → next' y = next y)
    (hlink : next' (last x q) = ptr c) (hnew : next' c = next (last x q)) :
    Visits next' ptr nil x (q ++ c :: r) := by
  induction q generalizing x with
  | nil =>
    have hx : ∀ y ∈ r, y ≠ x := fun y hy heq => (nodup_cons.1 hnodup).1 (heq ▸ hy)
    refine ⟨hlink, ?_⟩
    cases r with
    | nil => exact hnew.trans h
    | cons y r =>
      exact ⟨hnew.trans h.1, h.2.congr fun z hz =>
        hsame z (mem_cons_of_mem x hz) (hx z hz)⟩
  | cons y q ih =>
    have hne : x ≠ last y q := by
      intro heq
      have hmem : last y q ∈ y :: (q ++ r) :=
        cons_subset_cons y (subset_append_left q r) (last_mem y q)
      exact (nodup_cons.1 hnodup).1 (heq ▸ hmem)
    refine ⟨?_, ih h.2 (nodup_cons.1 hnodup).2
      (fun z hz hz' => hsame z (mem_cons_of_mem x hz) hz') hlink hnew⟩
    rw [hsame x (by simp) hne]
    exact h.1

end LinkedList
