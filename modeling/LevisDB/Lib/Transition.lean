import Mathlib.Data.List.Basic

/-!
# Runs of a labelled machine

A machine is a partial step function. A run is a list of labels executed in
turn, each allowed in the state it is taken in; an invariant that every allowed
step keeps holds wherever a run ends.
-/

namespace Transition

variable {σ α : Type*}

/-- Executes the labels in turn; none when one of them is not enabled. -/
def exec (step : σ → α → Option σ) : σ → List α → Option σ
  | s, [] => some s
  | s, a :: as => (step s a).bind fun s' => exec step s' as

/-- A run from `s` to `s'` in which every step is allowed. -/
inductive Run (step : σ → α → Option σ) (allowed : σ → α → Prop) : σ → List α → σ → Prop
  | nil (s : σ) : Run step allowed s [] s
  | cons {s s₁ s₂ : σ} {a : α} {as : List α} (hallowed : allowed s a) (hstep : step s a = some s₁)
      (hrest : Run step allowed s₁ as s₂) : Run step allowed s (a :: as) s₂

variable {step : σ → α → Option σ} {allowed : σ → α → Prop}

theorem Run.invariant {P : σ → Prop}
    (hkeep : ∀ s a s', P s → allowed s a → step s a = some s' → P s') {s s' : σ} {as : List α}
    (hrun : Run step allowed s as s') (hs : P s) : P s' := by
  induction hrun with
  | nil s => exact hs
  | cons hallowed hstep _ ih => exact ih (hkeep _ _ _ hs hallowed hstep)

theorem Run.append {s s₁ s₂ : σ} {as bs : List α} (h : Run step allowed s as s₁)
    (h' : Run step allowed s₁ bs s₂) : Run step allowed s (as ++ bs) s₂ := by
  induction h with
  | nil s => exact h'
  | cons hallowed hstep _ ih => exact .cons hallowed hstep (ih h')

theorem run_of_exec_mem {as : List α} (hall : ∀ a ∈ as, ∀ s, allowed s a) {s s' : σ}
    (h : exec step s as = some s') : Run step allowed s as s' := by
  induction as generalizing s with
  | nil =>
    obtain rfl := Option.some.inj h
    exact .nil s
  | cons a as ih =>
    obtain ⟨s₁, hstep, hrest⟩ := Option.bind_eq_some_iff.1 h
    exact .cons (hall a List.mem_cons_self s) hstep
      (ih (fun b hb => hall b (List.mem_cons_of_mem _ hb)) hrest)

theorem run_of_exec (hall : ∀ s a, allowed s a) {s s' : σ} {as : List α}
    (h : exec step s as = some s') : Run step allowed s as s' :=
  run_of_exec_mem (fun a _ s => hall s a) h

theorem exec_invariant {P : σ → Prop} (hkeep : ∀ s a s', P s → step s a = some s' → P s')
    {s s' : σ} {as : List α} (h : exec step s as = some s') (hs : P s) : P s' := by
  have hrun : Run step (fun _ _ => True) s as s' := run_of_exec (fun _ _ => trivial) h
  exact hrun.invariant (fun u a u' hu _ hstep => hkeep u a u' hu hstep) hs

theorem exec_append (s : σ) (as bs : List α) :
    exec step s (as ++ bs) = (exec step s as).bind fun s' => exec step s' bs := by
  induction as generalizing s with
  | nil => rfl
  | cons a as ih =>
    rw [List.cons_append, exec, exec, Option.bind_assoc]
    exact congrArg _ (funext fun s' => ih s')

theorem exists_exec (step : σ → α → Option σ) (s : σ) (as : List α) (P : σ → Prop) [DecidablePred P]
    (h : (exec step s as).any (fun s' => decide (P s')) = true) :
    ∃ s', exec step s as = some s' ∧ P s' := by
  cases hs' : exec step s as with
  | none => simp [hs'] at h
  | some s' => exact ⟨s', rfl, by simpa [hs'] using h⟩

end Transition
