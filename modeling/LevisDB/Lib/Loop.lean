import Mathlib.Logic.Relation

/-!
# Loops that end

A loop body either stops with a result or goes on from a new state. A rank that
every further round lowers bounds the number of rounds, so that much fuel reaches
the result.
-/

namespace Loop

variable {σ β : Type*}

/-- Runs the body until it stops; none when the fuel is used up first. -/
def run (body : σ → β ⊕ σ) : Nat → σ → Option β
  | 0, _ => none
  | n + 1, s =>
    match body s with
    | .inl b => some b
    | .inr s' => run body n s'

/-- The states the loop passes through. -/
def Reaches (body : σ → β ⊕ σ) : σ → σ → Prop :=
  Relation.ReflTransGen fun s s' => body s = .inr s'

theorem run_within {body : σ → β ⊕ σ} {P : σ → Prop} (rank : σ → Nat)
    (hround : ∀ s s', P s → body s = .inr s' → P s' ∧ rank s' < rank s) {s : σ} (hs : P s) {n : Nat}
    (hn : rank s < n) : ∃ b s', run body n s = some b ∧ Reaches body s s' ∧ P s' ∧
      body s' = .inl b := by
  induction n generalizing s with
  | zero => exact absurd hn (Nat.not_lt_zero _)
  | succ n ih =>
    cases hbody : body s with
    | inl b => exact ⟨b, s, by simp [run, hbody], .refl, hs, hbody⟩
    | inr s₁ =>
      obtain ⟨hs₁, hlt⟩ := hround s s₁ hs hbody
      obtain ⟨b, s', hrun, hreach, hrest⟩ := ih hs₁ (by omega)
      exact ⟨b, s', by simp only [run, hbody, hrun], .head hbody hreach, hrest⟩

end Loop
