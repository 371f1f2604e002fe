import LevisDB.Lib.Search

/-!
# Computations that cannot fault

A computation over `Except ε` stops with an error. Some errors are its answers;
others stand for what must not happen in the program it models, such as an index
out of range.
-/

namespace Checked

variable {ε α β σ : Type}

/-- Stops with the error when the condition holds. -/
def refuse (c : Prop) [Decidable c] (err : ε) : Except ε Unit := if c then .error err else .ok ()

/-- Runs the body until it stops; `stuck` when the fuel is used up first. -/
def loop (stuck : ε) (body : σ → Except ε (β ⊕ σ)) : Nat → σ → Except ε β
  | 0, _ => .error stuck
  | fuel + 1, s => do
      match ← body s with
      | .inl b => .ok b
      | .inr s' => loop stuck body fuel s'

def Ends (fault : ε → Prop) (post : α → Prop) : Except ε α → Prop
  | .ok a => post a
  | .error err => ¬ fault err

variable {fault : ε → Prop} {post : α → Prop} {next : β → Prop} {r : Except ε α}

theorem refuse_of_not {c : Prop} [Decidable c] {err : ε} (h : ¬ c) : refuse c err = .ok () :=
  if_neg h

section

variable (h : Ends fault post r)
include h

theorem Ends.of_ok {a : α} (hr : r = .ok a) : post a := by
  subst hr
  exact h

theorem Ends.mono {post' : α → Prop} (hpost : ∀ a, post a → post' a) :
    Ends fault post' r := by
  cases r with
  | error err => exact h
  | ok a => exact hpost a h

theorem Ends.bind {f : α → Except ε β}
    (hf : ∀ a, post a → Ends fault next (f a)) : Ends fault next (r >>= f) := by
  cases r with
  | error err => exact h
  | ok a => exact hf a h

theorem Ends.mapError {f : ε → ε} (hf : ∀ err, ¬ fault err → ¬ fault (f err)) :
    Ends fault post (r.mapError f) := by
  cases r with
  | error err => exact hf err h
  | ok a => exact h

end

theorem ends_refuse {c : Prop} [Decidable c] {err : ε} (h : ¬ fault err) :
    Ends fault (fun _ => ¬ c) (refuse c err) := by
  by_cases hc : c
  · rw [refuse, if_pos hc]
    exact h
  · rw [refuse, if_neg hc]
    exact hc

/-- What a round of a loop leads to: a result, or a state of a lower rank that satisfies
the invariant. -/
def Round (inv : σ → Prop) (rank : σ → Nat) (next : β → Prop) (s : σ) : β ⊕ σ → Prop
  | .inl b => next b
  | .inr s' => inv s' ∧ rank s' < rank s

theorem ends_loop {stuck : ε} {body : σ → Except ε (β ⊕ σ)} (inv : σ → Prop) (rank : σ → Nat)
    (hbody : ∀ s, inv s → Ends fault (Round inv rank next s) (body s))
    {fuel : Nat} {s : σ} (hs : inv s) (hfuel : rank s < fuel) :
    Ends fault next (loop stuck body fuel s) := by
  induction fuel generalizing s with
  | zero => exact absurd hfuel (Nat.not_lt_zero _)
  | succ fuel ih =>
    refine (hbody s hs).bind fun r hr => ?_
    cases r with
    | inl b => exact hr
    | inr s' => exact ih hr.1 (Nat.lt_of_lt_of_le hr.2 (Nat.le_of_lt_succ hfuel))

theorem ends_any (r : Except ε α) : Ends (fun _ => False) (fun _ => True) r := by
  cases r with
  | error err => exact id
  | ok a => trivial

theorem ends_loop_any {stuck : ε} {body : σ → Except ε (β ⊕ σ)} (inv : σ → Prop)
    (hbody : ∀ s, inv s → Ends (fun _ => False) (Sum.elim next inv) (body s)) (fuel : Nat) {s : σ}
    (hs : inv s) : Ends (fun _ => False) next (loop stuck body fuel s) := by
  induction fuel generalizing s with
  | zero => exact id
  | succ fuel ih =>
    refine (hbody s hs).bind fun r hr => ?_
    cases r with
    | inl b => exact hr
    | inr s' => exact ih hr

theorem loop_go {stuck : ε} {body : Nat × Nat → Except ε (β ⊕ (Nat × Nat))} {f : Nat → Bool}
    (out : Nat → β) {n : Nat}
    (hend : ∀ lo hi, ¬ lo < hi → body (lo, hi) = .ok (.inl (out lo)))
    (hmore : ∀ lo hi, lo < hi → hi ≤ n → body (lo, hi) =
      .ok (.inr (if f ((lo + hi) / 2) then (lo, (lo + hi) / 2) else ((lo + hi) / 2 + 1, hi))))
    (fuel lo hi : Nat) (hfuel : hi - lo ≤ fuel) (hhi : hi ≤ n) :
    loop stuck body (fuel + 1) (lo, hi) = .ok (out (Search.go f fuel lo hi)) := by
  induction fuel generalizing lo hi with
  | zero =>
    rw [loop, hend lo hi (by omega)]
    rfl
  | succ fuel ih =>
    rw [loop, Search.go]
    by_cases hlt : lo < hi
    · rw [hmore lo hi hlt hhi, if_pos hlt]
      dsimp only
      split_ifs
      · exact ih lo ((lo + hi) / 2) (by omega) (by omega)
      · exact ih ((lo + hi) / 2 + 1) hi (by omega) hhi
    · rw [hend lo hi hlt, if_neg hlt]
      rfl

theorem loop_search {stuck : ε} {body : Nat × Nat → Except ε (β ⊕ (Nat × Nat))} {f : Nat → Bool}
    (out : Nat → β) {n : Nat}
    (hend : ∀ lo hi, ¬ lo < hi → body (lo, hi) = .ok (.inl (out lo)))
    (hmore : ∀ lo hi, lo < hi → hi ≤ n → body (lo, hi) =
      .ok (.inr (if f ((lo + hi) / 2) then (lo, (lo + hi) / 2) else ((lo + hi) / 2 + 1, hi)))) :
    loop stuck body (n + 1) (0, n) = .ok (out (Search.search n f)) :=
  loop_go out hend hmore n 0 n (by omega) (Nat.le_refl n)

end Checked
