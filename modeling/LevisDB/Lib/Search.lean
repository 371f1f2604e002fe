import Mathlib.Order.Basic

/-!
# Binary search for a cutoff

`search n f` returns the least index below `n` at which the monotone predicate
`f` holds, or `n` when there is none. The bounds `i` and `j` close in on the
cutoff; the fuel is the length of the interval, which every round shortens.
-/

namespace Search

def go (f : Nat → Bool) : Nat → Nat → Nat → Nat
  | 0, i, _ => i
  | fuel + 1, i, j =>
    if i < j then
      let h := (i + j) / 2
      if f h then go f fuel i h else go f fuel (h + 1) j
    else i

def search (n : Nat) (f : Nat → Bool) : Nat := go f n 0 n

theorem go_spec {f : Nat → Bool} {n : Nat}
    (hmono : ∀ a b, a ≤ b → b < n → f a = true → f b = true)
    (fuel i j : Nat) (hfuel : j - i ≤ fuel) (hij : i ≤ j) (hjn : j ≤ n)
    (hlow : ∀ a, a < i → f a = false) (hhigh : ∀ a, j ≤ a → a < n → f a = true) :
    go f fuel i j ≤ n ∧ (∀ a, a < go f fuel i j → f a = false) ∧
      ∀ a, go f fuel i j ≤ a → a < n → f a = true := by
  induction fuel generalizing i j with
  | zero =>
    have heq : i = j := by omega
    subst heq
    exact ⟨hjn, hlow, hhigh⟩
  | succ fuel ih =>
    unfold go
    split_ifs with hlt
    · dsimp only
      split_ifs with hf
      · refine ih i ((i + j) / 2) (by omega) (by omega) (by omega) hlow ?_
        intro a ha han
        exact hmono _ a ha han hf
      · refine ih ((i + j) / 2 + 1) j (by omega) (by omega) hjn ?_ hhigh
        intro a ha
        by_contra htrue
        exact hf (hmono a _ (by omega) (by omega) (by simpa using htrue))
    · have heq : i = j := by omega
      subst heq
      exact ⟨hjn, hlow, hhigh⟩

theorem search_spec {n : Nat} {f : Nat → Bool}
    (hmono : ∀ a b, a ≤ b → b < n → f a = true → f b = true) :
    search n f ≤ n ∧ (∀ a, a < search n f → f a = false) ∧
      ∀ a, search n f ≤ a → a < n → f a = true :=
  go_spec hmono n 0 n (by omega) (by omega) (Nat.le_refl n) (by omega) (by omega)

end Search
