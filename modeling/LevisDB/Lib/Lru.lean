import Mathlib.Algebra.GroupWithZero.Nat
import Mathlib.Data.List.Infix

/-!
# Least recently used

A cache is its entries, most recently used first. Using an entry moves it to the
front, with the value it then has; trimming to a capacity keeps the longest
front part whose weight fits.
-/

namespace Lru

open List

variable {K V : Type*} {w : V → Nat} {cap : Nat} {l l' : List (K × V)}

def weight (w : V → Nat) (l : List (K × V)) : Nat := (l.map fun e => w e.2).sum

def trim (w : V → Nat) : Nat → List (K × V) → List (K × V)
  | _, [] => []
  | cap, e :: l => if w e.2 ≤ cap then e :: trim w (cap - w e.2) l else []

@[simp] theorem weight_nil : weight w ([] : List (K × V)) = 0 := rfl

@[simp] theorem weight_cons (e : K × V) : weight w (e :: l) = w e.2 + weight w l := rfl

@[simp] theorem weight_append : weight w (l ++ l') = weight w l + weight w l' := by
  simp [weight]

theorem trim_of_le (h : weight w l ≤ cap) : trim w cap l = l := by
  induction l generalizing cap with
  | nil => rfl
  | cons e l ih =>
    rw [weight_cons] at h
    rw [trim, if_pos (by omega), ih (by omega)]

theorem trim_concat {e : K × V} (h : cap < weight w (l ++ [e])) :
    trim w cap (l ++ [e]) = trim w cap l := by
  induction l generalizing cap with
  | nil =>
    have hlarge : ¬ w e.2 ≤ cap := by
      simp only [nil_append, weight_cons, weight_nil] at h
      omega
    exact if_neg hlarge
  | cons x l ih =>
    rw [cons_append, weight_cons] at h
    rw [cons_append, trim, trim]
    split_ifs
    · rw [ih (by omega)]
    · rfl

theorem trim_prefix (w : V → Nat) (cap : Nat) (l : List (K × V)) : trim w cap l <+: l := by
  induction l generalizing cap with
  | nil => exact prefix_refl _
  | cons e l ih =>
    rw [trim]
    split_ifs
    · exact (prefix_cons_inj e).2 (ih _)
    · exact nil_prefix

theorem weight_trim_le (w : V → Nat) (cap : Nat) (l : List (K × V)) :
    weight w (trim w cap l) ≤ cap := by
  induction l generalizing cap with
  | nil => exact Nat.zero_le _
  | cons e l ih =>
    rw [trim]
    split_ifs with h
    · have := ih (cap - w e.2)
      rw [weight_cons]
      omega
    · exact Nat.zero_le _

variable [DecidableEq K] {uses : List K} {k : K}

def remove (k : K) (l : List (K × V)) : List (K × V) := l.filter fun e => e.1 ≠ k

def touch (k : K) (v : V) (l : List (K × V)) : List (K × V) := (k, v) :: remove k l

theorem remove_of_forall (h : ∀ e ∈ l, e.1 ≠ k) : remove k l = l :=
  filter_eq_self.2 fun e he => decide_eq_true (h e he)

theorem mem_remove {e : K × V} : e ∈ remove k l ↔ e ∈ l ∧ e.1 ≠ k := by
  simp [remove]

/-- The entries are ordered by how long ago their keys were last used. -/
def Recent (uses : List K) (l : List (K × V)) : Prop :=
  l.Pairwise fun a b => uses.idxOf a.1 < uses.idxOf b.1

theorem Recent.sublist (h : Recent uses l) (hl : l'.Sublist l) : Recent uses l' :=
  List.Pairwise.sublist hl h

theorem Recent.use (h : Recent uses l) (hk : ∀ e ∈ l, e.1 ≠ k) : Recent (k :: uses) l := by
  have hlater : ∀ {a : K × V}, a ∈ l → (k :: uses).idxOf a.1 = uses.idxOf a.1 + 1 :=
    fun ha => idxOf_cons_ne _ (Ne.symm (hk _ ha))
  refine List.Pairwise.imp_of_mem (fun ha hb hlt => ?_) h
  rw [hlater ha, hlater hb]
  exact Nat.succ_lt_succ hlt

theorem Recent.touch (h : Recent uses l) (k : K) (v : V) : Recent (k :: uses) (touch k v l) := by
  have hk : ∀ e ∈ remove k l, e.1 ≠ k := fun e he => (mem_remove.1 he).2
  refine pairwise_cons.2 ⟨?_, (h.sublist filter_sublist).use hk⟩
  intro b hb
  rw [idxOf_cons_self, idxOf_cons_ne _ (Ne.symm (hk b hb))]
  exact Nat.zero_lt_succ _

theorem Recent.dropped (h : Recent uses l) (hl : l' <+: l) {a b : K × V} (ha : a ∈ l) (ha' : a ∉ l')
    (hb : b ∈ l') : uses.idxOf b.1 < uses.idxOf a.1 := by
  obtain ⟨rest, rfl⟩ := hl
  have hrest : a ∈ rest := (mem_append.1 ha).resolve_left ha'
  exact (pairwise_append.1 h).2.2 b hb a hrest

end Lru
