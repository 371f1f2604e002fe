import Mathlib.Data.List.Basic
import Mathlib.Tactic.Common

/-!
# Binary heaps in a list

The children of position `p` are at `2 * p + 1` and `2 * p + 2`. The operations
move items by swaps only, and compare them with a test that may fail: on items
that can be compared with each other no operation fails, and the heap order
comes back.
-/

namespace BinaryHeap

open List Option

variable {α : Type} (less : α → α → Option Bool)

def swap (h : List α) (i j : Nat) : Option (List α) := do
  let a ← h[i]?
  let b ← h[j]?
  pure ((h.set i b).set j a)

def lessAt (h : List α) (i j : Nat) : Option Bool := do
  let a ← h[i]?
  let b ← h[j]?
  less a b

def lesserChild (h : List α) (i n : Nat) : Option Nat := do
  let right ← if 2 * i + 2 < n then lessAt less h (2 * i + 2) (2 * i + 1) else pure false
  pure (if right then 2 * i + 2 else 2 * i + 1)

/-- Sinks the item at `i` among the first `n`, and returns the place it came to. -/
def down : Nat → List α → Nat → Nat → Option (List α × Nat)
  | 0, h, i, _ => some (h, i)
  | fuel + 1, h, i, n =>
    if n ≤ 2 * i + 1 then some (h, i)
    else do
      let j ← lesserChild less h i n
      if ← lessAt less h j i then down fuel (← swap h i j) j n else some (h, i)

def up : Nat → List α → Nat → Option (List α)
  | 0, h, _ => some h
  | fuel + 1, h, j =>
    if (j - 1) / 2 = j then some h
    else do
      if ← lessAt less h j ((j - 1) / 2) then up fuel (← swap h ((j - 1) / 2) j) ((j - 1) / 2)
      else some h

def initFrom : Nat → List α → Option (List α)
  | 0, h => some h
  | i + 1, h => do
      let r ← down less h.length h i h.length
      initFrom i r.1

def init (h : List α) : Option (List α) := initFrom less (h.length / 2) h

def fix (h : List α) (i : Nat) : Option (List α) := do
  let r ← down less h.length h i h.length
  if i < r.2 then pure r.1 else up less h.length r.1 i

/-- Takes the root out: it changes places with the last item, which then sinks. -/
def pop (h : List α) : Option (List α) := do
  let swapped ← swap h 0 (h.length - 1)
  let r ← down less h.length swapped 0 (h.length - 1)
  pure r.1.dropLast

section Swap

variable {h h' : List α} {i j k : Nat}

theorem swap_eq_some (hi : i < h.length) (hj : j < h.length) :
    swap h i j = some ((h.set i h[j]).set j h[i]) := by
  simp [swap, List.getElem?_eq_getElem hi, List.getElem?_eq_getElem hj]

theorem swap_perm (hs : swap h i j = some h') : h'.Perm h := by
  unfold swap at hs
  cases ha : h[i]? with
  | none => simp [ha] at hs
  | some a =>
    cases hb : h[j]? with
    | none => simp [ha, hb] at hs
    | some b =>
      obtain ⟨hi, rfl⟩ := List.getElem?_eq_some_iff.1 ha
      obtain ⟨hj, rfl⟩ := List.getElem?_eq_some_iff.1 hb
      simp only [ha, hb, bind_eq_bind, bind_some, Option.pure_def,
        Option.some.injEq] at hs
      subst hs
      exact set_set_perm hi hj

theorem getElem?_swap (hi : i < h.length) (hj : j < h.length) (k : Nat)
    (hs : swap h i j = some h') :
    h'[k]? = if k = j then h[i]? else if k = i then h[j]? else h[k]? := by
  rw [swap_eq_some hi hj, Option.some.injEq] at hs
  subst hs
  by_cases hkj : k = j
  · subst hkj
    rw [if_pos rfl, List.getElem?_set_self (by simpa using hj), List.getElem?_eq_getElem hi]
  · rw [if_neg hkj, List.getElem?_set_ne (Ne.symm hkj)]
    by_cases hki : k = i
    · subst hki
      rw [if_pos rfl, List.getElem?_set_self hi, List.getElem?_eq_getElem hj]
    · rw [if_neg hki, List.getElem?_set_ne (Ne.symm hki)]

end Swap

def Child (p c : Nat) : Prop := c = 2 * p + 1 ∨ c = 2 * p + 2

variable (r : α → α → Prop)

/-- The items at two positions are in order, if both are there. -/
def InOrder (h : List α) (p c : Nat) : Prop := ∀ a b, h[p]? = some a → h[c]? = some b → r a b

def Below (h : List α) (lo : Nat) : Prop := ∀ p c, lo ≤ p → Child p c → InOrder r h p c

/-- The order while the item at `i` sinks: only its own children may be out of order,
and they are in order with its parent. -/
structure Sinking (h : List α) (lo i : Nat) : Prop where
  off : ∀ p c, lo ≤ p → p ≠ i → Child p c → InOrder r h p c
  across : ∀ p c, lo ≤ p → Child p i → Child i c → InOrder r h p c

/-- The test decides the order on the items of a list. -/
def Compares (h : List α) : Prop :=
  ∀ a ∈ h, ∀ b ∈ h, ∃ t, less a b = some t ∧ (t = true → r a b) ∧ (t = false → r b a)

variable {less r} {h h' : List α} {i j lo : Nat}

theorem Compares.perm (hc : Compares less r h) (hp : h'.Perm h) : Compares less r h' :=
  fun a ha b hb => hc a (hp.mem_iff.1 ha) b (hp.mem_iff.1 hb)

theorem Compares.lessAt (hc : Compares less r h) (hi : i < h.length) (hj : j < h.length) :
    ∃ t, lessAt less h i j = some t ∧ (t = true → InOrder r h i j) ∧
      (t = false → InOrder r h j i) := by
  obtain ⟨t, ht, hlt, hge⟩ := hc h[i] (getElem_mem hi) h[j] (getElem_mem hj)
  refine ⟨t, ?_, fun h' a b ha hb => ?_, fun h' a b ha hb => ?_⟩
  · simp [BinaryHeap.lessAt, List.getElem?_eq_getElem hi, List.getElem?_eq_getElem hj, ht]
  · rw [List.getElem?_eq_getElem hi, Option.some.injEq] at ha
    rw [List.getElem?_eq_getElem hj, Option.some.injEq] at hb
    exact ha ▸ hb ▸ hlt h'
  · rw [List.getElem?_eq_getElem hj, Option.some.injEq] at ha
    rw [List.getElem?_eq_getElem hi, Option.some.injEq] at hb
    exact ha ▸ hb ▸ hge h'

theorem InOrder.trans [IsTrans α r] {p q c : Nat} (hq : q < h.length) (hpq : InOrder r h p q)
    (hqc : InOrder r h q c) : InOrder r h p c := fun a b ha hb =>
  Trans.trans (hpq a h[q] ha (List.getElem?_eq_getElem hq))
    (hqc h[q] b (List.getElem?_eq_getElem hq) hb)

theorem lesserChild_spec [Std.Refl r] (hc : Compares less r h) (hi : 2 * i + 1 < h.length) :
    ∃ j, lesserChild less h i h.length = some j ∧ Child i j ∧ j < h.length ∧
      ∀ c, Child i c → InOrder r h j c := by
  have hself (k : Nat) : InOrder r h k k := fun a b ha hb => by
    rw [ha, Option.some.injEq] at hb
    exact hb ▸ refl a
  by_cases hright : 2 * i + 2 < h.length
  · obtain ⟨t, ht, hlt, hge⟩ := hc.lessAt hright hi
    cases t with
    | true =>
      refine ⟨2 * i + 2, by simp [lesserChild, hright, ht], .inr rfl, hright, ?_⟩
      rintro c (rfl | rfl)
      · exact hlt rfl
      · exact hself _
    | false =>
      refine ⟨2 * i + 1, by simp [lesserChild, hright, ht], .inl rfl, hi, ?_⟩
      rintro c (rfl | rfl)
      · exact hself _
      · exact hge rfl
  · refine ⟨2 * i + 1, by simp [lesserChild, hright], .inl rfl, hi, ?_⟩
    rintro c (rfl | rfl)
    · exact hself _
    · intro a b ha hb
      rw [List.getElem?_eq_none (by omega)] at hb
      cases hb

theorem Sinking.move (hs : Sinking r h lo i) (hlo : lo ≤ i) (hj : Child i j) (hlt : j < h.length)
    (hleast : ∀ c, Child i c → InOrder r h j c) (hless : InOrder r h j i)
    (hswap : swap h i j = some h') : Sinking r h' lo j := by
  have hi : i < h.length := by
    unfold Child at hj
    omega
  have hat := fun k => getElem?_swap hi hlt k hswap
  constructor
  · intro p c hp hne hchild a b ha hb
    rw [hat] at ha hb
    unfold Child at hj hchild
    rw [if_neg hne] at ha
    by_cases hpi : p = i
    · -- the new parent of both children is the chosen child
      subst hpi
      rw [if_pos rfl] at ha
      by_cases hcj : c = j
      · rw [if_pos hcj] at hb
        exact hless a b ha hb
      · rw [if_neg hcj, if_neg (by omega)] at hb
        exact hleast c hchild a b ha hb
    · rw [if_neg hpi] at ha
      rw [if_neg (by omega)] at hb
      by_cases hci : c = i
      · rw [if_pos hci] at hb
        subst hci
        exact hs.across p j hp hchild hj a b ha hb
      · rw [if_neg hci] at hb
        exact hs.off p c hp hpi hchild a b ha hb
  · intro p c hp hpj hjc a b ha hb
    rw [hat] at ha hb
    unfold Child at hj hpj hjc
    obtain rfl : p = i := by omega
    rw [if_neg (by omega), if_pos rfl] at ha
    rw [if_neg (by omega), if_neg (by omega)] at hb
    exact hs.off j c (by omega) (by omega) hjc a b ha hb

theorem down_spec [Std.Refl r] [IsTrans α r] {fuel : Nat} (hfuel : h.length ≤ i + fuel)
    (hc : Compares less r h) (hlo : lo ≤ i) (hs : Sinking r h lo i) :
    ∃ h' k, down less fuel h i h.length = some (h', k) ∧ h'.Perm h ∧ Below r h' lo := by
  induction fuel generalizing h i with
  | zero =>
    refine ⟨h, i, rfl, .rfl, fun p c hp hchild => ?_⟩
    by_cases hpi : p = i
    · intro a b _ hb
      unfold Child at hchild
      rw [List.getElem?_eq_none (by omega)] at hb
      cases hb
    · exact hs.off p c hp hpi hchild
  | succ fuel ih =>
    by_cases hleaf : h.length ≤ 2 * i + 1
    · refine ⟨h, i, by rw [down, if_pos hleaf], .rfl, fun p c hp hchild => ?_⟩
      by_cases hpi : p = i
      · intro a b _ hb
        unfold Child at hchild
        rw [List.getElem?_eq_none (by omega)] at hb
        cases hb
      · exact hs.off p c hp hpi hchild
    · obtain ⟨j, hj, hchild, hlt, hleast⟩ := lesserChild_spec hc (by omega : 2 * i + 1 < h.length)
      obtain ⟨t, ht, hless, hge⟩ := hc.lessAt hlt (by omega : i < h.length)
      cases t with
      | true =>
        have hswap := swap_eq_some (h := h) (by omega : i < h.length) hlt
        have hperm := swap_perm hswap
        have hmoved := hs.move hlo hchild hlt hleast (hless rfl) hswap
        rw [← hperm.length_eq] at hfuel
        obtain ⟨h', k, hdown, hperm', hbelow⟩ := ih (by unfold Child at hchild; omega)
          (hc.perm hperm) (by unfold Child at hchild; omega) hmoved
        refine ⟨h', k, ?_, hperm'.trans hperm, hbelow⟩
        rw [hperm.length_eq] at hdown
        rw [down, if_neg hleaf, hj]
        simp only [bind_eq_bind, bind_some, ht, hswap]
        exact hdown
      | false =>
        refine ⟨h, i, ?_, .rfl, fun p c hp hpc => ?_⟩
        · rw [down, if_neg hleaf, hj]
          simp [ht]
        · by_cases hpi : p = i
          · subst hpi
            exact (hge rfl).trans hlt (hleast c hpc)
          · exact hs.off p c hp hpi hpc

theorem Below.sinking (hb : Below r h (i + 1)) : Sinking r h i i := by
  constructor
  · intro p c hp hpi hchild
    exact hb p c (by omega) hchild
  · intro p c hp hpi _
    unfold Child at hpi
    omega

theorem initFrom_spec [Std.Refl r] [IsTrans α r] (hc : Compares less r h) (hb : Below r h i) :
    ∃ h', initFrom less i h = some h' ∧ h'.Perm h ∧ Below r h' 0 := by
  induction i generalizing h with
  | zero => exact ⟨h, rfl, .rfl, hb⟩
  | succ i ih =>
    obtain ⟨h₁, k, hdown, hperm, hbelow⟩ :=
      down_spec (Nat.le_add_left _ i) hc (Nat.le_refl i) hb.sinking
    obtain ⟨h', hinit, hperm', hbelow'⟩ := ih (hc.perm hperm) hbelow
    refine ⟨h', ?_, hperm'.trans hperm, hbelow'⟩
    rw [initFrom, hdown]
    exact hinit

theorem init_spec [Std.Refl r] [IsTrans α r] (hc : Compares less r h) :
    ∃ h', init less h = some h' ∧ h'.Perm h ∧ Below r h' 0 := by
  refine initFrom_spec hc fun p c hp hchild a b _ hb => ?_
  unfold Child at hchild
  rw [List.getElem?_eq_none (by omega)] at hb
  cases hb

theorem fix_root_spec [Std.Refl r] [IsTrans α r] (hc : Compares less r h) (hb : Below r h 1) :
    ∃ h', fix less h 0 = some h' ∧ h'.Perm h ∧ Below r h' 0 := by
  obtain ⟨h', k, hdown, hperm, hbelow⟩ :=
    down_spec (Nat.le_add_left _ 0) hc (Nat.le_refl 0) hb.sinking
  refine ⟨h', ?_, hperm, hbelow⟩
  rw [fix, hdown]
  -- the root has no parent, so an item that did not sink does not rise either
  have hup : up less h.length h' 0 = some h' := by cases h.length <;> rfl
  simp [hup]

theorem Below.of_le (hb : Below r h lo) {lo' : Nat} (hle : lo ≤ lo') : Below r h lo' :=
  fun p c hp => hb p c (Nat.le_trans hle hp)

theorem Below.behind_root {r' : α → α → Prop} {x y : α} {t : List α} (hb : Below r (x :: t) 1)
    (hr : ∀ a ∈ t, ∀ b ∈ t, r a b → r' a b) : Below r' (y :: t) 1 := by
  intro p c hp hchild a b ha hb'
  obtain ⟨p, rfl⟩ := Nat.exists_eq_add_one.2 hp
  obtain ⟨c, rfl⟩ : ∃ k, c = k + 1 := ⟨c - 1, by unfold Child at hchild; omega⟩
  rw [List.getElem?_cons_succ] at ha hb'
  refine hr a (mem_of_getElem? ha) b (mem_of_getElem? hb') ?_
  exact hb (p + 1) (c + 1) hp hchild a b (by rwa [List.getElem?_cons_succ])
    (by rwa [List.getElem?_cons_succ])

theorem swap_append {s : List α} (hi : i < h.length) (hj : j < h.length) :
    swap (h ++ s) i j = (swap h i j).map (· ++ s) := by
  have hi' : i < (h ++ s).length := by simp; omega
  have hj' : j < (h ++ s).length := by simp; omega
  rw [swap_eq_some hi hj, swap_eq_some hi' hj']
  simp [getElem_append_left hi, getElem_append_left hj, set_append_left,
    hi, hj]

theorem lessAt_append {s : List α} (hi : i < h.length) (hj : j < h.length) :
    lessAt less (h ++ s) i j = lessAt less h i j := by
  simp [lessAt, List.getElem?_append_left hi, List.getElem?_append_left hj]

theorem lesserChild_append {s : List α} (hi : 2 * i + 1 < h.length) :
    lesserChild less (h ++ s) i h.length = lesserChild less h i h.length := by
  unfold lesserChild
  by_cases hright : 2 * i + 2 < h.length
  · rw [if_pos hright, if_pos hright, lessAt_append hright hi]
  · rw [if_neg hright, if_neg hright]

theorem lesserChild_lt {n : Nat} (hi : 2 * i + 1 < n) (hj : lesserChild less h i n = some j) :
    j < n := by
  unfold lesserChild at hj
  by_cases hright : 2 * i + 2 < n
  · rw [if_pos hright] at hj
    cases hless : lessAt less h (2 * i + 2) (2 * i + 1) with
    | none =>
      rw [hless] at hj
      cases hj
    | some t =>
      rw [hless] at hj
      cases t <;> cases hj <;> assumption
  · rw [if_neg hright] at hj
    cases hj
    exact hi

theorem down_append {s : List α} {fuel n : Nat} (hn : h.length = n) :
    down less fuel (h ++ s) i n = (down less fuel h i n).map fun r => (r.1 ++ s, r.2) := by
  induction fuel generalizing h i with
  | zero => rfl
  | succ fuel ih =>
    rw [down, down]
    by_cases hleaf : n ≤ 2 * i + 1
    · rw [if_pos hleaf, if_pos hleaf]
      rfl
    · subst hn
      rw [if_neg hleaf, if_neg hleaf, lesserChild_append (by omega)]
      cases hj : lesserChild less h i h.length with
      | none => rfl
      | some j =>
        have hlt := lesserChild_lt (by omega) hj
        simp only [bind_eq_bind, bind_some]
        rw [lessAt_append hlt (by omega), swap_append (by omega) hlt]
        cases ht : lessAt less h j i with
        | none => rfl
        | some t =>
          cases t with
          | false => rfl
          | true =>
            have hswap := swap_eq_some (h := h) (by omega : i < h.length) hlt
            rw [hswap]
            exact ih (swap_perm hswap).length_eq

theorem pop_spec [Std.Refl r] [IsTrans α r] {top : α} {rest : List α}
    (hc : Compares less r rest) (hb : Below r (top :: rest) 1) :
    ∃ h', pop less (top :: rest) = some h' ∧ h'.Perm rest ∧ Below r h' 0 := by
  rcases eq_nil_or_concat rest with rfl | ⟨front, last, rfl⟩
  · exact ⟨[], rfl, .rfl, fun p c _ _ a b ha _ => by simp at ha⟩
  · rw [concat_eq_append] at hc hb ⊢
    have hperm : (last :: front).Perm (front ++ [last]) := (perm_append_singleton last front).symm
    have hswap : swap (top :: (front ++ [last])) 0 (front.length + 1) =
        some ((last :: front) ++ [top]) := by
      rw [swap_eq_some (by simp) (by simp)]
      simp
    have hsink : Sinking r (last :: front) 0 0 := by
      constructor
      · intro p c _ hp hchild a b ha hb'
        have hkeep (k : Nat) (hk : k ≠ 0) (x : α) (hx : (last :: front)[k]? = some x) :
            (top :: (front ++ [last]))[k]? = some x := by
          obtain ⟨k, rfl⟩ := Nat.exists_eq_succ_of_ne_zero hk
          rw [List.getElem?_cons_succ] at hx ⊢
          rw [List.getElem?_append_left (List.getElem?_eq_some_iff.1 hx).1, hx]
        exact hb p c (by omega) hchild a b (hkeep p hp a ha)
          (hkeep c (by unfold Child at hchild; omega) b hb')
      · intro p c _ hp _
        unfold Child at hp
        omega
    obtain ⟨h', k, hdown, hperm', hbelow⟩ :=
      down_spec (show (last :: front).length ≤ 0 + (top :: (front ++ [last])).length by simp)
        (hc.perm hperm) (Nat.le_refl 0) hsink
    refine ⟨h', ?_, hperm'.trans hperm, hbelow⟩
    have hlen : (top :: (front ++ [last])).length - 1 = front.length + 1 := by simp
    rw [pop, hlen, hswap]
    simp only [bind_eq_bind, bind_some]
    rw [down_append (by simp), ← length_cons (a := last), hdown]
    simp

theorem Below.root_le [Std.Refl r] [IsTrans α r] {top : α} {rest : List α}
    (hb : Below r (top :: rest) 0) {b : α} (hmem : b ∈ top :: rest) : r top b := by
  have hat (k : Nat) : ∀ x, (top :: rest)[k]? = some x → r top x := by
    induction k using Nat.strongRecOn with
    | ind k ih =>
      intro x hx
      by_cases hk : k = 0
      · subst hk
        cases hx
        exact refl top
      · have hlt := (List.getElem?_eq_some_iff.1 hx).1
        have hparent : (k - 1) / 2 < (top :: rest).length := by omega
        have hget := List.getElem?_eq_getElem hparent
        have hstep := hb ((k - 1) / 2) k (Nat.zero_le _) (by unfold Child; omega) _ x hget hx
        exact Trans.trans (ih ((k - 1) / 2) (by omega) _ hget) hstep
  obtain ⟨k, hk⟩ := mem_iff_getElem?.1 hmem
  exact hat k b hk

end BinaryHeap
