import Mathlib.Data.List.InsertIdx
import Mathlib.Logic.Function.Basic

/-!
# Reference counts

An object is created with one reference. It can be acquired while it has a
reference, and released; whoever releases the last reference closes the object
afterwards, and removes it if a release has asked for that.
-/

namespace RefCount

open List Function

structure Obj where
  refs : Nat
  removeOnZero : Bool
  closes : Nat
  removes : Nat
  deriving DecidableEq

/-- The objects, and what is left to do for those without references: closings, each with
whether a removal follows, and removals. -/
structure Heap (α : Type*) where
  objs : α → Obj
  toClose : List (α × Bool)
  toRemove : List α

namespace Heap

variable {α : Type*} [DecidableEq α]

def unborn : Obj := ⟨0, false, 0, 0⟩

def create (h : Heap α) (a : α) : Heap α :=
  { h with objs := Function.update h.objs a { unborn with refs := 1 } }

def addRef (h : Heap α) (a : α) : Heap α :=
  { h with objs := Function.update h.objs a { h.objs a with refs := (h.objs a).refs + 1 } }

/-- Refused without a reference. -/
def acquire (h : Heap α) (a : α) : Bool × Heap α :=
  if (h.objs a).refs = 0 then (false, h) else (true, h.addRef a)

def release (h : Heap α) (a : α) (remove : Bool) : Heap α :=
  let o := { h.objs a with
    removeOnZero := (h.objs a).removeOnZero || remove
    refs := (h.objs a).refs - 1 }
  { h with
    objs := Function.update h.objs a o
    toClose := if o.refs = 0 then h.toClose ++ [(a, o.removeOnZero)] else h.toClose }

def close (h : Heap α) (i : Nat) : Option (Heap α) :=
  (h.toClose[i]?).map fun c =>
    { objs := Function.update h.objs c.1 { h.objs c.1 with closes := (h.objs c.1).closes + 1 }
      toClose := h.toClose.eraseIdx i
      toRemove := if c.2 then h.toRemove ++ [c.1] else h.toRemove }

def remove (h : Heap α) (i : Nat) : Option (Heap α) :=
  (h.toRemove[i]?).map fun a =>
    { h with
      objs := Function.update h.objs a { h.objs a with removes := (h.objs a).removes + 1 }
      toRemove := h.toRemove.eraseIdx i }

def closings (h : Heap α) (a : α) : Nat := (h.toClose.map Prod.fst).count a + (h.objs a).closes

def removals (h : Heap α) (a : α) : Nat :=
  h.toClose.count (a, true) + h.toRemove.count a + (h.objs a).removes

/-- Nothing has happened to the object but, maybe, that something left to do was done. -/
def Same (h' h : Heap α) (a : α) : Prop :=
  (h'.objs a).refs = (h.objs a).refs ∧ (h'.objs a).removeOnZero = (h.objs a).removeOnZero ∧
    h'.closings a = h.closings a ∧ h'.removals a = h.removals a

/-- The books: the counts are those of the references held; exactly the created objects
without references are closed, once, and among them those that were to be removed removed. -/
structure Accounts (h : Heap α) (born : α → Prop) (held : List α) : Prop where
  refs : ∀ a, (h.objs a).refs = held.count a
  held : ∀ a ∈ held, born a
  closes : ∀ a, born a → h.closings a = if (h.objs a).refs = 0 then 1 else 0
  removes : ∀ a, born a →
    h.removals a = if (h.objs a).refs = 0 ∧ (h.objs a).removeOnZero = true then 1 else 0
  unborn : ∀ a, ¬ born a → h.closings a = 0 ∧ h.removals a = 0

variable {h h' : Heap α} {born : α → Prop} {held held' : List α} {a b : α}

section

variable (hacc : h.Accounts born held)
include hacc

theorem Accounts.refs_pos : 0 < (h.objs a).refs ↔ a ∈ held := by
  rw [hacc.refs a, count_pos_iff]

theorem Accounts.untouched (ha : a ∈ held) :
    h.closings a = 0 ∧ h.removals a = 0 := by
  have hpos := hacc.refs_pos.2 ha
  have hborn := hacc.held a ha
  rw [hacc.closes a hborn, hacc.removes a hborn, if_neg (by omega), if_neg (by omega)]
  exact ⟨rfl, rfl⟩

theorem Accounts.perm (hperm : held'.Perm held) :
    h.Accounts born held' :=
  ⟨fun b => (hacc.refs b).trans (hperm.count_eq b).symm, fun b hb => hacc.held b (hperm.subset hb),
    hacc.closes, hacc.removes, hacc.unborn⟩

theorem Accounts.create {born' : α → Prop} (ha : ¬ born a)
    (hborn : ∀ b, born' b ↔ born b ∨ b = a) : (h.create a).Accounts born' (a :: held) := by
  have hout : a ∉ held := fun hmem => ha (hacc.held a hmem)
  have hother : ∀ {b}, b ≠ a → (h.create a).objs b = h.objs b := fun hb => update_of_ne hb ..
  have hself : (h.create a).objs a = { Heap.unborn with refs := 1 } := update_self ..
  -- nothing is left to do for an object that was not there
  have hzero := hacc.unborn a ha
  unfold closings removals at hzero
  have hfresh : (h.create a).closings a = 0 ∧ (h.create a).removals a = 0 := by
    unfold closings removals
    rw [hself]
    change (h.toClose.map Prod.fst).count a + 0 = 0 ∧
      h.toClose.count (a, true) + h.toRemove.count a + 0 = 0
    omega
  have hsame : ∀ {b}, b ≠ a → (h.create a).closings b = h.closings b ∧
      (h.create a).removals b = h.removals b := by
    intro b hb
    unfold closings removals
    rw [hother hb]
    exact ⟨rfl, rfl⟩
  refine ⟨?_, ?_, ?_, ?_, ?_⟩
  · intro b
    by_cases hb : b = a
    · subst hb
      rw [hself, count_cons_self, count_eq_zero.2 hout]
    · rw [hother hb, hacc.refs b, count_cons_of_ne (Ne.symm hb)]
  · intro b hb
    rcases mem_cons.1 hb with rfl | hb
    · exact (hborn b).2 (.inr rfl)
    · exact (hborn b).2 (.inl (hacc.held b hb))
  · intro b hb
    by_cases hba : b = a
    · subst hba
      rw [hfresh.1, hself]
      rfl
    · rw [(hsame hba).1, hother hba]
      exact hacc.closes b (((hborn b).1 hb).resolve_right hba)
  · intro b hb
    by_cases hba : b = a
    · subst hba
      rw [hfresh.2, hself]
      rfl
    · rw [(hsame hba).2, hother hba]
      exact hacc.removes b (((hborn b).1 hb).resolve_right hba)
  · intro b hb
    have hba : b ≠ a := fun heq => hb ((hborn b).2 (.inr heq))
    rw [(hsame hba).1, (hsame hba).2]
    exact hacc.unborn b fun hold => hb ((hborn b).2 (.inl hold))

theorem Accounts.update (hother : ∀ b, b ≠ a → h'.Same h b)
    (hrefs : ∀ b, (h'.objs b).refs = held'.count b) (hheld : ∀ b ∈ held', born b) (ha : born a)
    (hcloses : h'.closings a = if (h'.objs a).refs = 0 then 1 else 0)
    (hremoves : h'.removals a =
      if (h'.objs a).refs = 0 ∧ (h'.objs a).removeOnZero = true then 1 else 0) :
    h'.Accounts born held' := by
  refine ⟨hrefs, hheld, ?_, ?_, ?_⟩
  · intro b hb
    by_cases hba : b = a
    · subst hba
      exact hcloses
    · rw [(hother b hba).2.2.1, (hother b hba).1]
      exact hacc.closes b hb
  · intro b hb
    by_cases hba : b = a
    · subst hba
      exact hremoves
    · rw [(hother b hba).2.2.2, (hother b hba).1, (hother b hba).2.1]
      exact hacc.removes b hb
  · intro b hb
    have hba : b ≠ a := fun heq => hb (heq ▸ ha)
    rw [(hother b hba).2.2.1, (hother b hba).2.2.2]
    exact hacc.unborn b hb

theorem Accounts.acquire (ha : a ∈ held) :
    h.acquire a = (true, h.addRef a) ∧ (h.addRef a).Accounts born (a :: held) := by
  have hpos := hacc.refs_pos.2 ha
  obtain ⟨hclosings, hremovals⟩ := hacc.untouched ha
  unfold closings at hclosings
  unfold removals at hremovals
  have hself : (h.addRef a).objs a = { h.objs a with refs := (h.objs a).refs + 1 } :=
    update_self ..
  have hother : ∀ {b}, b ≠ a → (h.addRef a).objs b = h.objs b := fun hb => update_of_ne hb ..
  refine ⟨if_neg (by omega), hacc.update (a := a) ?_ ?_ ?_ (hacc.held a ha) ?_ ?_⟩
  · intro b hb
    unfold Same closings removals
    rw [hother hb]
    exact ⟨rfl, rfl, rfl, rfl⟩
  · intro b
    by_cases hb : b = a
    · subst hb
      rw [hself, count_cons_self, hacc.refs b]
    · rw [hother hb, count_cons_of_ne (Ne.symm hb), hacc.refs b]
  · intro b hb
    rcases mem_cons.1 hb with rfl | hb
    · exact hacc.held b ha
    · exact hacc.held b hb
  · unfold closings
    rw [hself, if_neg (Nat.succ_ne_zero _)]
    exact hclosings
  · unfold removals
    rw [hself, if_neg fun hboth => Nat.succ_ne_zero _ hboth.1]
    exact hremovals

end

theorem Accounts.release (hacc : h.Accounts born (a :: held)) (remove : Bool) :
    (h.release a remove).Accounts born held := by
  have hpos := hacc.refs_pos.2 (mem_cons_self (a := a))
  obtain ⟨hclosings, hremovals⟩ := hacc.untouched (mem_cons_self (a := a))
  unfold closings at hclosings
  unfold removals at hremovals
  have hself : (h.release a remove).objs a = { h.objs a with
      removeOnZero := (h.objs a).removeOnZero || remove
      refs := (h.objs a).refs - 1 } := update_self ..
  have hother : ∀ {b}, b ≠ a → (h.release a remove).objs b = h.objs b :=
    fun hb => update_of_ne hb ..
  refine hacc.update (a := a) ?_ ?_ ?_ (hacc.held a mem_cons_self) ?_ ?_
  · intro b hb
    unfold Same closings removals
    rw [hother hb]
    refine ⟨rfl, rfl, ?_, ?_⟩
    · unfold Heap.release
      dsimp only
      split
      · simp [count_append, Ne.symm hb]
      · rfl
    · unfold Heap.release
      dsimp only
      split
      · simp [count_append, Ne.symm hb]
      · rfl
  · intro b
    have hcount := hacc.refs b
    by_cases hb : b = a
    · subst hb
      rw [count_cons_self] at hcount
      rw [hself]
      exact Nat.sub_eq_of_eq_add hcount
    · rw [hother hb, hcount, count_cons_of_ne (Ne.symm hb)]
  · exact fun b hb => hacc.held b (mem_cons_of_mem a hb)
  · unfold closings
    rw [hself]
    unfold Heap.release
    dsimp only
    split
    · rw [map_append, count_append]
      simp only [map_cons, map_nil, count_singleton_self]
      omega
    · exact hclosings
  · unfold removals
    rw [hself]
    unfold Heap.release
    dsimp only
    by_cases hzero : (h.objs a).refs - 1 = 0
    · rw [if_pos hzero, count_append]
      cases hdel : (h.objs a).removeOnZero || remove
      · simp only [Bool.false_eq_true, and_false, if_false, count_singleton]
        simp only [Prod.mk.injEq, Bool.false_eq_true, and_false, beq_iff_eq, if_false]
        omega
      · simp only [hzero, and_self, if_true, count_singleton_self]
        omega
    · rw [if_neg hzero, if_neg fun hboth => hzero hboth.1]
      exact hremovals

theorem create_objs_of_ne (h : Heap α) (hb : b ≠ a) : (h.create a).objs b = h.objs b :=
  update_of_ne hb ..

theorem addRef_removeOnZero (h : Heap α) (a b : α) :
    ((h.addRef a).objs b).removeOnZero = (h.objs b).removeOnZero := by
  by_cases hb : b = a
  · subst hb
    change (Function.update h.objs b _ b).removeOnZero = _
    rw [update_self]
  · change (Function.update h.objs a _ b).removeOnZero = _
    rw [update_of_ne hb]

theorem release_removeOnZero (h : Heap α) (a : α) (remove : Bool) (b : α) :
    ((h.release a remove).objs b).removeOnZero =
      ((h.objs b).removeOnZero || (remove && decide (b = a))) := by
  by_cases hb : b = a
  · subst hb
    change (Function.update h.objs b _ b).removeOnZero = _
    rw [update_self]
    simp
  · change (Function.update h.objs a _ b).removeOnZero = _
    rw [update_of_ne hb]
    simp [hb]

theorem count_eraseIdx {β : Type*} [BEq β] [LawfulBEq β] {l : List β} {i : Nat} {x : β}
    (hi : l[i]? = some x) (y : β) :
    (l.eraseIdx i).count y + (if x == y then 1 else 0) = l.count y := by
  induction l generalizing i with
  | nil => cases hi
  | cons z l ih =>
    cases i with
    | zero =>
      cases hi
      rw [eraseIdx_cons_zero, count_cons]
    | succ i =>
      have hrest := ih (show l[i]? = some x from hi)
      rw [eraseIdx_cons_succ, count_cons, count_cons]
      omega

theorem Accounts.congr (hacc : h.Accounts born held)
    (hsame : ∀ b, h'.Same h b) : h'.Accounts born held := by
  refine ⟨fun b => (hsame b).1.trans (hacc.refs b), hacc.held, ?_, ?_, ?_⟩
  · intro b hb
    rw [(hsame b).2.2.1, (hsame b).1]
    exact hacc.closes b hb
  · intro b hb
    rw [(hsame b).2.2.2, (hsame b).1, (hsame b).2.1]
    exact hacc.removes b hb
  · intro b hb
    rw [(hsame b).2.2.1, (hsame b).2.2.2]
    exact hacc.unborn b hb

theorem close_same {i : Nat} (hclose : h.close i = some h') (b : α) : h'.Same h b := by
  obtain ⟨⟨a, del⟩, hi, rfl⟩ := Option.map_eq_some_iff.1 hclose
  have hfirst : ((h.toClose.eraseIdx i).map Prod.fst).count b + (if a == b then 1 else 0) =
      (h.toClose.map Prod.fst).count b := by
    rw [← eraseIdx_map]
    exact count_eraseIdx (by rw [List.getElem?_map, hi]; rfl) b
  have hpair := count_eraseIdx hi (b, true)
  unfold Same closings removals
  dsimp only
  by_cases hb : b = a
  · subst hb
    rw [update_self]
    rw [if_pos (beq_self_eq_true b)] at hfirst
    refine ⟨rfl, rfl, by dsimp only; omega, ?_⟩
    cases del
    · rw [if_neg (by simp)] at hpair
      rw [if_neg Bool.false_ne_true]
      dsimp only
      omega
    · rw [if_pos (beq_self_eq_true _)] at hpair
      rw [if_pos rfl, count_append, count_singleton_self]
      dsimp only
      omega
  · rw [update_of_ne hb]
    rw [if_neg (by simp [Ne.symm hb])] at hfirst hpair
    refine ⟨rfl, rfl, by omega, ?_⟩
    cases del
    · rw [if_neg Bool.false_ne_true]
      omega
    · rw [if_pos rfl, count_append, count_singleton, if_neg (by simp [Ne.symm hb])]
      omega

theorem remove_same {i : Nat} (hremove : h.remove i = some h') (b : α) : h'.Same h b := by
  obtain ⟨a, hi, rfl⟩ := Option.map_eq_some_iff.1 hremove
  have hcount := count_eraseIdx hi b
  unfold Same closings removals
  dsimp only
  by_cases hb : b = a
  · subst hb
    rw [update_self]
    rw [if_pos (beq_self_eq_true b)] at hcount
    exact ⟨rfl, rfl, rfl, by dsimp only; omega⟩
  · rw [update_of_ne hb]
    rw [if_neg (by simp [Ne.symm hb])] at hcount
    exact ⟨rfl, rfl, rfl, by omega⟩

end Heap

end RefCount
