import Mathlib.Data.List.Nodup
import Mathlib.Logic.Function.Basic

/-!
# Circular doubly linked lists

The links of a list are two functions on nodes. A ring leads from a sentinel through its
members and back to the sentinel, in both directions. A node is taken out by linking its
neighbours with each other, and put in right behind the sentinel.
-/

namespace DoublyLinked

open List

structure Links (α : Type*) where
  next : α → α
  prev : α → α

namespace Links

variable {α : Type*} {L L' : Links α} {a b e root : α} {p q l : List α}

/-- The links lead from `a` through `l` to `b`, and back. -/
def Segment (L : Links α) : α → List α → α → Prop
  | a, [], b => L.next a = b ∧ L.prev b = a
  | a, x :: l, b => (L.next a = x ∧ L.prev x = a) ∧ Segment L x l b

theorem Segment.congr (h : L.Segment a l b) (hnext : ∀ x ∈ a :: l, L'.next x = L.next x)
    (hprev : ∀ x ∈ l ++ [b], L'.prev x = L.prev x) : L'.Segment a l b := by
  induction l generalizing a with
  | nil => exact ⟨(hnext a (by simp)).trans h.1, (hprev b (by simp)).trans h.2⟩
  | cons x l ih =>
    refine ⟨⟨(hnext a (by simp)).trans h.1.1, (hprev x (by simp)).trans h.1.2⟩, ih h.2 ?_ ?_⟩
    · exact fun y hy => hnext y (mem_cons_of_mem a hy)
    · exact fun y hy => hprev y (mem_cons_of_mem x hy)

theorem segment_append :
    L.Segment a (p ++ e :: q) b ↔ L.Segment a p e ∧ L.Segment e q b := by
  induction p generalizing a with
  | nil => exact Iff.rfl
  | cons x p ih =>
    change _ ∧ L.Segment x (p ++ e :: q) b ↔ (_ ∧ L.Segment x p e) ∧ _
    rw [ih]
    exact and_assoc.symm

theorem Segment.prev_mem (h : L.Segment a l b) : L.prev b ∈ a :: l := by
  induction l generalizing a with
  | nil => exact mem_singleton.2 h.2
  | cons x l ih => exact mem_cons_of_mem a (ih h.2)

theorem Segment.next_mem (h : L.Segment a l b) : L.next a ∈ l ++ [b] := by
  cases l with
  | nil => exact mem_singleton.2 h.1
  | cons x l => exact mem_append_left _ (by rw [h.1.1]; exact mem_cons_self)

/-- A ring: the sentinel and the members are distinct, and the links go round. -/
structure Ring (L : Links α) (root : α) (l : List α) : Prop where
  nodup : (root :: l).Nodup
  around : L.Segment root l root

theorem Ring.root_notMem (h : L.Ring root l) : root ∉ l := (nodup_cons.1 h.nodup).1

theorem Ring.prev_root_concat (h : L.Ring root (l ++ [e])) : L.prev root = e :=
  (segment_append.1 h.around).2.2

theorem Ring.prev_root_nil (h : L.Ring root []) : L.prev root = root := h.around.2

variable [DecidableEq α]

def unlink (L : Links α) (e : α) : Links α where
  next := Function.update L.next (L.prev e) (L.next e)
  prev := Function.update L.prev (L.next e) (L.prev e)

def pushFront (L : Links α) (root e : α) : Links α where
  next := Function.update (Function.update L.next e (L.next root)) root e
  prev := Function.update (Function.update L.prev e root) (L.next root) e

theorem Segment.unlink (hp : L.Segment a p e) (hq : L.Segment e q b)
    (hnodup : (a :: (p ++ e :: q)).Nodup) (hb : b ∉ p ++ e :: q) :
    (L.unlink e).Segment a (p ++ q) b := by
  induction p generalizing a with
  | nil =>
    have ha : L.prev e = a := hp.2
    cases q with
    | nil =>
      have hnext : L.next e = b := hq.1
      exact ⟨by simp [Links.unlink, ha, hnext], by simp [Links.unlink, ha, hnext]⟩
    | cons y q =>
      -- `y` takes the place of `e`; the links behind it are not touched
      have hnext : L.next e = y := hq.1.1
      rw [nil_append, nodup_cons, nodup_cons, nodup_cons] at hnodup
      refine ⟨⟨by simp [Links.unlink, ha, hnext], by simp [Links.unlink, ha, hnext]⟩, ?_⟩
      refine hq.2.congr (fun x hx => ?_) fun x hx => ?_
      · have hne : x ≠ a := fun heq => hnodup.1 (heq ▸ mem_cons_of_mem e hx)
        simp [Links.unlink, ha, hne]
      · have hne : x ≠ y := by
          rintro rfl
          rcases mem_append.1 hx with hx | hx
          · exact hnodup.2.2.1 hx
          · exact hb (mem_singleton.1 hx ▸ by simp)
        simp [Links.unlink, hnext, hne]
  | cons x p ih =>
    rw [cons_append] at hnodup hb
    have hrest := ih hp.2 (nodup_cons.1 hnodup).2 fun hmem => hb (mem_cons_of_mem x hmem)
    refine ⟨⟨?_, ?_⟩, hrest⟩
    · have hne : a ≠ L.prev e := by
        intro heq
        have hmem := hp.2.prev_mem
        rw [← heq] at hmem
        exact (nodup_cons.1 hnodup).1
          (cons_subset_cons x (subset_append_left p _) hmem)
      simp [Links.unlink, hne, hp.1.1]
    · have hne : x ≠ L.next e := by
        intro heq
        have hmem := hq.next_mem
        rw [← heq] at hmem
        rcases mem_append.1 hmem with hmem | hmem
        · exact (nodup_cons.1 (nodup_cons.1 hnodup).2).1 (by simp [hmem])
        · exact hb (mem_singleton.1 hmem ▸ mem_cons_self)
      simp [Links.unlink, hne, hp.1.2]

theorem Ring.unlink (h : L.Ring root (p ++ e :: q)) : (L.unlink e).Ring root (p ++ q) := by
  obtain ⟨hp, hq⟩ := segment_append.1 h.around
  refine ⟨h.nodup.sublist ?_, hp.unlink hq h.nodup h.root_notMem⟩
  exact (List.Sublist.append_left (sublist_cons_self e q) p).cons_cons root

theorem Ring.pushFront (h : L.Ring root l) (he : e ∉ root :: l) :
    (L.pushFront root e).Ring root (e :: l) := by
  rw [mem_cons, not_or] at he
  have hroot := h.root_notMem
  refine ⟨?_, ?_⟩
  · rw [nodup_cons, nodup_cons, mem_cons, not_or]
    exact ⟨⟨Ne.symm he.1, hroot⟩, he.2, (nodup_cons.1 h.nodup).2⟩
  cases l with
  | nil =>
    have hnext : L.next root = root := h.around.1
    exact ⟨⟨by simp [Links.pushFront], by simp [Links.pushFront, hnext, he.1]⟩,
      by simp [Links.pushFront, hnext, he.1], by simp [Links.pushFront, hnext]⟩
  | cons x l =>
    have hnext : L.next root = x := h.around.1.1
    have hex : e ≠ x := fun heq => he.2 (heq ▸ mem_cons_self)
    have hx := (nodup_cons.1 (nodup_cons.1 h.nodup).2).1
    refine ⟨⟨by simp [Links.pushFront], by simp [Links.pushFront, hnext, hex]⟩,
      ⟨by simp [Links.pushFront, hnext, he.1], by simp [Links.pushFront, hnext]⟩, ?_⟩
    refine h.around.2.congr (fun y hy => ?_) fun y hy => ?_
    · have hyr : y ≠ root := fun heq => hroot (heq ▸ hy)
      have hye : y ≠ e := fun heq => he.2 (heq ▸ hy)
      simp [Links.pushFront, hyr, hye]
    · have hye : y ≠ e := by
        rintro rfl
        rcases mem_append.1 hy with hy | hy
        · exact he.2 (mem_cons_of_mem x hy)
        · exact he.1 (mem_singleton.1 hy)
      have hyx : y ≠ x := by
        rintro rfl
        rcases mem_append.1 hy with hy | hy
        · exact hx hy
        · exact hroot (mem_singleton.1 hy ▸ mem_cons_self)
      simp [Links.pushFront, hnext, hyx, hye]

end Links

end DoublyLinked
