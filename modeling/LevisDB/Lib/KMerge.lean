import Mathlib.Data.List.Sort

/-!
# K-way merge of fallible sources

A source yields items in ascending order and may end in an error.
-/

namespace KMerge

open List

structure Source (α ε : Type*) where
  items : List α
  err : Option ε

structure Node (α ε : Type*) where
  head : α
  rest : List α
  err : Option ε

structure Merge (α ε : Type*) where
  heap : List (Node α ε)
  err : Option ε

variable {α ε : Type*} (r : α → α → Prop) [DecidableRel r]

def NodeOrder (a b : Node α ε) : Prop := r a.head b.head

instance : DecidableRel (NodeOrder r : Node α ε → Node α ε → Prop) :=
  fun a b => inferInstanceAs (Decidable (r a.head b.head))

def Node.items (n : Node α ε) : List α := n.head :: n.rest

/-- Primes a source; one that is empty because it failed makes the merge fail. -/
def push (m : Merge α ε) (s : Source α ε) : Merge α ε :=
  match s.items with
  | [] => ⟨m.heap, m.err.or s.err⟩
  | a :: rest => ⟨m.heap.orderedInsert (NodeOrder r) ⟨a, rest, s.err⟩, m.err⟩

def start (sources : List (Source α ε)) : Merge α ε := sources.foldl (push r) ⟨[], none⟩

def next (m : Merge α ε) : Option (α × Merge α ε) :=
  match m.err, m.heap with
  | some _, _ => none
  | none, [] => none
  | none, top :: heap =>
    match top.rest with
    | [] => some (top.head, ⟨heap, top.err⟩)
    | a :: rest => some (top.head, ⟨heap.orderedInsert (NodeOrder r) ⟨a, rest, top.err⟩, none⟩)

def drain : Nat → Merge α ε → List α × Option ε
  | 0, m => ([], m.err)
  | fuel + 1, m =>
    match next r m with
    | none => ([], m.err)
    | some (a, m') => (a :: (drain fuel m').1, (drain fuel m').2)

def Merge.pending (m : Merge α ε) : List α := m.heap.flatMap Node.items

/-- Everything the sources yield, and the error the merge ends with. -/
def merge (sources : List (Source α ε)) : List α × Option ε :=
  drain r ((start r sources).pending.length) (start r sources)

section Items

variable {r}

theorem pending_insert (n : Node α ε) (heap : List (Node α ε)) (err : Option ε) :
    ((Merge.mk (heap.orderedInsert (NodeOrder r) n) err).pending).Perm
      (n.items ++ (Merge.mk heap err).pending) :=
  (perm_orderedInsert (NodeOrder r) n heap).flatMap_right Node.items

theorem push_pending (m : Merge α ε) (s : Source α ε) :
    (push r m s).pending.Perm (s.items ++ m.pending) := by
  unfold push
  cases hs : s.items with
  | nil => exact List.Perm.refl _
  | cons a rest => exact pending_insert _ _ _

theorem foldl_push_pending (sources : List (Source α ε)) (m : Merge α ε) :
    (sources.foldl (push r) m).pending.Perm (sources.flatMap Source.items ++ m.pending) := by
  induction sources generalizing m with
  | nil => exact List.Perm.refl _
  | cons s sources ih =>
    rw [foldl_cons, flatMap_cons, append_assoc]
    refine (ih (push r m s)).trans ?_
    refine ((push_pending m s).append_left _).trans ?_
    rw [← append_assoc, ← append_assoc]
    exact perm_append_comm.append_right _

theorem start_pending (sources : List (Source α ε)) :
    (start r sources).pending.Perm (sources.flatMap Source.items) := by
  simpa [start, Merge.pending] using foldl_push_pending sources (⟨[], none⟩ : Merge α ε)

theorem next_pending {m m' : Merge α ε} {a : α} (h : next r m = some (a, m')) :
    m.pending.Perm (a :: m'.pending) := by
  obtain ⟨heap, err⟩ := m
  unfold next at h
  cases err with
  | some e => cases h
  | none =>
    cases heap with
    | nil => cases h
    | cons top heap =>
      obtain ⟨head, rest, err⟩ := top
      cases rest with
      | nil =>
        cases h
        exact List.Perm.refl _
      | cons b rest =>
        cases h
        exact (pending_insert ⟨b, rest, err⟩ heap none).symm.cons head

end Items

/-- The queue is ordered by next item and every source in it is ascending. -/
structure Ordered (m : Merge α ε) : Prop where
  heap : m.heap.Pairwise (NodeOrder r)
  sources : ∀ n ∈ m.heap, n.items.Pairwise r

section Order

variable {r} [Std.Total r] [IsTrans α r]

instance : Std.Total (NodeOrder r : Node α ε → Node α ε → Prop) :=
  ⟨fun a b => Std.Total.total (r := r) a.head b.head⟩

instance : IsTrans (Node α ε) (NodeOrder r) :=
  ⟨fun _ _ _ hab hbc => IsTrans.trans (r := r) _ _ _ hab hbc⟩

theorem Ordered.insert {heap : List (Node α ε)} {err err' : Option ε} {n : Node α ε}
    (h : Ordered r ⟨heap, err⟩) (hn : n.items.Pairwise r) :
    Ordered r ⟨heap.orderedInsert (NodeOrder r) n, err'⟩ where
  heap := h.heap.orderedInsert n heap
  sources := by
    intro x hx
    rcases (mem_orderedInsert _).1 hx with rfl | hx
    · exact hn
    · exact h.sources x hx

theorem Ordered.push {m : Merge α ε} {s : Source α ε} (h : Ordered r m)
    (hs : s.items.Pairwise r) : Ordered r (push r m s) := by
  obtain ⟨items, err⟩ := s
  cases items with
  | nil => exact ⟨h.heap, h.sources⟩
  | cons a rest =>
    obtain ⟨heap, merr⟩ := m
    exact h.insert hs

theorem start_ordered {sources : List (Source α ε)}
    (hs : ∀ s ∈ sources, s.items.Pairwise r) : Ordered r (start r sources) := by
  have hfold : ∀ (sources : List (Source α ε)) (m : Merge α ε), Ordered r m →
      (∀ s ∈ sources, s.items.Pairwise r) → Ordered r (sources.foldl (KMerge.push r) m) := by
    intro sources
    induction sources with
    | nil => exact fun m hm _ => hm
    | cons s sources ih =>
      intro m hm hall
      exact ih _ (hm.push (hall s (by simp))) (fun x hx => hall x (by simp [hx]))
  exact hfold sources _ ⟨List.Pairwise.nil, by simp⟩ hs

theorem Ordered.next {m m' : Merge α ε} {a : α} (h : Ordered r m)
    (hn : next r m = some (a, m')) : Ordered r m' := by
  obtain ⟨heap, err⟩ := m
  unfold KMerge.next at hn
  cases err with
  | some e => cases hn
  | none =>
    cases heap with
    | nil => cases hn
    | cons top heap =>
      have htail : Ordered r ⟨heap, none⟩ :=
        ⟨(pairwise_cons.1 h.heap).2, fun n hn => h.sources n (mem_cons_of_mem _ hn)⟩
      have htop := h.sources top (by simp)
      obtain ⟨head, rest, err⟩ := top
      cases rest with
      | nil =>
        cases hn
        exact ⟨htail.heap, htail.sources⟩
      | cons b rest =>
        cases hn
        exact htail.insert (pairwise_cons.1 htop).2

theorem Ordered.next_le {m m' : Merge α ε} {a : α} (h : Ordered r m)
    (hn : KMerge.next r m = some (a, m')) : ∀ b ∈ m'.pending, r a b := by
  obtain ⟨heap, err⟩ := m
  have hperm := next_pending hn
  intro b hb
  have hb' : b ∈ (Merge.mk heap err).pending := hperm.mem_iff.2 (mem_cons_of_mem _ hb)
  unfold KMerge.next at hn
  cases err with
  | some e => cases hn
  | none =>
    cases heap with
    | nil => cases hn
    | cons top heap =>
      have ha : a = top.head := by
        obtain ⟨head, rest, err⟩ := top
        cases rest <;> cases hn <;> rfl
      subst ha
      -- Items behind the head follow it; other sources start at or after it.
      have hrefl : r top.head top.head := by
        rcases Std.Total.total (r := r) top.head top.head with h | h <;> exact h
      have hwithin : ∀ n ∈ top :: heap, ∀ x ∈ n.items, r n.head x := by
        intro n hn x hx
        rcases mem_cons.1 hx with rfl | hx
        · rcases Std.Total.total (r := r) n.head n.head with h | h <;> exact h
        · exact (pairwise_cons.1 (h.sources n hn)).1 x hx
      obtain ⟨n, hnmem, hbn⟩ := mem_flatMap.1 hb'
      have hhead : r top.head n.head := by
        rcases mem_cons.1 hnmem with rfl | hnmem
        · exact hrefl
        · exact (pairwise_cons.1 h.heap).1 n hnmem
      exact IsTrans.trans (r := r) _ _ _ hhead (hwithin n hnmem b hbn)

theorem drain_spec (fuel : Nat) {m : Merge α ε} (h : Ordered r m)
    (hfuel : m.pending.length ≤ fuel) :
    (drain r fuel m).1.Pairwise r ∧ (∀ a ∈ (drain r fuel m).1, a ∈ m.pending) ∧
      ((drain r fuel m).2 = none → (drain r fuel m).1.Perm m.pending) := by
  induction fuel generalizing m with
  | zero =>
    have hnil : m.pending = [] := length_eq_zero_iff.1 (by omega)
    simp [drain, hnil]
  | succ fuel ih =>
    unfold drain
    cases hnext : KMerge.next r m with
    | none =>
      refine ⟨List.Pairwise.nil, by simp, fun herr => ?_⟩
      obtain ⟨heap, err⟩ := m
      obtain rfl : err = none := herr
      cases heap with
      | nil => exact List.Perm.refl _
      | cons top heap =>
        obtain ⟨head, rest, err⟩ := top
        cases rest <;> cases hnext
    | some p =>
      obtain ⟨a, m'⟩ := p
      have hperm := next_pending hnext
      have hlen : m'.pending.length ≤ fuel := by
        have := hperm.length_eq
        simp only [length_cons] at this
        omega
      obtain ⟨hsorted, hmem, hall⟩ := ih (h.next hnext) hlen
      refine ⟨?_, ?_, ?_⟩
      · exact pairwise_cons.2 ⟨fun b hb => h.next_le hnext b (hmem b hb), hsorted⟩
      · intro b hb
        rcases mem_cons.1 hb with rfl | hb
        · exact hperm.mem_iff.2 (by simp)
        · exact hperm.mem_iff.2 (mem_cons_of_mem _ (hmem b hb))
      · intro herr
        exact ((hall herr).cons a).trans hperm.symm

theorem merge_spec {sources : List (Source α ε)} (hs : ∀ s ∈ sources, s.items.Pairwise r) :
    (merge r sources).1.Pairwise r ∧
      (∀ a ∈ (merge r sources).1, a ∈ sources.flatMap Source.items) ∧
      ((merge r sources).2 = none → (merge r sources).1.Perm (sources.flatMap Source.items)) := by
  obtain ⟨hsorted, hmem, hall⟩ := drain_spec _ (start_ordered hs) (Nat.le_refl _)
  have hperm := start_pending (r := r) sources
  exact ⟨hsorted, fun a ha => hperm.mem_iff.1 (hmem a ha), fun herr => (hall herr).trans hperm⟩

end Order

section Errors

variable {r}

def Failing (m : Merge α ε) : Prop := m.err ≠ none ∨ ∃ n ∈ m.heap, n.err ≠ none

theorem push_failing_iff (m : Merge α ε) (s : Source α ε) :
    Failing (push r m s) ↔ Failing m ∨ s.err ≠ none := by
  obtain ⟨items, err⟩ := s
  cases items with
  | nil =>
    unfold Failing push
    cases m.err <;> simp [or_comm]
  | cons a rest =>
    simp only [Failing, push, mem_orderedInsert, exists_eq_or_imp]
    rw [or_left_comm, or_comm]

theorem start_failing_iff (sources : List (Source α ε)) :
    Failing (start r sources) ↔ ∃ s ∈ sources, s.err ≠ none := by
  have hfold : ∀ (sources : List (Source α ε)) (m : Merge α ε),
      Failing (sources.foldl (push r) m) ↔ Failing m ∨ ∃ s ∈ sources, s.err ≠ none := by
    intro sources
    induction sources with
    | nil => simp
    | cons s sources ih =>
      intro m
      rw [foldl_cons, ih, push_failing_iff, or_assoc, exists_mem_cons_iff]
  rw [start, hfold]
  simp [Failing]

theorem next_failing {m m' : Merge α ε} {a : α} (h : next r m = some (a, m')) :
    Failing m ↔ Failing m' := by
  obtain ⟨heap, err⟩ := m
  unfold next at h
  cases err with
  | some e => cases h
  | none =>
    cases heap with
    | nil => cases h
    | cons top heap =>
      obtain ⟨head, rest, err⟩ := top
      cases rest with
      | nil =>
        cases h
        simp [Failing]
      | cons b rest =>
        cases h
        simp [Failing, mem_orderedInsert]

theorem drain_err_iff (fuel : Nat) {m : Merge α ε} (hfuel : m.pending.length ≤ fuel) :
    (drain r fuel m).2 ≠ none ↔ Failing m := by
  induction fuel generalizing m with
  | zero =>
    have hnil : m.heap = [] := by
      have : m.pending = [] := length_eq_zero_iff.1 (by omega)
      cases hheap : m.heap with
      | nil => rfl
      | cons n heap => simp [Merge.pending, hheap, Node.items] at this
    simp [drain, Failing, hnil]
  | succ fuel ih =>
    unfold drain
    cases hnext : next r m with
    | none =>
      obtain ⟨heap, err⟩ := m
      cases err with
      | some e => simp [Failing]
      | none =>
        cases heap with
        | nil => simp [Failing]
        | cons top heap =>
          obtain ⟨head, rest, err⟩ := top
          cases rest <;> cases hnext
    | some p =>
      obtain ⟨a, m'⟩ := p
      have hlen := (next_pending hnext).length_eq
      rw [next_failing hnext]
      exact ih (by simp only [length_cons] at hlen; omega)

theorem merge_err_iff (sources : List (Source α ε)) :
    (merge r sources).2 ≠ none ↔ ∃ s ∈ sources, s.err ≠ none := by
  rw [merge, drain_err_iff _ (Nat.le_refl _), start_failing_iff]

/-- The merge has failed, or a source that will fail still holds only items of `p`. -/
def Guarded (p : α → Prop) (m : Merge α ε) : Prop :=
  m.err ≠ none ∨ ∃ n ∈ m.heap, n.err ≠ none ∧ ∀ b ∈ n.items, p b

theorem Guarded.push {p : α → Prop} {m : Merge α ε} (h : Guarded p m) (s : Source α ε) :
    Guarded p (push r m s) := by
  obtain ⟨items, err⟩ := s
  cases items with
  | nil =>
    rcases h with herr | hnode
    · refine Or.inl ?_
      simp only [KMerge.push, ne_eq, Option.or_eq_none_iff, not_and_or]
      exact Or.inl herr
    · exact Or.inr hnode
  | cons a rest =>
    rcases h with herr | ⟨n, hn, hrest⟩
    · exact Or.inl herr
    · exact Or.inr ⟨n, (mem_orderedInsert _).2 (Or.inr hn), hrest⟩

theorem guarded_push_self (m : Merge α ε) {s : Source α ε} (hs : s.err ≠ none) :
    Guarded (· ∈ s.items) (push r m s) := by
  obtain ⟨items, err⟩ := s
  cases items with
  | nil =>
    refine Or.inl ?_
    simp only [KMerge.push, ne_eq, Option.or_eq_none_iff, not_and_or]
    exact Or.inr hs
  | cons a rest =>
    exact Or.inr ⟨⟨a, rest, err⟩, (mem_orderedInsert _).2 (Or.inl rfl), hs, fun b hb => hb⟩

theorem start_guarded {sources : List (Source α ε)} {s : Source α ε} (hmem : s ∈ sources)
    (hs : s.err ≠ none) : Guarded (· ∈ s.items) (start r sources) := by
  have hkeep : ∀ (sources : List (Source α ε)) (m : Merge α ε), Guarded (· ∈ s.items) m →
      Guarded (· ∈ s.items) (sources.foldl (push r) m) := by
    intro sources
    induction sources with
    | nil => exact fun m hm => hm
    | cons x sources ih => exact fun m hm => ih _ (hm.push x)
  obtain ⟨before, after, rfl⟩ := append_of_mem hmem
  rw [start, foldl_append, foldl_cons]
  exact hkeep after _ (guarded_push_self _ hs)

theorem Guarded.next {p : α → Prop} {m m' : Merge α ε} {a : α} (h : Guarded p m)
    (hn : next r m = some (a, m')) : Guarded p m' := by
  obtain ⟨heap, err⟩ := m
  unfold KMerge.next at hn
  cases err with
  | some e => cases hn
  | none =>
    cases heap with
    | nil => cases hn
    | cons top heap =>
      obtain ⟨n, hmem, hfail, hp⟩ : ∃ n ∈ top :: heap, n.err ≠ none ∧ ∀ b ∈ n.items, p b := by
        rcases h with h | h
        · exact absurd rfl h
        · exact h
      obtain ⟨head, rest, terr⟩ := top
      cases rest with
      | nil =>
        cases hn
        rcases mem_cons.1 hmem with rfl | hmem
        · exact Or.inl hfail
        · exact Or.inr ⟨n, hmem, hfail, hp⟩
      | cons b rest =>
        cases hn
        refine Or.inr ?_
        rcases mem_cons.1 hmem with rfl | hmem
        · exact ⟨⟨b, rest, terr⟩, (mem_orderedInsert _).2 (Or.inl rfl), hfail,
            fun x hx => hp x (mem_cons_of_mem _ hx)⟩
        · exact ⟨n, (mem_orderedInsert _).2 (Or.inr hmem), hfail, hp⟩

theorem drain_le_guard [Std.Total r] [IsTrans α r] {p : α → Prop} (fuel : Nat) {m : Merge α ε}
    (hord : Ordered r m) (h : Guarded p m) :
    ∀ a ∈ (drain r fuel m).1, ∃ b, p b ∧ r a b := by
  induction fuel generalizing m with
  | zero => simp [drain]
  | succ fuel ih =>
    unfold drain
    cases hnext : KMerge.next r m with
    | none => simp
    | some q =>
      obtain ⟨a, m'⟩ := q
      intro x hx
      rcases mem_cons.1 hx with rfl | hx
      · rcases h with herr | ⟨n, hn, _, hp⟩
        · unfold KMerge.next at hnext
          cases he : m.err with
          | none => exact absurd he herr
          | some e =>
            rw [he] at hnext
            cases hnext
        · refine ⟨n.head, hp _ mem_cons_self, ?_⟩
          have hin : n.head ∈ m.pending := mem_flatMap.2 ⟨n, hn, mem_cons_self⟩
          rcases mem_cons.1 ((next_pending hnext).mem_iff.1 hin) with heq | hlater
          · rw [heq]
            rcases Std.Total.total (r := r) x x with h | h <;> exact h
          · exact hord.next_le hnext _ hlater
      · exact ih (hord.next hnext) (h.next hnext) x hx

theorem merge_le_failing [Std.Total r] [IsTrans α r] {sources : List (Source α ε)}
    (hsorted : ∀ s ∈ sources, s.items.Pairwise r) {s : Source α ε} (hmem : s ∈ sources)
    (hs : s.err ≠ none) : ∀ a ∈ (merge r sources).1, ∃ b ∈ s.items, r a b :=
  drain_le_guard _ (start_ordered hsorted) (start_guarded hmem hs)

end Errors

end KMerge
