import LevisDB.Lib.RefCount
import LevisDB.Lib.Transition

/-!
# The life of a table

A table is created with the reference of its owner, the engine's table list.
-/

namespace LevisDB

open List Option Transition

namespace TableLife

variable {i t : Nat} {r r' : Reader} {heap : RefCount.Heap Nat}

/-- A read in flight, with the tables it looks at or has references to. -/
inductive Reader
  /-- A point read, under the read lock. -/
  | point (tables : List Nat)
  /-- Taking references under the read lock, for an iterator or for `Verify`. -/
  | acquiring (verify : Bool) (todo refs : List Nat)
  | iterator (refs : List Nat)
  /-- Inside the one call of `Close` that finds the iterator open. -/
  | closing (refs : List Nat)
  /-- `Verify` scans the first of the tables and then releases it. -/
  | verifying (refs : List Nat)
  | done
  deriving DecidableEq

namespace Reader

def locked : Reader → Bool
  | point _ => true
  | acquiring _ _ _ => true
  | _ => false

def refs : Reader → List Nat
  | point _ => []
  | acquiring _ _ refs => refs
  | iterator refs => refs
  | closing refs => refs
  | verifying refs => refs
  | done => []

def under : Reader → List Nat
  | point tables => tables
  | acquiring _ todo _ => todo
  | _ => []

/-- The tables whose reading is not finished; those a closing iterator still has to release
count among them. -/
def captured (r : Reader) : List Nat := r.under ++ r.refs

inductive Act
  | endRead
  | acquire
  | unlock
  /-- A call of `Close`, by the caller or by `Next` when it is past the last entry or the end
  bound or has met an error. -/
  | close
  | releaseRef

def step (heap : RefCount.Heap Nat) : Reader → Act → Option (RefCount.Heap Nat × Reader)
  | point _, .endRead => some (heap, done)
  | acquiring verify (t :: todo) refs, .acquire =>
    let (ok, heap) := heap.acquire t
    some (heap, acquiring verify todo (if ok then refs ++ [t] else refs))
  | acquiring verify [] refs, .unlock =>
    some (heap, if verify then verifying refs else iterator refs)
  | iterator refs, .close => some (heap, closing refs)
  -- the iterator is marked closed already
  | closing refs, .close => some (heap, closing refs)
  | done, .close => some (heap, done)
  | closing (t :: refs), .releaseRef => some (heap.release t false, closing refs)
  | closing [], .releaseRef => some (heap, done)
  | verifying (t :: refs), .releaseRef => some (heap.release t false, verifying refs)
  | verifying [], .releaseRef => some (heap, done)
  | _, _ => none

end Reader

/-- The holder of `flushMu`: a flush is a compaction without inputs. -/
inductive Compactor
  | idle
  | merging (inputs outputs : List Nat)
  /-- Releasing the ownership of replaced inputs, or of outputs that were not installed. -/
  | releasing (tables : List Nat) (remove : Bool)
  deriving DecidableEq

namespace Compactor

/-- The tables whose owner's reference the compactor has to pass on or to release. -/
def owned : Compactor → List Nat
  | idle => []
  | merging _ outputs => outputs
  | releasing tables _ => tables

def inputs : Compactor → List Nat
  | merging inputs _ => inputs
  | _ => []

def removing : Compactor → List Nat
  | releasing tables true => tables
  | _ => []

end Compactor

structure State where
  heap : RefCount.Heap Nat
  /-- The next file number. -/
  next : Nat
  live : List Nat
  readers : List Reader
  compactor : Compactor
  /-- The tables that compactions have replaced so far. -/
  replaced : List Nat

namespace State

/-- Every reference that is held, by the table list, the compactor or a reader. -/
def held (s : State) : List Nat := s.live ++ (s.compactor.owned ++ s.readers.flatMap Reader.refs)

/-- The engine lock is held for reading. -/
def readLocked (s : State) : Bool := s.readers.any Reader.locked

end State

def start (n : Nat) : State where
  heap := ⟨fun t => { RefCount.Heap.unborn with refs := if t < n then 1 else 0 }, [], []⟩
  next := n
  live := List.range n
  readers := []
  compactor := .idle
  replaced := []

inductive Act
  | beginRead
  /-- An iterator, over the tables that overlap its range, or a `Verify` run. -/
  | beginScan (verify : Bool) (overlaps : Nat → Bool)
  | reader (i : Nat) (act : Reader.Act)
  /-- A table that is added without replacing any. -/
  | addTable
  | beginCompaction (chosen : Nat → Bool)
  | writeOutput
  | install
  /-- The merge failed, and its outputs are removed, or the commit did, and they are kept. -/
  | abandon (remove : Bool)
  | releaseOwner
  | closeHandle (i : Nat)
  | removeFile (i : Nat)

/-- One step of one of the threads; none where the thread is elsewhere or has to wait. -/
def step (s : State) : Act → Option State
  | .beginRead => some { s with readers := s.readers ++ [.point s.live] }
  | .beginScan verify overlaps =>
    some { s with readers := s.readers ++ [.acquiring verify (s.live.filter overlaps) []] }
  | .reader i act => do
      let r ← s.readers[i]?
      let (heap, r) ← r.step s.heap act
      some { s with heap, readers := s.readers.set i r }
  | .addTable =>
    if s.readLocked then none
    else some { s with heap := s.heap.create s.next, next := s.next + 1, live := s.live ++
      [s.next] }
  | .beginCompaction chosen =>
    match s.compactor with
    | .idle => some { s with compactor := .merging (s.live.filter chosen) [] }
    | _ => none
  | .writeOutput =>
    match s.compactor with
    | .merging inputs outputs =>
      some { s with
        heap := s.heap.create s.next
        next := s.next + 1
        compactor := .merging inputs (outputs ++ [s.next]) }
    | _ => none
  | .install =>
    match s.compactor with
    | .merging inputs outputs =>
      if s.readLocked then none
      else some { s with
        live := s.live.filter (fun t => t ∉ inputs) ++ outputs
        compactor := .releasing inputs true
        replaced := s.replaced ++ inputs }
    | _ => none
  | .abandon remove =>
    match s.compactor with
    | .merging _ outputs => some { s with compactor := .releasing outputs remove }
    | _ => none
  | .releaseOwner =>
    match s.compactor with
    | .releasing (t :: tables) remove =>
      some { s with
        heap := s.heap.release t remove
        compactor := .releasing tables remove }
    | .releasing [] _ => some { s with compactor := .idle }
    | _ => none
  | .closeHandle i => (s.heap.close i).map fun heap => { s with heap }
  | .removeFile i => (s.heap.remove i).map fun heap => { s with heap }

/-- The five things a step can do to the objects and the references to them. -/
inductive Effect (s s' : State) : Prop
  | pass (hheap : s'.heap = s.heap) (hnext : s'.next = s.next) (hheld : s'.held.Perm s.held)
  | create (hheap : s'.heap = s.heap.create s.next) (hnext : s'.next = s.next + 1)
      (hheld : s'.held.Perm (s.next :: s.held))
  | acquire (t : Nat) (ht : t ∈ s.held) (hheap : s'.heap = s.heap.addRef t)
      (hnext : s'.next = s.next) (hheld : s'.held.Perm (t :: s.held))
  | release (t : Nat) (remove : Bool) (hheap : s'.heap = s.heap.release t remove)
      (hnext : s'.next = s.next) (hheld : s.held.Perm (t :: s'.held))
  | settle (hsame : ∀ t, s'.heap.Same s.heap t) (hnext : s'.next = s.next)
      (hheld : s'.held = s.held)

/-- The references are those in the books. -/
def Booked (s : State) : Prop := s.heap.Accounts (· < s.next) s.held

variable {s s' : State}

section

variable (heffect : Effect s s')
include heffect

theorem Effect.booked (hs : Booked s) : Booked s' := by
  unfold Booked at hs ⊢
  cases heffect with
  | pass hheap hnext hheld =>
    rw [hheap, hnext]
    exact hs.perm hheld
  | create hheap hnext hheld =>
    rw [hheap, hnext]
    exact (hs.create (Nat.lt_irrefl _) fun t => by omega).perm hheld
  | acquire t ht hheap hnext hheld =>
    rw [hheap, hnext]
    exact (hs.acquire ht).2.perm hheld
  | release t remove hheap hnext hheld =>
    rw [hheap, hnext]
    exact (hs.perm hheld.symm).release remove
  | settle hsame hnext hheld =>
    rw [hnext, hheld]
    exact hs.congr hsame

theorem Effect.next_le : s.next ≤ s'.next := by
  cases heffect <;> omega

theorem Effect.mem_held (ht : t ∈ s'.held) :
    t ∈ s.held ∨ t = s.next := by
  cases heffect with
  | pass hheap hnext hheld => exact .inl (hheld.subset ht)
  | create hheap hnext hheld =>
    rcases mem_cons.1 (hheld.subset ht) with heq | hmem
    · exact .inr heq
    · exact .inl hmem
  | acquire u hu hheap hnext hheld =>
    rcases mem_cons.1 (hheld.subset ht) with rfl | hmem
    · exact .inl hu
    · exact .inl hmem
  | release u remove hheap hnext hheld =>
    exact .inl (hheld.symm.subset (mem_cons_of_mem u ht))
  | settle hsame hnext hheld => exact .inl (hheld ▸ ht)

theorem Effect.removeOnZero (ht : t < s.next)
    (hmark : (s.heap.objs t).removeOnZero = true) : (s'.heap.objs t).removeOnZero = true := by
  cases heffect with
  | pass hheap hnext hheld => rwa [hheap]
  | create hheap hnext hheld =>
    rw [hheap, RefCount.Heap.create_objs_of_ne _ (Nat.ne_of_lt ht)]
    exact hmark
  | acquire u hu hheap hnext hheld =>
    rw [hheap, RefCount.Heap.addRef_removeOnZero]
    exact hmark
  | release u remove hheap hnext hheld =>
    rw [hheap, RefCount.Heap.release_removeOnZero, hmark, Bool.true_or]
  | settle hsame hnext hheld =>
    rw [(hsame t).2.1]
    exact hmark

end

structure Shape (s : State) : Prop where
  /-- What is read under the lock alone is in the table list. -/
  under : ∀ r ∈ s.readers, ∀ t ∈ r.under, t ∈ s.live
  owners : (s.live ++ s.compactor.owned).Nodup
  inputs : s.compactor.inputs.Nodup ∧ ∀ t ∈ s.compactor.inputs, t ∈ s.live
  replaced : ∀ t ∈ s.replaced, t < s.next ∧
    ((s.heap.objs t).removeOnZero = true ∨ t ∈ s.compactor.removing)

theorem Reader.step_cases {heap' : RefCount.Heap Nat} {act : Reader.Act}
    (hstep : r.step heap act = some (heap', r')) :
    r'.under ⊆ r.under ∧
      ((heap' = heap ∧ r'.refs = r.refs) ∨
        (∃ t ∈ r.under, heap' = (heap.acquire t).2 ∧
          r'.refs = if (heap.acquire t).1 then r.refs ++ [t] else r.refs) ∨
        ∃ t, heap' = heap.release t false ∧ r.refs = t :: r'.refs) := by
  revert hstep
  fun_cases Reader.step heap r act with
  | case2 verify t todo refs ok heap₁ hacquire =>
    intro hstep
    cases hstep
    refine ⟨subset_cons_self t todo, .inr (.inl ⟨t, mem_cons_self, ?_⟩)⟩
    rw [hacquire]
    exact ⟨rfl, rfl⟩
  | case3 verify refs =>
    intro hstep
    cases hstep
    cases verify <;> exact ⟨nil_subset _, .inl ⟨rfl, rfl⟩⟩
  | case7 t refs | case9 t refs =>
    intro hstep
    cases hstep
    exact ⟨nil_subset _, .inr (.inr ⟨t, rfl, rfl⟩)⟩
  | case11 =>
    intro hstep
    cases hstep
  | _ =>
    intro hstep
    cases hstep
    exact ⟨nil_subset _, .inl ⟨rfl, rfl⟩⟩

theorem held_setReader (hi : s.readers[i]? = some r) :
    ∃ rest, s.held.Perm (r.refs ++ rest) ∧ ∀ heap r',
      ({ s with heap, readers := s.readers.set i r' } : State).held.Perm (r'.refs ++ rest) := by
  obtain ⟨hlt, hget⟩ := List.getElem?_eq_some_iff.1 hi
  have hsplit : s.readers = s.readers.take i ++ r :: s.readers.drop (i + 1) := by
    rw [← hget, getElem_cons_drop hlt, take_append_drop]
  refine ⟨s.live ++ (s.compactor.owned ++ ((s.readers.take i).flatMap Reader.refs ++
    (s.readers.drop (i + 1)).flatMap Reader.refs)), ?_, ?_⟩
  · refine perm_iff_count.2 fun t => ?_
    unfold State.held
    nth_rewrite 1 [hsplit]
    simp only [flatMap_append, flatMap_cons, count_append]
    omega
  · intro heap r'
    refine perm_iff_count.2 fun t => ?_
    unfold State.held
    dsimp only
    rw [set_eq_take_append_cons_drop, if_pos hlt]
    simp only [flatMap_append, flatMap_cons, count_append]
    omega

theorem Shape.setReader (hshape : Shape s)
    (hi : s.readers[i]? = some r) (hunder : r'.under ⊆ r.under)
    (hmark : ∀ t, (s.heap.objs t).removeOnZero = true → (heap.objs t).removeOnZero = true) :
    Shape { s with heap, readers := s.readers.set i r' } := by
  refine ⟨?_, hshape.owners, hshape.inputs, ?_⟩
  · intro r₁ hr₁ t ht
    rcases mem_or_eq_of_mem_set hr₁ with hold | rfl
    · exact hshape.under r₁ hold t ht
    · exact hshape.under r (mem_of_getElem? hi) t (hunder ht)
  · intro t ht
    obtain ⟨hlt, hremove⟩ := hshape.replaced t ht
    exact ⟨hlt, hremove.imp_left (hmark t)⟩

theorem Shape.mem_held (hshape : Shape s) (hr : r ∈ s.readers)
    (ht : t ∈ r.captured) : t ∈ s.held := by
  unfold State.held
  rcases mem_append.1 ht with hunder | href
  · exact mem_append_left _ (hshape.under r hr t hunder)
  · exact mem_append_right _ (mem_append_right _ (mem_flatMap.2 ⟨r, hr, href⟩))

theorem reader_step (hbooked : Booked s) (hshape : Shape s) {act : Reader.Act}
    (hi : s.readers[i]? = some r)
    (hstep : r.step s.heap act = some (heap, r')) :
    Effect s { s with heap, readers := s.readers.set i r' } ∧
      Shape { s with heap, readers := s.readers.set i r' } := by
  obtain ⟨hunder, hcases⟩ := Reader.step_cases hstep
  obtain ⟨rest, hold, hnew⟩ := held_setReader hi
  rcases hcases with ⟨rfl, hrefs⟩ | ⟨t, ht, rfl, hrefs⟩ | ⟨t, rfl, hrefs⟩
  · refine ⟨.pass rfl rfl ?_, hshape.setReader hi hunder fun t hmark => hmark⟩
    rw [← hrefs] at hold
    exact (hnew _ r').trans hold.symm
  · -- what is in the table list has its owner's reference, so the acquisition succeeds
    have hheld := hshape.mem_held (mem_of_getElem? hi) (mem_append_left _ ht)
    rw [(hbooked.acquire hheld).1] at hrefs ⊢
    refine ⟨.acquire t hheld rfl rfl ?_, hshape.setReader hi hunder fun u hmark => ?_⟩
    · refine (hnew _ r').trans (.trans ?_ (hold.symm.cons t))
      rw [hrefs, if_pos rfl, append_assoc]
      exact perm_middle
    · rwa [RefCount.Heap.addRef_removeOnZero]
  · refine ⟨.release t false rfl rfl ?_, hshape.setReader hi hunder fun u hmark => ?_⟩
    · rw [hrefs] at hold
      exact hold.trans ((hnew _ r').symm.cons t)
    · rw [RefCount.Heap.release_removeOnZero, hmark, Bool.true_or]

theorem Shape.addReader (hshape : Shape s) (hunder : r.under ⊆ s.live) :
    Shape { s with readers := s.readers ++ [r] } := by
  refine ⟨?_, hshape.owners, hshape.inputs, hshape.replaced⟩
  intro r₁ hr₁ t ht
  rcases mem_append.1 hr₁ with hold | hlast
  · exact hshape.under r₁ hold t ht
  · obtain rfl := mem_singleton.1 hlast
    exact hunder ht

theorem addReader_step (hshape : Shape s) (hunder : r.under ⊆ s.live)
    (hrefs : r.refs = []) :
    Effect s { s with readers := s.readers ++ [r] } ∧ Shape { s with readers := s.readers ++
      [r] } := by
  refine ⟨.pass rfl rfl ?_, hshape.addReader hunder⟩
  unfold State.held
  dsimp only
  rw [flatMap_append, flatMap_singleton, hrefs, append_nil]

theorem under_of_unlocked (hfree : ¬ s.readLocked = true) (hr : r ∈ s.readers) :
    r.under = [] := by
  have hlocked : r.locked = false := by
    cases hl : r.locked with
    | false => rfl
    | true => exact absurd (any_eq_true.2 ⟨r, hr, hl⟩) hfree
  cases r with
  | point tables => cases hlocked
  | acquiring verify todo refs => cases hlocked
  | iterator refs => rfl
  | closing refs => rfl
  | verifying refs => rfl
  | done => rfl

theorem Effect.replaced (heffect : Effect s s') (hshape : Shape s)
    (hremoving : s.compactor.removing ⊆ s'.compactor.removing) :
    ∀ t ∈ s.replaced, t < s'.next ∧
      ((s'.heap.objs t).removeOnZero = true ∨ t ∈ s'.compactor.removing) := by
  intro t ht
  obtain ⟨hlt, hremove⟩ := hshape.replaced t ht
  refine ⟨Nat.lt_of_lt_of_le hlt heffect.next_le, ?_⟩
  rcases hremove with hmark | hmem
  · exact .inl (heffect.removeOnZero hlt hmark)
  · exact .inr (hremoving hmem)

theorem Booked.lt_next (hbooked : Booked s) (ht : t ∈ s.live ++ s.compactor.owned) :
    t < s.next := by
  refine hbooked.held t ?_
  unfold State.held
  rw [← append_assoc]
  exact mem_append_left _ ht

theorem nodup_next (hbooked : Booked s) (hshape : Shape s) {owners : List Nat}
    (hperm : owners.Perm (s.next :: (s.live ++ s.compactor.owned))) : owners.Nodup := by
  refine hperm.nodup_iff.2 (nodup_cons.2 ⟨?_, hshape.owners⟩)
  exact fun hmem => Nat.lt_irrefl _ (hbooked.lt_next hmem)

theorem addTable_step (hbooked : Booked s) (hshape : Shape s) (hfree : ¬ s.readLocked = true) :
    let s' := { s with heap := s.heap.create s.next, next := s.next + 1, live := s.live ++
      [s.next] }
    Effect s s' ∧ Shape s' := by
  intro s'
  have hperm : (s.live ++ [s.next] ++ s.compactor.owned).Perm
      (s.next :: (s.live ++ s.compactor.owned)) := by
    rw [append_assoc]
    exact perm_middle
  have heffect : Effect s s' := by
    refine .create rfl rfl ?_
    unfold State.held
    rw [← append_assoc, ← append_assoc s.live]
    exact hperm.append_right _
  refine ⟨heffect, ?_, nodup_next hbooked hshape hperm, ?_, ?_⟩
  · intro r hr t ht
    rw [under_of_unlocked hfree hr] at ht
    cases ht
  · exact ⟨hshape.inputs.1, fun t ht => mem_append_left _ (hshape.inputs.2 t ht)⟩
  · exact heffect.replaced hshape (List.Subset.refl _)

theorem writeOutput_step (hbooked : Booked s) (hshape : Shape s) {inputs outputs : List Nat}
    (hmerging : s.compactor = .merging inputs outputs) :
    let s' := { s with
      heap := s.heap.create s.next
      next := s.next + 1
      compactor := .merging inputs (outputs ++ [s.next]) }
    Effect s s' ∧ Shape s' := by
  intro s'
  have hperm : (s.live ++ (outputs ++ [s.next])).Perm (s.next :: (s.live ++ s.compactor.owned)) :=
    by
    rw [hmerging, ← append_assoc]
    exact perm_append_singleton ..
  have heffect : Effect s s' := by
    refine .create rfl rfl ?_
    unfold State.held
    rw [← append_assoc, ← append_assoc s.live]
    exact hperm.append_right _
  have hinputs := hshape.inputs
  rw [hmerging] at hinputs
  refine ⟨heffect, hshape.under, nodup_next hbooked hshape hperm, hinputs, ?_⟩
  refine heffect.replaced hshape ?_
  rw [hmerging]
  exact List.Subset.refl _

theorem filter_append_perm {live inputs : List Nat} (hlive : live.Nodup) (hinputs : inputs.Nodup)
    (hsub : ∀ t ∈ inputs, t ∈ live) : (live.filter (fun t => t ∉ inputs) ++ inputs).Perm live := by
  refine (perm_ext_iff_of_nodup ?_ hlive).2 ?_
  · refine nodup_append.2 ⟨hlive.filter _, hinputs, ?_⟩
    rintro t ht u hin rfl
    exact of_decide_eq_true (mem_filter.1 ht).2 hin
  · intro t
    by_cases hin : t ∈ inputs
    · simp [hin, hsub t hin]
    · simp [hin]

theorem install_step (hbooked : Booked s) (hshape : Shape s) {inputs outputs : List Nat}
    (hmerging : s.compactor = .merging inputs outputs) (hfree : ¬ s.readLocked = true) :
    let s' := { s with
      live := s.live.filter (fun t => t ∉ inputs) ++ outputs
      compactor := .releasing inputs true
      replaced := s.replaced ++ inputs }
    Effect s s' ∧ Shape s' := by
  intro s'
  have howners := hshape.owners
  have hinputs := hshape.inputs
  rw [hmerging] at howners hinputs
  have hperm : (s.live.filter (fun t => t ∉ inputs) ++ outputs ++ inputs).Perm
      (s.live ++ s.compactor.owned) := by
    have hkept : (s.live.filter (fun t => t ∉ inputs) ++ inputs).Perm s.live :=
      filter_append_perm (nodup_append.1 howners).1 hinputs.1 hinputs.2
    rw [hmerging]
    refine perm_iff_count.2 fun t => ?_
    have hcount := hkept.count_eq t
    simp only [count_append, Compactor.owned] at hcount ⊢
    omega
  have heffect : Effect s s' := by
    refine .pass rfl rfl ?_
    unfold State.held
    rw [← append_assoc, ← append_assoc s.live]
    exact hperm.append_right _
  refine ⟨heffect, ?_, hperm.nodup_iff.2 hshape.owners, ?_, ?_⟩
  · intro r hr t ht
    rw [under_of_unlocked hfree hr] at ht
    cases ht
  · exact ⟨nodup_nil, fun t ht => by cases ht⟩
  · intro t ht
    rcases mem_append.1 ht with hold | hnew
    · refine heffect.replaced hshape ?_ t hold
      rw [hmerging]
      exact nil_subset _
    · exact ⟨hbooked.lt_next (mem_append_left _ (hinputs.2 t hnew)), .inr hnew⟩

theorem releaseOwner_step (hshape : Shape s) {tables : List Nat} {remove : Bool}
    (hreleasing : s.compactor = .releasing (t :: tables) remove) :
    let s' := { s with heap := s.heap.release t remove, compactor := .releasing tables remove }
    Effect s s' ∧ Shape s' := by
  intro s'
  have howners := hshape.owners
  rw [hreleasing] at howners
  have hperm : (s.live ++ s.compactor.owned).Perm (t :: (s.live ++ tables)) := by
    rw [hreleasing]
    exact perm_middle
  have heffect : Effect s s' := by
    refine .release t remove rfl rfl ?_
    unfold State.held
    rw [← append_assoc, ← append_assoc s.live]
    exact hperm.append_right _
  refine ⟨heffect, hshape.under, ?_, ⟨nodup_nil, fun u hu => by cases hu⟩, ?_⟩
  · exact (nodup_cons.1 (hperm.nodup_iff.1 hshape.owners)).2
  · intro u hu
    obtain ⟨hlt, hremove⟩ := hshape.replaced u hu
    refine ⟨hlt, ?_⟩
    rcases hremove with hmark | hmem
    · exact .inl (heffect.removeOnZero hlt hmark)
    · -- the table released in this step is marked for removal by it
      rw [hreleasing] at hmem
      cases remove with
      | false => cases hmem
      | true =>
        rcases mem_cons.1 hmem with rfl | hmem
        · refine .inl ?_
          rw [RefCount.Heap.release_removeOnZero]
          simp
        · exact .inr hmem

theorem compactor_step (hshape : Shape s) {c : Compactor} (howned : c.owned = s.compactor.owned)
    (hinputs : c.inputs.Nodup ∧ ∀ t ∈ c.inputs, t ∈ s.live) (hremoving : s.compactor.removing =
      []) :
    Effect s { s with compactor := c } ∧ Shape { s with compactor := c } := by
  have heffect : Effect s { s with compactor := c } := by
    refine .pass rfl rfl ?_
    unfold State.held
    rw [howned]
  refine ⟨heffect, hshape.under, ?_, hinputs, ?_⟩
  · have howners := hshape.owners
    rw [← howned] at howners
    exact howners
  · refine heffect.replaced hshape ?_
    rw [hremoving]
    exact nil_subset _

theorem settle_step (hshape : Shape s) (hsame : ∀ t, heap.Same s.heap t) :
    Effect s { s with heap } ∧ Shape { s with heap } := by
  have heffect : Effect s { s with heap } := .settle hsame rfl rfl
  exact ⟨heffect, hshape.under, hshape.owners, hshape.inputs,
    heffect.replaced hshape (List.Subset.refl _)⟩

theorem step_effect {a : Act} (hbooked : Booked s) (hshape : Shape s) (hstep : step s a = some s') :
    Effect s s' ∧ Shape s' := by
  cases a with
  | beginRead =>
    cases hstep
    exact addReader_step hshape (List.Subset.refl _) rfl
  | beginScan verify overlaps =>
    cases hstep
    exact addReader_step hshape (filter_subset_self _) rfl
  | reader i act =>
    obtain ⟨r, hi, hrest⟩ := bind_eq_some_iff.1 hstep
    obtain ⟨⟨heap, r'⟩, hr, hnew⟩ := bind_eq_some_iff.1 hrest
    cases hnew
    exact reader_step hbooked hshape hi hr
  | addTable =>
    obtain ⟨hfree, hnew⟩ := ite_none_left_eq_some.1 hstep
    cases hnew
    exact addTable_step hbooked hshape hfree
  | beginCompaction chosen =>
    simp only [step] at hstep
    split at hstep
    · next hidle =>
        cases hstep
        refine compactor_step hshape (by rw [hidle]; rfl) ?_ (by rw [hidle]; rfl)
        refine ⟨(nodup_append.1 hshape.owners).1.filter _, ?_⟩
        exact fun t ht => mem_of_mem_filter ht
    · cases hstep
  | writeOutput =>
    simp only [step] at hstep
    split at hstep
    · next inputs outputs hmerging =>
        cases hstep
        exact writeOutput_step hbooked hshape hmerging
    · cases hstep
  | install =>
    simp only [step] at hstep
    split at hstep
    · next inputs outputs hmerging =>
        obtain ⟨hfree, hnew⟩ := ite_none_left_eq_some.1 hstep
        cases hnew
        exact install_step hbooked hshape hmerging hfree
    · cases hstep
  | abandon remove =>
    simp only [step] at hstep
    split at hstep
    · next inputs outputs hmerging =>
        cases hstep
        refine compactor_step hshape (by rw [hmerging]; rfl) ?_ (by rw [hmerging]; rfl)
        exact ⟨nodup_nil, fun t ht => by cases ht⟩
    · cases hstep
  | releaseOwner =>
    simp only [step] at hstep
    split at hstep
    · next t tables remove hreleasing =>
        cases hstep
        exact releaseOwner_step hshape hreleasing
    · next remove hreleasing =>
        cases hstep
        refine compactor_step hshape (by rw [hreleasing]; rfl) ?_ ?_
        · exact ⟨nodup_nil, fun t ht => by cases ht⟩
        · rw [hreleasing]
          cases remove <;> rfl
    · cases hstep
  | closeHandle i =>
    obtain ⟨heap, hclose, rfl⟩ := map_eq_some_iff.1 hstep
    exact settle_step hshape (RefCount.Heap.close_same hclose)
  | removeFile i =>
    obtain ⟨heap, hremove, rfl⟩ := map_eq_some_iff.1 hstep
    exact settle_step hshape (RefCount.Heap.remove_same hremove)

def Inv (s : State) : Prop := Booked s ∧ Shape s

theorem step_inv {a : Act} (hinv : Inv s) (hstep : step s a = some s') : Inv s' := by
  obtain ⟨heffect, hshape⟩ := step_effect hinv.1 hinv.2 hstep
  exact ⟨heffect.booked hinv.1, hshape⟩

theorem start_booked (n : Nat) : Booked (start n) := by
  have hheld : (start n).held = List.range n := by simp [start, State.held, Compactor.owned]
  have hclosings : ∀ t, (start n).heap.closings t = 0 := fun _ => rfl
  have hremovals : ∀ t, (start n).heap.removals t = 0 := fun _ => rfl
  have hrefs : ∀ t, ((start n).heap.objs t).refs = if t < n then 1 else 0 := fun _ => rfl
  unfold Booked
  rw [hheld]
  refine ⟨?_, fun t ht => mem_range.1 ht, ?_, ?_, fun t _ => ⟨rfl, rfl⟩⟩
  · intro t
    rw [hrefs, count_range]
  · intro t ht
    rw [hclosings, hrefs, if_pos (show t < n from ht)]
    rfl
  · intro t ht
    rw [hremovals, hrefs, if_pos (show t < n from ht)]
    rfl

theorem start_inv (n : Nat) : Inv (start n) := by
  refine ⟨start_booked n, (fun r hr => by cases hr), ?_, ?_, fun t ht => by cases ht⟩
  · exact (append_nil (List.range n)).symm ▸ nodup_range
  · exact ⟨nodup_nil, fun t ht => by cases ht⟩

theorem Inv.exec {as : List Act} (hinv : Inv s) (hrun : Transition.exec step s as = some s') :
    Inv s' :=
  exec_invariant (fun _ _ _ hs hstep => step_inv hs hstep) hrun hinv

theorem Inv.exec_gone {as : List Act} (hinv : Inv s) (hrun : Transition.exec step s as = some s')
    (hlt : t < s.next) (ht : t ∉ s.held) : t ∉ s'.held := by
  have hend : Inv s' ∧ t < s'.next ∧ t ∉ s'.held := by
    refine exec_invariant (P := fun u => Inv u ∧ t < u.next ∧ t ∉ u.held) ?_ hrun
      ⟨hinv, hlt, ht⟩
    rintro u a u' ⟨hu, hltu, htu⟩ hstep
    obtain ⟨heffect, -⟩ := step_effect hu.1 hu.2 hstep
    refine ⟨step_inv hu hstep, Nat.lt_of_lt_of_le hltu heffect.next_le, fun hmem => ?_⟩
    rcases heffect.mem_held hmem with hold | hnew
    · exact htu hold
    · omega
  exact hend.2.2

theorem Inv.replaced_gone (hinv : Inv s) (ht : t ∈ s.replaced) (hgone : t ∉ s.held) :
    s.heap.closings t = 1 ∧ s.heap.removals t = 1 := by
  obtain ⟨hlt, hremove⟩ := hinv.2.replaced t ht
  have hrefs : (s.heap.objs t).refs = 0 :=
    Nat.eq_zero_of_not_pos fun hpos => hgone (hinv.1.refs_pos.1 hpos)
  have hmark : (s.heap.objs t).removeOnZero = true := by
    refine hremove.resolve_right fun hmem => hgone ?_
    refine mem_append_right _ (mem_append_left _ ?_)
    cases hc : s.compactor with
    | idle => rw [hc] at hmem; cases hmem
    | merging inputs outputs => rw [hc] at hmem; cases hmem
    | releasing tables remove =>
      rw [hc] at hmem
      cases remove with
      | false => cases hmem
      | true => exact hmem
  rw [hinv.1.closes t hlt, hinv.1.removes t hlt, if_pos hrefs, if_pos ⟨hrefs, hmark⟩]
  exact ⟨rfl, rfl⟩

/-- In-flight reads keep their tables, in every interleaving from an engine with any number
of tables. A table that an unfinished read has captured, or that the compactor is merging, is
neither closed nor removed, and its closing is not even under way. A replaced table is left
alone while it has a holder; without one it has exactly one closing and one removal, which
are carried out once nothing is left to do. And whatever happens after the last holder let
go, nobody holds or captures the table again, and acquiring it is refused. -/
theorem inFlight_reads_keep_tables (n : Nat) (as : List Act) (s : State)
    (hrun : Transition.exec step (start n) as = some s) :
    (∀ r ∈ s.readers, ∀ t ∈ r.captured, s.heap.closings t = 0 ∧ s.heap.removals t = 0) ∧
    (∀ t ∈ s.compactor.inputs, s.heap.closings t = 0 ∧ s.heap.removals t = 0) ∧
    (∀ t ∈ s.replaced,
      (t ∈ s.held → (s.heap.objs t).closes = 0 ∧ (s.heap.objs t).removes = 0) ∧
      (t ∉ s.held → s.heap.closings t = 1 ∧ s.heap.removals t = 1 ∧
        ((∀ c ∈ s.heap.toClose, c.1 ≠ t) → t ∉ s.heap.toRemove →
          (s.heap.objs t).closes = 1 ∧ (s.heap.objs t).removes = 1))) ∧
    ∀ t < s.next, t ∉ s.held → ∀ (later : List Act) (s' : State),
      Transition.exec step s later = some s' →
        t ∉ s'.held ∧ (∀ r ∈ s'.readers, t ∉ r.captured) ∧ (s'.heap.acquire t).1 = false := by
  have hinv : Inv s := (start_inv n).exec hrun
  refine ⟨?_, ?_, ?_, ?_⟩
  · intro r hr t ht
    exact hinv.1.untouched (hinv.2.mem_held hr ht)
  · intro t ht
    exact hinv.1.untouched (mem_append_left _ (hinv.2.inputs.2 t ht))
  · intro t ht
    refine ⟨fun hheld => ?_, fun hgone => ?_⟩
    · obtain ⟨hcloses, hremoves⟩ := hinv.1.untouched hheld
      exact ⟨(Nat.add_eq_zero_iff.1 hcloses).2, (Nat.add_eq_zero_iff.1 hremoves).2⟩
    · obtain ⟨hcloses, hremoves⟩ := hinv.replaced_gone ht hgone
      refine ⟨hcloses, hremoves, fun hclosed hremoved => ?_⟩
      have hfirst : (s.heap.toClose.map Prod.fst).count t = 0 := by
        refine count_eq_zero.2 fun hmem => ?_
        obtain ⟨c, hc, heq⟩ := mem_map.1 hmem
        exact hclosed c hc heq
      have hpair : s.heap.toClose.count (t, true) = 0 :=
        count_eq_zero.2 fun hmem => hclosed _ hmem rfl
      have hleft : s.heap.toRemove.count t = 0 := count_eq_zero.2 hremoved
      unfold RefCount.Heap.closings at hcloses
      unfold RefCount.Heap.removals at hremoves
      omega
  · intro t hlt hgone later s' hlater
    have hinv' : Inv s' := hinv.exec hlater
    have hgone' : t ∉ s'.held := hinv.exec_gone hlater hlt hgone
    refine ⟨hgone', fun r hr ht => hgone' (hinv'.2.mem_held hr ht), ?_⟩
    have hrefs : (s'.heap.objs t).refs = 0 :=
      Nat.eq_zero_of_not_pos fun hpos => hgone' (hinv'.1.refs_pos.1 hpos)
    unfold RefCount.Heap.acquire
    rw [if_pos hrefs]

/-- An iterator over the only table is open while a compaction replaces it, and is closed
twice afterwards. -/
theorem inFlight_reads_keep_tables_replaced :
    ∃ s, Transition.exec step (start 1) [.beginScan false fun _ => true, .reader 0 .acquire,
        .reader 0 .unlock, .beginCompaction fun _ => true, .writeOutput, .install, .releaseOwner,
        .reader 0 .close, .reader 0 .close, .reader 0 .releaseRef, .closeHandle 0,
        .removeFile 0] = some s ∧
      s.replaced = [0] ∧ 0 ∉ s.held ∧ (s.heap.objs 0).closes = 1 ∧ (s.heap.objs 0).removes = 1 := by
  obtain ⟨s, hrun, hreplaced, hgone, hclosed, hremoved⟩ := exists_exec step (start 1)
    [.beginScan false fun _ => true, .reader 0 .acquire, .reader 0 .unlock,
      .beginCompaction fun _ => true, .writeOutput, .install, .releaseOwner, .reader 0 .close,
      .reader 0 .close, .reader 0 .releaseRef, .closeHandle 0, .removeFile 0]
    (fun s => s.replaced = [0] ∧ 0 ∉ s.held ∧ (∀ c ∈ s.heap.toClose, c.1 ≠ 0) ∧ 0 ∉ s.heap.toRemove)
    (by decide)
  have hend := (inFlight_reads_keep_tables 1 _ s hrun).2.2.1 0 (hreplaced ▸ mem_singleton_self 0)
  exact ⟨s, hrun, hreplaced, hgone, (hend.2 hgone).2.2 hclosed hremoved⟩

end TableLife

end LevisDB
