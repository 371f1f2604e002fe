import Mathlib.Data.List.GetD
import Mathlib.Logic.Function.Basic
import LevisDB.Core.InternalKey
import LevisDB.Core.Versions
import LevisDB.Lib.BinaryHeap
import LevisDB.Lib.KMerge

/-!
# The merge iterator and its buffers

A source hands out slices of its own buffers and may overwrite all of them when it
advances. The merger keeps those slices in a binary heap ordered by the key bytes they
show, so it copies the top entry out before it moves the top's source, and drops an
exhausted source without looking at its slices again.
-/

namespace LevisDB

open List

/-- A source after an advance: what all its buffers hold, and which of them are the key
and the value. -/
structure Frame where
  cells : Nat → Bytes
  key : Nat
  val : Nat

def Frame.entry (f : Frame) : Bytes × Bytes := (f.cells f.key, f.cells f.val)

/-- The advances a source has left. The one that finds nothing more leaves `last` in
the buffers and `err` as the source's error. -/
structure EntrySource where
  frames : List Frame
  last : Nat → Bytes
  err : Option Err

def EntrySource.withoutErr (s : EntrySource) : EntrySource := { s with err := none }

def EntrySource.entries (s : EntrySource) : List (Bytes × Bytes) := s.frames.map Frame.entry

/-- A heap node: a source and the slices it last handed out. -/
structure MergeSource where
  src : Nat
  key : Nat
  val : Nat

abbrev Buffers := Nat → Nat → Bytes

def MergeSource.entry (mem : Buffers) (n : MergeSource) : Bytes × Bytes :=
  (mem n.src n.key, mem n.src n.val)

structure MergeIter where
  sources : Nat → EntrySource
  mem : Buffers
  h : List MergeSource
  curKey : Bytes
  curVal : Bytes
  err : Option Err

namespace MergeIter

variable {sources : List EntrySource} {rest : List MergeSource} {top : MergeSource} {fuel : Nat}

def less (mem : Buffers) (a b : MergeSource) : Option Bool :=
  (ikeyCompareBytes (mem a.src a.key) (mem b.src b.key)).map fun o => o == .lt

def advance (m : MergeIter) (i : Nat) : MergeIter × Option Frame :=
  match (m.sources i).frames with
  | [] => ({ m with mem := Function.update m.mem i (m.sources i).last }, none)
  | f :: fs =>
    ({ m with
        mem := Function.update m.mem i f.cells
        sources := Function.update m.sources i { m.sources i with frames := fs } }, some f)

def fail (m : MergeIter) (i : Nat) : MergeIter := { m with err := m.err.or (m.sources i).err }

def prime (m : MergeIter) (i : Nat) : MergeIter :=
  match m.advance i with
  | (m', some f) => { m' with h := m'.h ++ [⟨i, f.key, f.val⟩] }
  | (m', none) => m'.fail i

def unprimed (sources : List EntrySource) : MergeIter :=
  ⟨fun i => sources.getD i ⟨[], fun _ => [], none⟩, fun _ _ => [], [], [], [], none⟩

def heapInit (m : MergeIter) : Option MergeIter := do
  let h ← BinaryHeap.init (less m.mem) m.h
  pure { m with h := h }

def newMergeIter (sources : List EntrySource) : Option MergeIter :=
  heapInit ((List.range sources.length).foldl prime (unprimed sources))

def copyTop (m : MergeIter) (top : MergeSource) : MergeIter :=
  { m with curKey := m.mem top.src top.key, curVal := m.mem top.src top.val }

/-- Advances the source of the top node, and puts the node where it now belongs. -/
def advanceTop (m : MergeIter) (top : MergeSource) (rest : List MergeSource) : Option MergeIter :=
  match m.advance top.src with
  | (m', some f) => do
      let h ← BinaryHeap.fix (less m'.mem) (⟨top.src, f.key, f.val⟩ :: rest) 0
      pure { m' with h := h }
  | (m', none) => do
      let h ← BinaryHeap.pop (less m'.mem) (top :: rest)
      pure { m'.fail top.src with h := h }

def next (m : MergeIter) : Option (Bool × MergeIter) :=
  match m.err, m.h with
  | some _, _ => some (false, m)
  | none, [] => some (false, m)
  | none, top :: rest => do
      let m' ← (m.copyTop top).advanceTop top rest
      pure (true, m')

/-- Calls `next` until it reports the end, at most `fuel` times: the entries, and the
error at the end. -/
def drain : Nat → MergeIter → Option (List (Bytes × Bytes) × Option Err)
  | 0, _ => none
  | fuel + 1, m => do
      let r ← m.next
      if r.1 then do
        let out ← drain fuel r.2
        pure ((r.2.curKey, r.2.curVal) :: out.1, out.2)
      else pure ([], r.2.err)

def run (fuel : Nat) (sources : List EntrySource) :
    Option (List (Bytes × Bytes) × Option Err) :=
  newMergeIter sources >>= drain fuel

def EntryOrder (a b : Bytes × Bytes) : Prop := IKeyBytesLe a.1 b.1

instance : DecidableRel EntryOrder := fun a b => inferInstanceAs (Decidable (IKeyBytesLe a.1 b.1))

instance : IsTrans (Bytes × Bytes) EntryOrder := ⟨fun _ _ _ hab hbc =>
  IsTrans.trans (r := IKeyBytesLe) _ _ _ hab hbc⟩

def nodeEntries (m : MergeIter) (n : MergeSource) : List (Bytes × Bytes) :=
  n.entry m.mem :: (m.sources n.src).entries

def pending (m : MergeIter) : List (Bytes × Bytes) := m.h.flatMap m.nodeEntries

def NodeLe (mem : Buffers) (a b : MergeSource) : Prop := EntryOrder (a.entry mem) (b.entry mem)

instance (mem : Buffers) : Std.Refl (NodeLe mem) := ⟨fun _ => .inr ⟨rfl, Nat.le_refl _⟩⟩

instance (mem : Buffers) : IsTrans MergeSource (NodeLe mem) := ⟨fun _ _ _ hab hbc =>
  IsTrans.trans (r := EntryOrder) _ _ _ hab hbc⟩

/-- Every node belongs to a source of its own and shows the entry its source is at. -/
structure Shown (m : MergeIter) : Prop where
  sources : (m.h.map (·.src)).Nodup
  whole : ∀ n ∈ m.h, ∀ e ∈ m.nodeEntries n, WholeKey e.1
  sorted : ∀ n ∈ m.h, (m.nodeEntries n).Pairwise EntryOrder

structure Ordered (m : MergeIter) : Prop extends Shown m where
  heap : BinaryHeap.Below (NodeLe m.mem) m.h 0

theorem compares_of_whole {mem : Buffers} {h : List MergeSource}
    (hw : ∀ n ∈ h, WholeKey (n.entry mem).1) :
    BinaryHeap.Compares (less mem) (NodeLe mem) h := by
  intro a ha b hb
  have hcompare := ikeyCompareBytes_whole (hw a ha) (hw b hb)
  refine ⟨_, congrArg (Option.map fun o => o == Ordering.lt) hcompare, fun ht => ?_, fun hf => ?_⟩
  · exact .of_not (compareParts_lt_iff.1 (eq_of_beq ht))
  · exact not_not.1 fun hle => absurd (compareParts_lt_iff.2 hle) (by simpa using hf)

theorem Shown.compares {m : MergeIter} (h : Shown m) :
    BinaryHeap.Compares (less m.mem) (NodeLe m.mem) m.h :=
  compares_of_whole fun n hn => h.whole n hn _ (mem_cons_self ..)

theorem Shown.perm {m : MergeIter} (hs : Shown m) {h : List MergeSource} (hp : h.Perm m.h) :
    Shown { m with h := h } := by
  refine ⟨(hp.map _).nodup_iff.2 hs.sources, fun n hn => ?_, fun n hn => ?_⟩
  · exact hs.whole n (hp.mem_iff.1 hn)
  · exact hs.sorted n (hp.mem_iff.1 hn)

theorem pending_perm (m : MergeIter) {h : List MergeSource} (hp : h.Perm m.h) :
    ({ m with h := h } : MergeIter).pending.Perm m.pending :=
  hp.flatMap_right _

theorem Ordered.top_le {m : MergeIter} (h : Ordered m)
    (htop : m.h = top :: rest) {e : Bytes × Bytes}
    (he : e ∈ m.pending) : EntryOrder (top.entry m.mem) e := by
  obtain ⟨n, hn, he⟩ := mem_flatMap.1 he
  have hheap := h.heap
  rw [htop] at hheap hn
  have hroot : NodeLe m.mem top n := hheap.root_le hn
  rcases mem_cons.1 he with rfl | he
  · exact hroot
  · have hsorted := h.sorted n (htop ▸ hn)
    exact IsTrans.trans (r := EntryOrder) _ _ _ hroot ((pairwise_cons.1 hsorted).1 e he)

section Advance

variable {m : MergeIter} {i : Nat} {n : MergeSource}

theorem advance_entry_of_ne (hn : n.src ≠ i) :
    n.entry (m.advance i).1.mem = n.entry m.mem := by
  unfold advance MergeSource.entry
  split <;> simp [Function.update_of_ne hn]

theorem advance_sources_of_ne {j : Nat} (hj : j ≠ i) :
    (m.advance i).1.sources j = m.sources j := by
  unfold advance
  split <;> simp [Function.update_of_ne hj]

theorem advance_nodeEntries_of_ne (hn : n.src ≠ i) :
    (m.advance i).1.nodeEntries n = m.nodeEntries n := by
  rw [nodeEntries, nodeEntries, advance_entry_of_ne hn, advance_sources_of_ne hn]

theorem advance_some {f : Frame} {m' : MergeIter} (h : m.advance i = (m', some f)) :
    m'.nodeEntries ⟨i, f.key, f.val⟩ = (m.sources i).entries ∧
      (∀ j, (m'.sources j).err = (m.sources j).err) ∧ m'.h = m.h ∧ m'.err = m.err ∧
      m'.curKey = m.curKey ∧ m'.curVal = m.curVal := by
  unfold advance at h
  cases hframes : (m.sources i).frames with
  | nil =>
    rw [hframes] at h
    cases h
  | cons g gs =>
    rw [hframes] at h
    obtain ⟨rfl, hg⟩ := Prod.mk.inj h
    cases hg
    refine ⟨?_, fun j => ?_, rfl, rfl, rfl, rfl⟩
    · simp [nodeEntries, MergeSource.entry, EntrySource.entries, hframes, Frame.entry]
    · by_cases hj : j = i
      · subst hj
        simp
      · simp [Function.update_of_ne hj]

theorem advance_none {m' : MergeIter} (h : m.advance i = (m', none)) :
    (m.sources i).entries = [] ∧ m'.sources = m.sources ∧ m'.h = m.h ∧ m'.err = m.err ∧
      m'.curKey = m.curKey ∧ m'.curVal = m.curVal := by
  unfold advance at h
  cases hframes : (m.sources i).frames with
  | nil =>
    rw [hframes] at h
    obtain ⟨rfl, _⟩ := Prod.mk.inj h
    exact ⟨by simp [EntrySource.entries, hframes], rfl, rfl, rfl, rfl, rfl⟩
  | cons g gs =>
    rw [hframes] at h
    cases h

end Advance

/-- The iterator failed, or a source it still reads will. -/
def Failing (m : MergeIter) : Prop :=
  m.err ≠ none ∨ ∃ i ∈ m.h.map (·.src), (m.sources i).err ≠ none

structure Shows (m : MergeIter) (top : MergeSource) (m' : MergeIter) : Prop where
  ordered : Ordered m'
  pending : m.pending.Perm (top.entry m.mem :: m'.pending)
  failing : m'.Failing ↔ m.Failing
  curKey : m'.curKey = m.curKey
  curVal : m'.curVal = m.curVal

theorem Ordered.advanceTop {m : MergeIter} (h : Ordered m) (herr : m.err = none)
    (htop : m.h = top :: rest) :
    ∃ m', m.advanceTop top rest = some m' ∧ Shows m top m' := by
  have hnodup := h.sources
  rw [htop, map_cons, nodup_cons] at hnodup
  have hne : ∀ n ∈ rest, n.src ≠ top.src := fun n hn heq =>
    hnodup.1 (mem_map.2 ⟨n, hn, heq⟩)
  have hheap := h.heap
  rw [htop] at hheap
  have hwhole := h.whole
  have hsorted := h.sorted
  rw [htop, forall_mem_cons] at hwhole hsorted
  have hkeep : ∀ n ∈ rest, (m.advance top.src).1.nodeEntries n = m.nodeEntries n :=
    fun n hn => advance_nodeEntries_of_ne (hne n hn)
  have hflat := flatMap_congr hkeep
  have hbehind (x : MergeSource) :
      BinaryHeap.Below (NodeLe (m.advance top.src).1.mem) (x :: rest) 1 :=
    (hheap.of_le (Nat.zero_le 1)).behind_root fun a ha b hb hab => by
      rw [NodeLe, advance_entry_of_ne (hne a ha), advance_entry_of_ne (hne b hb)]
      exact hab
  cases hadv : m.advance top.src with
  | mk m' frame =>
    rw [hadv] at hkeep hflat hbehind
    cases frame with
    | some f =>
      obtain ⟨hnode, herrs, _, herr', hkey, hval⟩ := advance_some hadv
      have hshown : Shown { m' with h := ⟨top.src, f.key, f.val⟩ :: rest } := by
        refine ⟨by simpa using hnodup, forall_mem_cons.2 ⟨?_, fun n hn => ?_⟩,
          forall_mem_cons.2 ⟨?_, fun n hn => ?_⟩⟩
        · exact fun e he => hwhole.1 e (mem_cons_of_mem _ (hnode ▸ he))
        · exact fun e he => hwhole.2 n hn e (hkeep n hn ▸ he)
        · exact hnode ▸ (pairwise_cons.1 hsorted.1).2
        · exact hkeep n hn ▸ hsorted.2 n hn
      obtain ⟨h', hfix, hperm, hbelow⟩ := BinaryHeap.fix_root_spec hshown.compares (hbehind _)
      refine ⟨{ m' with h := h' }, by simp [MergeIter.advanceTop, hadv, hfix],
        ⟨hshown.perm hperm, hbelow⟩, ?_, ?_, hkey, hval⟩
      · refine .trans ?_ ((pending_perm { m' with h := _ } hperm).symm.cons _)
        rw [MergeIter.pending, htop]
        change (m.nodeEntries top ++ rest.flatMap m.nodeEntries).Perm
          (top.entry m.mem :: (m'.nodeEntries ⟨top.src, f.key, f.val⟩ ++
            rest.flatMap m'.nodeEntries))
        rw [hflat, hnode]
        exact .rfl
      · have hsrcs := hperm.map (·.src)
        simp only [Failing, herr', herrs, htop, hsrcs.mem_iff]
        rfl
    | none =>
      obtain ⟨hempty, hsources, _, herr', hkey, hval⟩ := advance_none hadv
      have hentry : ∀ n ∈ rest, WholeKey (n.entry m'.mem).1 := fun n hn =>
        hwhole.2 n hn _ (hkeep n hn ▸ mem_cons_self ..)
      obtain ⟨h', hpop, hperm, hbelow⟩ :=
        BinaryHeap.pop_spec (compares_of_whole hentry) (hbehind top)
      have hshown : Shown { m'.fail top.src with h := rest } := by
        refine ⟨hnodup.2, fun n hn => ?_, fun n hn => ?_⟩
        · exact fun e he => hwhole.2 n hn e (hkeep n hn ▸ he)
        · exact hkeep n hn ▸ hsorted.2 n hn
      refine ⟨{ m'.fail top.src with h := h' }, by simp [MergeIter.advanceTop, hadv, hpop],
        ⟨hshown.perm hperm, hbelow⟩, ?_, ?_, hkey, hval⟩
      · refine .trans ?_ ((pending_perm { m'.fail top.src with h := rest } hperm).symm.cons _)
        rw [MergeIter.pending, htop]
        change (m.nodeEntries top ++ rest.flatMap m.nodeEntries).Perm
          (top.entry m.mem :: rest.flatMap m'.nodeEntries)
        rw [hflat, nodeEntries, hempty]
        exact .rfl
      · have hsrcs := hperm.map (·.src)
        simp only [Failing, fail, herr', herr, hsources, htop, hsrcs.mem_iff, map_cons,
          exists_mem_cons_iff, Option.none_or, ne_eq, not_true_eq_false, false_or]

theorem Ordered.copyTop {m : MergeIter} (h : Ordered m) (top : MergeSource) :
    Ordered (m.copyTop top) := ⟨⟨h.sources, h.whole, h.sorted⟩, h.heap⟩

theorem Ordered.next {m : MergeIter} (h : Ordered m) (herr : m.err = none)
    (htop : m.h = top :: rest) :
    ∃ m', m.next = some (true, m') ∧ Ordered m' ∧
      m.pending.Perm ((m'.curKey, m'.curVal) :: m'.pending) ∧
      (m'.Failing ↔ m.Failing) ∧ (m'.curKey, m'.curVal) = top.entry m.mem := by
  obtain ⟨m', hadv, hshows⟩ := (h.copyTop top).advanceTop herr htop
  have hcur : (m'.curKey, m'.curVal) = top.entry m.mem := by
    rw [hshows.curKey, hshows.curVal]
    rfl
  refine ⟨m', ?_, hshows.ordered, hcur ▸ hshows.pending, hshows.failing, hcur⟩
  unfold MergeIter.next
  rw [herr, htop]
  simp [hadv]

theorem next_done {m : MergeIter} (h : m.err ≠ none ∨ m.h = []) : m.next = some (false, m) := by
  unfold next
  cases herr : m.err with
  | some err => rfl
  | none =>
    rw [h.resolve_left (by simp [herr])]

theorem drain_spec {m : MergeIter} (h : Ordered m) (hfuel : m.pending.length < fuel) :
    ∃ out err, drain fuel m = some (out, err) ∧ out.Pairwise EntryOrder ∧
      (∀ e ∈ out, e ∈ m.pending) ∧ (err = none → out.Perm m.pending) ∧
      (err ≠ none ↔ m.Failing) := by
  induction fuel generalizing m with
  | zero => omega
  | succ fuel ih =>
    by_cases hdone : m.err ≠ none ∨ m.h = []
    · refine ⟨[], m.err, by simp [drain, next_done hdone], .nil, by simp, fun herr => ?_, ?_⟩
      · rw [MergeIter.pending, hdone.resolve_left (not_not.2 herr)]
        exact .rfl
      · refine ⟨.inl, fun hfail => ?_⟩
        rcases hdone with herr | hnil
        · exact herr
        · rcases hfail with herr | ⟨i, hi, _⟩
          · exact herr
          · simp [hnil] at hi
    · obtain ⟨herr, hh⟩ := not_or.1 hdone
      obtain ⟨top, rest, htop⟩ := exists_cons_of_ne_nil hh
      obtain ⟨m', hnext, hordered, hpending, hfailing, hcur⟩ := h.next (not_not.1 herr) htop
      have hlen := hpending.length_eq
      rw [length_cons] at hlen
      obtain ⟨out, err, hdrain, hsorted, hmem, hall, hfail⟩ := ih hordered (by omega)
      refine ⟨(m'.curKey, m'.curVal) :: out, err, by simp [drain, hnext, hdrain], ?_, ?_, ?_,
        hfail.trans hfailing⟩
      · refine pairwise_cons.2 ⟨fun e he => ?_, hsorted⟩
        rw [hcur]
        exact h.top_le htop (hpending.mem_iff.2 (mem_cons_of_mem _ (hmem e he)))
      · intro e he
        rcases mem_cons.1 he with rfl | he
        · exact hpending.mem_iff.2 (mem_cons_self ..)
        · exact hpending.mem_iff.2 (mem_cons_of_mem _ (hmem e he))
      · exact fun herr => ((hall herr).cons _).trans hpending.symm

structure Primed (sources : List EntrySource) (k : Nat) (m : MergeIter) : Prop where
  shown : Shown m
  srcs : ∀ n ∈ m.h, n.src < k
  later : ∀ i, k ≤ i → m.sources i = (unprimed sources).sources i
  pending : m.pending = (List.range k).flatMap fun i => ((unprimed sources).sources i).entries
  failing : m.Failing ↔ ∃ i < k, ((unprimed sources).sources i).err ≠ none

/-- What the merge asks of a source: whole keys, in ascending order. -/
def Ascends (s : EntrySource) : Prop :=
  (∀ e ∈ s.entries, WholeKey e.1) ∧ s.entries.Pairwise EntryOrder

instance (s : EntrySource) : Decidable (Ascends s) := inferInstanceAs (Decidable (_ ∧ _))

theorem Primed.prime {k : Nat} {m : MergeIter}
    (h : Primed sources k m) (hs : Ascends ((unprimed sources).sources k)) :
    Primed sources (k + 1) (m.prime k) := by
  obtain ⟨⟨hnodup, hwhole, hsorted⟩, hsrcs, hlater, hpending, hfailing⟩ := h
  have hne : ∀ n ∈ m.h, n.src ≠ k := fun n hn => Nat.ne_of_lt (hsrcs n hn)
  have hkeep : ∀ n ∈ m.h, (m.advance k).1.nodeEntries n = m.nodeEntries n :=
    fun n hn => advance_nodeEntries_of_ne (hne n hn)
  have hflat := flatMap_congr hkeep
  rw [← hlater k (Nat.le_refl k)] at hs
  have hmore : (∃ i < k + 1, ((unprimed sources).sources i).err ≠ none) ↔
      (∃ i < k, ((unprimed sources).sources i).err ≠ none) ∨ (m.sources k).err ≠ none := by
    rw [hlater k (Nat.le_refl k)]
    constructor
    · rintro ⟨i, hi, herr⟩
      rcases Nat.lt_succ_iff_lt_or_eq.1 hi with hi | rfl
      · exact .inl ⟨i, hi, herr⟩
      · exact .inr herr
    · rintro (⟨i, hi, herr⟩ | herr)
      · exact ⟨i, by omega, herr⟩
      · exact ⟨k, by omega, herr⟩
  rw [← hfailing] at hmore
  unfold MergeIter.prime
  cases hadv : m.advance k with
  | mk m' frame =>
    have hothers : ∀ j, j ≠ k → m'.sources j = m.sources j := fun j hj => by
      have hsame := advance_sources_of_ne (m := m) hj
      rwa [hadv] at hsame
    have hlater' : ∀ i, k + 1 ≤ i → m'.sources i = (unprimed sources).sources i := fun i hi => by
      rw [hothers i (by omega), hlater i (by omega)]
    rw [hadv] at hkeep hflat
    cases frame with
    | some f =>
      obtain ⟨hnode, herrs, hh, herr', _, _⟩ := advance_some hadv
      dsimp only at hkeep hflat ⊢
      refine ⟨⟨?_, fun n hn => ?_, fun n hn => ?_⟩, fun n hn => ?_, hlater', ?_, ?_⟩
      · rw [hh, map_append, map_singleton, nodup_append]
        refine ⟨hnodup, by simp, fun a ha b hb => ?_⟩
        obtain ⟨n, hn, rfl⟩ := mem_map.1 ha
        obtain rfl := mem_singleton.1 hb
        exact hne n hn
      · rw [hh] at hn
        rcases mem_append.1 hn with hn | hn
        · exact fun e he => hwhole n hn e (hkeep n hn ▸ he)
        · obtain rfl := mem_singleton.1 hn
          exact fun e he => hs.1 e (hnode ▸ he)
      · rw [hh] at hn
        rcases mem_append.1 hn with hn | hn
        · exact hkeep n hn ▸ hsorted n hn
        · obtain rfl := mem_singleton.1 hn
          exact hnode ▸ hs.2
      · rw [hh] at hn
        rcases mem_append.1 hn with hn | hn
        · exact Nat.lt_succ_of_lt (hsrcs n hn)
        · obtain rfl := mem_singleton.1 hn
          exact Nat.lt_succ_self k
      · change (m'.h ++ [MergeSource.mk k f.key f.val]).flatMap m'.nodeEntries = _
        rw [hh, flatMap_append, flatMap_singleton, hflat, hnode,
          range_succ, flatMap_append, flatMap_singleton, ← hpending,
          hlater k (Nat.le_refl k)]
        rfl
      · rw [hmore]
        simp only [Failing, hh, herr', herrs, map_append, map_singleton,
          mem_append, mem_singleton, or_and_right, exists_or, exists_eq_left,
          or_assoc]
    | none =>
      obtain ⟨hempty, hsources, hh, herr', _, _⟩ := advance_none hadv
      dsimp only at hkeep hflat ⊢
      refine ⟨⟨?_, fun n hn => ?_, fun n hn => ?_⟩, fun n hn => ?_, hlater', ?_, ?_⟩
      · exact (congrArg (List.map (·.src)) hh) ▸ hnodup
      · replace hn : n ∈ m.h := hh ▸ hn
        exact fun e he => hwhole n hn e (hkeep n hn ▸ he)
      · replace hn : n ∈ m.h := hh ▸ hn
        exact hkeep n hn ▸ hsorted n hn
      · exact Nat.lt_succ_of_lt (hsrcs n (hh ▸ hn))
      · change m'.h.flatMap m'.nodeEntries = _
        rw [hh, hflat, range_succ, flatMap_append, flatMap_singleton, ← hpending,
          ← hlater k (Nat.le_refl k), hempty, append_nil]
        rfl
      · rw [hmore]
        simp only [Failing, fail, hh, herr', hsources]
        cases m.err <;> simp [or_comm]

theorem unprimed_sources {i : Nat} (hi : i < sources.length) :
    (unprimed sources).sources i = sources[i] := getD_eq_getElem _ _ hi

theorem primed_foldl (hs : ∀ s ∈ sources, Ascends s) {k : Nat}
    (hk : k ≤ sources.length) :
    Primed sources k ((List.range k).foldl MergeIter.prime (unprimed sources)) := by
  induction k with
  | zero =>
    refine ⟨⟨by simp [unprimed], by simp [unprimed], by simp [unprimed]⟩, by simp [unprimed],
      fun _ _ => rfl, by simp [unprimed, MergeIter.pending], by simp [unprimed, Failing]⟩
  | succ k ih =>
    rw [range_succ, foldl_append]
    refine (ih (by omega)).prime ?_
    rw [unprimed_sources (Nat.lt_of_succ_le hk)]
    exact hs _ (getElem_mem _)

theorem range_flatMap_unprimed (sources : List EntrySource) :
    ((List.range sources.length).flatMap fun i => ((unprimed sources).sources i).entries) =
      sources.flatMap EntrySource.entries := by
  have hmap : (List.range sources.length).map (unprimed sources).sources = sources := by
    refine ext_getElem (by simp) fun i hi hi' => ?_
    simp [unprimed_sources hi']
  conv_rhs => rw [← hmap, flatMap_map]

theorem newMergeIter_spec (hs : ∀ s ∈ sources, Ascends s) :
    ∃ m, newMergeIter sources = some m ∧ Ordered m ∧
      m.pending.Perm (sources.flatMap EntrySource.entries) ∧
      (m.Failing ↔ ∃ s ∈ sources, s.err ≠ none) := by
  have hprimed := primed_foldl hs (Nat.le_refl sources.length)
  obtain ⟨h, hinit, hperm, hbelow⟩ := BinaryHeap.init_spec hprimed.shown.compares
  refine ⟨_, by simp [newMergeIter, heapInit, hinit], ⟨hprimed.shown.perm hperm, hbelow⟩, ?_, ?_⟩
  · have hpending := hprimed.pending
    rw [range_flatMap_unprimed] at hpending
    exact hpending ▸ pending_perm _ hperm
  · have hsrcs := hperm.map (·.src)
    simp only [Failing, hsrcs.mem_iff]
    refine hprimed.failing.trans ⟨?_, ?_⟩
    · rintro ⟨i, hi, herr⟩
      rw [unprimed_sources hi] at herr
      exact ⟨_, getElem_mem hi, herr⟩
    · rintro ⟨s, hmem, herr⟩
      obtain ⟨i, hi, rfl⟩ := getElem_of_mem hmem
      exact ⟨i, hi, by rwa [unprimed_sources hi]⟩

def clean (m : MergeIter) : MergeIter :=
  { m with sources := fun i => { m.sources i with err := none }, err := none }

theorem clean_advance (m : MergeIter) (i : Nat) :
    m.clean.advance i = ((m.advance i).1.clean, (m.advance i).2) := by
  unfold advance clean
  cases hframes : (m.sources i).frames with
  | nil => simp
  | cons f fs =>
    simp only [Prod.mk.injEq, and_true, MergeIter.mk.injEq]
    funext j
    by_cases hj : j = i
    · subst hj
      simp
    · simp [Function.update_of_ne hj]

theorem clean_prime (m : MergeIter) (i : Nat) : m.clean.prime i = (m.prime i).clean := by
  unfold prime
  rw [clean_advance]
  cases m.advance i with
  | mk m' frame => cases frame <;> rfl

theorem clean_advanceTop (m : MergeIter) (top : MergeSource) (rest : List MergeSource) :
    m.clean.advanceTop top rest = (m.advanceTop top rest).map clean := by
  unfold advanceTop
  rw [clean_advance]
  cases m.advance top.src with
  | mk m' frame =>
    cases frame with
    | some f =>
      change (BinaryHeap.fix (less m'.mem) _ 0).bind _ =
        ((BinaryHeap.fix (less m'.mem) _ 0).bind _).map clean
      cases BinaryHeap.fix (less m'.mem) (⟨top.src, f.key, f.val⟩ :: rest) 0 <;> rfl
    | none =>
      change (BinaryHeap.pop (less m'.mem) _).bind _ =
        ((BinaryHeap.pop (less m'.mem) _).bind _).map clean
      cases BinaryHeap.pop (less m'.mem) (top :: rest) <;> rfl

theorem clean_next {m m' : MergeIter} (h : m.next = some (true, m')) :
    m.clean.next = some (true, m'.clean) := by
  unfold next at h ⊢
  cases herr : m.err with
  | some err => simp [herr] at h
  | none =>
    cases hh : m.h with
    | nil => simp [herr, hh] at h
    | cons top rest =>
      rw [herr, hh] at h
      have hstep := clean_advanceTop (m.copyTop top) top rest
      cases hadv : (m.copyTop top).advanceTop top rest with
      | none => simp [hadv] at h
      | some m₁ =>
        simp only [hadv, Option.bind_eq_bind, Option.bind_some, Option.pure_def,
          Option.some.injEq, Prod.mk.injEq, true_and] at h
        subst h
        rw [hadv] at hstep
        change (match m.clean.err, m.h with
          | some _, _ => some (false, m.clean)
          | none, [] => some (false, m.clean)
          | none, top :: rest => (m.clean.copyTop top).advanceTop top rest >>= fun m' =>
            pure (true, m')) = _
        rw [hh]
        exact congrArg (·.bind fun m' => some (true, m')) hstep

theorem Ordered.clean {m : MergeIter} (h : Ordered m) : Ordered m.clean :=
  ⟨⟨h.sources, h.whole, h.sorted⟩, h.heap⟩

theorem not_failing_clean (m : MergeIter) : ¬ m.clean.Failing := by
  simp [Failing, MergeIter.clean]

theorem drain_clean {m : MergeIter} (h : Ordered m) (hfuel : m.pending.length < fuel)
    {out : List (Bytes × Bytes)} {err : Option Err} (hdrain : drain fuel m = some (out, err)) :
    ∃ rest, drain fuel m.clean = some (out ++ rest, none) := by
  induction fuel generalizing m out with
  | zero => omega
  | succ fuel ih =>
    by_cases hdone : m.err ≠ none ∨ m.h = []
    · obtain ⟨all, err', hall, _, _, _, hfail⟩ := drain_spec h.clean hfuel
      rw [drain, next_done hdone] at hdrain
      obtain ⟨rfl, _⟩ := Prod.mk.inj (Option.some.inj hdrain)
      obtain rfl : err' = none := not_not.1 fun hne => not_failing_clean m (hfail.1 hne)
      exact ⟨all, hall⟩
    · obtain ⟨herr, hh⟩ := not_or.1 hdone
      obtain ⟨top, rest, htop⟩ := exists_cons_of_ne_nil hh
      obtain ⟨m', hnext, hordered, hpending, _, _⟩ := h.next (not_not.1 herr) htop
      have hlen := hpending.length_eq
      rw [length_cons] at hlen
      simp only [drain, hnext, Option.bind_eq_bind, Option.bind_some, if_true] at hdrain
      cases hrest : drain fuel m' with
      | none => simp [hrest] at hdrain
      | some r =>
        obtain ⟨out', err'⟩ := r
        simp only [hrest, Option.bind_some, Option.pure_def, Option.some.injEq,
          Prod.mk.injEq] at hdrain
        obtain ⟨rfl, rfl⟩ := hdrain
        obtain ⟨tail, htail⟩ := ih hordered (by omega) hrest
        refine ⟨tail, ?_⟩
        simp only [drain, clean_next hnext, Option.bind_eq_bind, Option.bind_some, if_true,
          htail]
        rfl

theorem clean_foldl_prime (m : MergeIter) (is : List Nat) :
    is.foldl prime m.clean = (is.foldl prime m).clean := by
  induction is generalizing m with
  | nil => rfl
  | cons i is ih => rw [foldl_cons, clean_prime, ih, foldl_cons]

theorem clean_heapInit (m : MergeIter) : m.clean.heapInit = m.heapInit.map clean := by
  change (BinaryHeap.init (less m.mem) m.h).bind _ =
    ((BinaryHeap.init (less m.mem) m.h).bind _).map clean
  cases BinaryHeap.init (less m.mem) m.h <;> rfl

theorem newMergeIter_clean (sources : List EntrySource) :
    newMergeIter (sources.map EntrySource.withoutErr) = (newMergeIter sources).map clean := by
  have hstart : unprimed (sources.map EntrySource.withoutErr) = (unprimed sources).clean := by
    simp only [unprimed, MergeIter.clean, MergeIter.mk.injEq, and_true]
    funext i
    by_cases hi : i < sources.length
    · rw [getD_eq_getElem _ _ (by simpa using hi), getD_eq_getElem _ _ hi,
        getElem_map]
      rfl
    · rw [getD_eq_default _ _ (by simpa using hi), getD_eq_default _ _ (by omega)]
  rw [newMergeIter, newMergeIter, length_map, hstart, clean_foldl_prime, clean_heapInit]

theorem run_spec (hs : ∀ s ∈ sources, Ascends s)
    (hfuel : (sources.flatMap EntrySource.entries).length < fuel) :
    ∃ out err, run fuel sources = some (out, err) ∧ out.Pairwise EntryOrder ∧
      (err = none → out.Perm (sources.flatMap EntrySource.entries)) ∧
      (err ≠ none ↔ ∃ s ∈ sources, s.err ≠ none) ∧
      ∃ rest, run fuel (sources.map EntrySource.withoutErr) = some (out ++ rest, none) := by
  obtain ⟨m, hnew, hordered, hpending, hfailing⟩ := newMergeIter_spec hs
  rw [← hpending.length_eq] at hfuel
  obtain ⟨out, err, hdrain, hsorted, _, hall, hfail⟩ := drain_spec hordered hfuel
  obtain ⟨rest, hrest⟩ := drain_clean hordered hfuel hdrain
  refine ⟨out, err, by simp [run, hnew, hdrain], hsorted, fun hnone => ?_, hfail.trans hfailing,
    rest, by simp [run, newMergeIter_clean, hnew, hrest]⟩
  exact (hall hnone).trans hpending

end MergeIter

/-- A merge of ascending sources ends, and what it emits is ascending. Without a failing
source it emits every entry of every source with its own bytes. With one it ends in an
error, after a beginning of what the same sources would give without their errors. -/
theorem mergeIter_merges {sources : List EntrySource} (hs : ∀ s ∈ sources, MergeIter.Ascends s)
    {fuel : Nat} (hfuel : (sources.flatMap EntrySource.entries).length < fuel) :
    ∃ out err, MergeIter.run fuel sources = some (out, err) ∧
      out.Pairwise MergeIter.EntryOrder ∧
      ((∀ s ∈ sources, s.err = none) →
        err = none ∧ out.Perm (sources.flatMap EntrySource.entries)) ∧
      ((∃ s ∈ sources, s.err ≠ none) →
        err ≠ none ∧
          ∃ rest, MergeIter.run fuel (sources.map EntrySource.withoutErr) =
            some (out ++ rest, none)) := by
  obtain ⟨out, err, hrun, hsorted, hall, hfail, hrest⟩ := MergeIter.run_spec hs hfuel
  refine ⟨out, err, hrun, hsorted, fun hclean => ?_, fun herrs => ⟨hfail.2 herrs, hrest⟩⟩
  have hnone : err = none := by
    by_contra hne
    obtain ⟨s, hmem, herr⟩ := hfail.1 hne
    exact herr (hclean s hmem)
  exact ⟨hnone, hall hnone⟩

def reusingSource (entries : List (Bytes × Bytes)) (err : Option Err) : EntrySource :=
  ⟨entries.map fun e => ⟨fun cell => if cell = 0 then e.1 else e.2, 0, 1⟩, fun _ => [], err⟩

def failingSources : List EntrySource :=
  [reusingSource [(ikeyEncode ⟨[1], 1, .set⟩, [7]), (ikeyEncode ⟨[3], 2, .set⟩, [8])]
      (some .journalCorrupt),
    reusingSource [(ikeyEncode ⟨[2], 3, .set⟩, [9])] none]

theorem mergeIter_merges_failing :
    ∃ out err, MergeIter.run 4 failingSources = some (out, err) ∧
      out.Pairwise MergeIter.EntryOrder ∧ err ≠ none ∧
      ∃ rest, MergeIter.run 4 (failingSources.map EntrySource.withoutErr) =
        some (out ++ rest, none) := by
  obtain ⟨out, err, hrun, hsorted, _, hfailed⟩ :=
    mergeIter_merges (show ∀ s ∈ failingSources, MergeIter.Ascends s by decide)
      (show (failingSources.flatMap EntrySource.entries).length < 4 by decide)
  exact ⟨out, err, hrun, hsorted, hfailed ⟨_, mem_cons_self .., by decide⟩⟩

/-- The source hands out the encodings of the items of `src`. -/
structure EntrySource.Yields (s : EntrySource) (src : KMerge.Source Entry Err) : Prop where
  entries : s.entries = src.items.map Entry.bytes
  err : s.err = src.err
  seqs : ∀ e ∈ src.items, e.seq ≤ maxIKeySeq
  sorted : src.items.Pairwise IKeyOrder

theorem EntrySource.Yields.ascends {s : EntrySource} {src : KMerge.Source Entry Err}
    (h : s.Yields src) : MergeIter.Ascends s := by
  rw [MergeIter.Ascends, h.entries]
  refine ⟨fun e he => ?_, ?_⟩
  · obtain ⟨x, _, rfl⟩ := mem_map.1 he
    exact wholeKey_encode x.toIKey
  · rw [pairwise_map]
    exact h.sorted.imp_of_mem fun ha hb hab =>
      (iKeyBytesLe_encode (h.seqs _ ha) (h.seqs _ hb)).2 hab

theorem mergeIter_refines {readers : List (EntrySource × KMerge.Source Entry Err)}
    (hyields : ∀ p ∈ readers, p.1.Yields p.2) {fuel : Nat}
    (hfuel : ((readers.map Prod.snd).flatMap KMerge.Source.items).length < fuel) :
    ∃ out err, MergeIter.run fuel (readers.map Prod.fst) = some (out, err) ∧
      (err ≠ none ↔ (KMerge.merge IKeyOrder (readers.map Prod.snd)).2 ≠ none) ∧
      (err = none →
        out.Perm ((KMerge.merge IKeyOrder (readers.map Prod.snd)).1.map Entry.bytes) ∧
        out.map Prod.fst = (KMerge.merge IKeyOrder (readers.map Prod.snd)).1.map fun e =>
          ikeyEncode e.toIKey) := by
  have hflat : (readers.map Prod.fst).flatMap EntrySource.entries =
      ((readers.map Prod.snd).flatMap KMerge.Source.items).map Entry.bytes := by
    rw [flatMap_map, flatMap_map, map_flatMap]
    exact flatMap_congr fun p hp => (hyields p hp).entries
  have hascends : ∀ s ∈ readers.map Prod.fst, MergeIter.Ascends s :=
    forall_mem_map.2 fun p hp => (hyields p hp).ascends
  rw [← length_map Entry.bytes, ← hflat] at hfuel
  obtain ⟨out, err, hrun, hout, hall, hfail, -⟩ := MergeIter.run_spec hascends hfuel
  have hsorted : ∀ src ∈ readers.map Prod.snd, src.items.Pairwise IKeyOrder :=
    forall_mem_map.2 fun p hp => (hyields p hp).sorted
  obtain ⟨hmerged, -, hmerge⟩ := KMerge.merge_spec hsorted
  have herr : err ≠ none ↔ (KMerge.merge IKeyOrder (readers.map Prod.snd)).2 ≠ none := by
    simp only [hfail, KMerge.merge_err_iff, mem_map, exists_exists_and_eq_and]
    exact exists_congr fun p => and_congr_right fun hp => by rw [(hyields p hp).err]
  refine ⟨out, err, hrun, herr, fun hnone => ?_⟩
  have hperm := hmerge (not_not.1 fun hne => herr.2 hne hnone)
  generalize (KMerge.merge IKeyOrder (readers.map Prod.snd)).1 = merged at hmerged hperm
  have hsame : out.Perm (merged.map Entry.bytes) :=
    (hall hnone).trans (hflat ▸ (hperm.map Entry.bytes).symm)
  have hkeys : (out.map Prod.fst).Perm (merged.map fun e => ikeyEncode e.toIKey) := by
    simpa [Function.comp_def, Entry.bytes] using hsame.map Prod.fst
  have hseqs : ∀ e ∈ merged, e.seq ≤ maxIKeySeq := fun e he => by
    obtain ⟨src, hsrc, he⟩ := mem_flatMap.1 (hperm.mem_iff.1 he)
    obtain ⟨p, hp, rfl⟩ := mem_map.1 hsrc
    exact (hyields p hp).seqs e he
  refine ⟨hsame, hkeys.eq_of_pairwise (fun a b ha hb hab hba => ?_) (pairwise_map.2 hout) ?_⟩
  · obtain ⟨x, hx, rfl⟩ := mem_map.1 (hkeys.mem_iff.1 ha)
    obtain ⟨y, hy, rfl⟩ := mem_map.1 hb
    have hle := (iKeyBytesLe_encode (hseqs x hx) (hseqs y hy)).1 hab
    have hge := (iKeyBytesLe_encode (hseqs y hy) (hseqs x hx)).1 hba
    rw [le_antisymm hle hge]
  · rw [pairwise_map]
    exact hmerged.imp_of_mem fun hx hy hxy =>
      (iKeyBytesLe_encode (hseqs _ hx) (hseqs _ hy)).2 hxy

end LevisDB
