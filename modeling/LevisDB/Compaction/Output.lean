import LevisDB.Compaction.Merge

/-!
# What a merge leaves on disk

Rolling decides only where the output is cut. Across all output tables the
points are the entries the loop wrote, in order, and the range tombstones are
the ones to persist; every table has a fresh number and covers its contents.
-/

namespace LevisDB

open List LevisDB.Except

namespace CompactionSink

def points (s : CompactionSink) : List Entry :=
  tablePoints s.metas ++ (s.out.map fun o => o.2.added).getD []

def rangeDels (s : CompactionSink) : List RangeTombstone :=
  tableRangeDels s.metas ++ s.pendingRangeDels

structure Fresh (first depth : Nat) (s : CompactionSink) : Prop where
  alloc : first ≤ s.alloc
  room : first ≤ 2 ^ 32 - 1 → s.alloc ≤ 2 ^ 32 - 1
  nums : ∀ t ∈ s.metas, first < t.num ∧ t.num ≤ s.alloc
  ascending : s.metas.Pairwise fun t u => t.num < u.num
  out : ∀ o ∈ s.out, first < o.1 ∧ o.1 ≤ s.alloc ∧ ∀ t ∈ s.metas, t.num < o.1
  tables : ∀ t ∈ s.metas, t.Bounded ∧ t.reader.fault = none ∧ t.depth = depth ∧
    t.tombstones = (t.points.filter fun e => decide (e.kind = .delete)).length

variable {fmt : TableFormat} {mw : MergeWrite} {s s' : CompactionSink} {e : Entry} {first : Nat}

theorem start_eq_ok (h : s.start = .ok s') :
    s' = { s with alloc := s.alloc + 1, out := some (s.alloc + 1, .new) } ∧
      s.alloc ≠ 2 ^ 32 - 1 := by
  unfold start allocNext at h
  split_ifs at h with hmax
  cases h
  exact ⟨rfl, hmax⟩

theorem Fresh.start (hf : Fresh first mw.depth s) (h : s.start = .ok s') :
    Fresh first mw.depth s' := by
  obtain ⟨rfl, hmax⟩ := start_eq_ok h
  refine ⟨by have := hf.alloc; simp only; omega, ?_, ?_, hf.ascending, ?_, hf.tables⟩
  · intro hfirst
    have := hf.room hfirst
    simp only
    omega
  · intro t ht
    have := hf.nums t ht
    simp only
    omega
  · intro o ho
    cases ho
    refine ⟨by have := hf.alloc; simp only; omega, Nat.le_refl _, ?_⟩
    intro t ht
    have := hf.nums t ht
    simp only
    omega

theorem start_points (hout : s.out = none) (h : s.start = .ok s') : s'.points = s.points := by
  obtain ⟨rfl, _⟩ := start_eq_ok h
  simp [points, hout, TableWriter.new]

theorem start_rangeDels (h : s.start = .ok s') : s'.rangeDels = s.rangeDels := by
  obtain ⟨rfl, _⟩ := start_eq_ok h
  rfl

theorem finish_points : (s.finish fmt mw).points = s.points := by
  unfold finish
  cases hout : s.out with
  | none => rfl
  | some o =>
    obtain ⟨num, w⟩ := o
    simp only [points, tablePoints, flatMap_append, hout]
    simp [finishTable, TableMeta.points, TableWriter.finish]

theorem finish_rangeDels : (s.finish fmt mw).rangeDels = s.rangeDels := by
  unfold finish
  cases hout : s.out with
  | none => rfl
  | some o =>
    obtain ⟨num, w⟩ := o
    simp only [rangeDels, tableRangeDels, flatMap_append]
    simp [finishTable, TableMeta.rangeDels, TableWriter.finish]

theorem Fresh.finish (hf : Fresh first mw.depth s) : Fresh first mw.depth (s.finish fmt mw) := by
  unfold CompactionSink.finish
  cases hout : s.out with
  | none => exact hf
  | some o =>
    obtain ⟨num, w⟩ := o
    obtain ⟨hlo, hhi, hall⟩ := hf.out _ hout
    have hmem : ∀ {P : TableMeta → Prop}, (∀ t ∈ s.metas, P t) →
        P (finishTable fmt mw.cc.bloomBits num mw.depth w s.pendingRangeDels) →
        ∀ t ∈ s.metas ++ [finishTable fmt mw.cc.bloomBits num mw.depth w s.pendingRangeDels],
          P t := by
      intro P hmetas hnew t ht
      rcases mem_append.1 ht with ht | ht
      · exact hmetas t ht
      · rw [mem_singleton.1 ht]
        exact hnew
    refine ⟨hf.alloc, hf.room, hmem hf.nums ⟨hlo, hhi⟩, ?_, by simp, ?_⟩
    · refine pairwise_append.2 ⟨hf.ascending, pairwise_singleton _ _, ?_⟩
      intro t ht u hu
      rw [mem_singleton.1 hu]
      exact hall t ht
    · exact hmem hf.tables ⟨finishTable_bounded _ _ _ _ _ _, rfl, rfl, rfl⟩

theorem rollIfNeeded_cases (s : CompactionSink) (fmt : TableFormat) (mw : MergeWrite) :
    s.rollIfNeeded fmt mw = s ∨ s.rollIfNeeded fmt mw = s.finish fmt mw := by
  unfold rollIfNeeded
  split
  · split_ifs
    · exact Or.inr rfl
    · exact Or.inl rfl
  · exact Or.inl rfl

theorem rollIfNeeded_spec (fmt : TableFormat) (hf : Fresh first mw.depth s) :
    (s.rollIfNeeded fmt mw).points = s.points ∧ (s.rollIfNeeded fmt mw).rangeDels = s.rangeDels ∧
      Fresh first mw.depth (s.rollIfNeeded fmt mw) := by
  rcases rollIfNeeded_cases s fmt mw with h | h
  · rw [h]
    exact ⟨rfl, rfl, hf⟩
  · rw [h]
    exact ⟨finish_points, finish_rangeDels, hf.finish⟩

theorem add_eq_ok (h : s.add e = .ok s') :
    ∃ s₀ num w w', (s₀ = s ∨ (s.out = none ∧ s.start = .ok s₀)) ∧ s₀.out = some (num, w) ∧
      w.add e = .ok w' ∧ s' = { s₀ with out := some (num, w') } := by
  unfold add at h
  cases hout : s.out with
  | none =>
    simp only [hout] at h
    obtain ⟨s₀, hs₀, h⟩ := bind_eq_ok.1 h
    obtain ⟨hstart, _⟩ := start_eq_ok hs₀
    subst hstart
    obtain ⟨w', hw', h⟩ := bind_eq_ok.1 h
    exact ⟨_, _, _, w', Or.inr ⟨rfl, hs₀⟩, rfl, hw', (Except.ok.inj h).symm⟩
  | some o =>
    obtain ⟨num, w⟩ := o
    simp only [hout] at h
    obtain ⟨s₀, hs₀, h⟩ := bind_eq_ok.1 h
    cases hs₀
    rw [hout] at h
    obtain ⟨w', hw', h⟩ := bind_eq_ok.1 h
    exact ⟨s, num, w, w', Or.inl rfl, hout, hw', (Except.ok.inj h).symm⟩

theorem add_points (h : s.add e = .ok s') : s'.points = s.points ++ [e] := by
  obtain ⟨s₀, num, w, w', hs₀, hout, hw, rfl⟩ := add_eq_ok h
  have hpts : s₀.points = s.points := by
    rcases hs₀ with rfl | ⟨hnone, hs₀⟩
    · rfl
    · exact start_points hnone hs₀
  rw [← hpts]
  simp [points, hout, TableWriter.add_eq_ok hw]

theorem add_rangeDels (h : s.add e = .ok s') : s'.rangeDels = s.rangeDels := by
  obtain ⟨s₀, num, w, w', hs₀, hout, hw, rfl⟩ := add_eq_ok h
  have hrts : s₀.rangeDels = s.rangeDels := by
    rcases hs₀ with rfl | ⟨_, hs₀⟩
    · rfl
    · exact start_rangeDels hs₀
  exact hrts

theorem Fresh.add (hf : Fresh first mw.depth s) (h : s.add e = .ok s') :
    Fresh first mw.depth s' := by
  obtain ⟨s₀, num, w, w', hs₀, hout, hw, rfl⟩ := add_eq_ok h
  have hf₀ : Fresh first mw.depth s₀ := by
    rcases hs₀ with rfl | ⟨_, hs₀⟩
    · exact hf
    · exact hf.start hs₀
  refine ⟨hf₀.alloc, hf₀.room, hf₀.nums, hf₀.ascending, ?_, hf₀.tables⟩
  intro o ho
  cases ho
  exact hf₀.out (num, w) hout

theorem write_spec {w : Option Entry} (hf : Fresh first mw.depth s) (h : s.write w = .ok s') :
    s'.points = s.points ++ w.toList ∧ s'.rangeDels = s.rangeDels ∧ Fresh first mw.depth s' := by
  cases w with
  | none =>
    cases h
    exact ⟨by simp, rfl, hf⟩
  | some e => exact ⟨add_points h, add_rangeDels h, hf.add h⟩

theorem startCarrier_spec (hf : Fresh first mw.depth s) (h : s.startCarrier = .ok s') :
    s'.points = s.points ∧ s'.rangeDels = s.rangeDels ∧ Fresh first mw.depth s' ∧
      (s'.out = none → s'.pendingRangeDels = []) := by
  unfold startCarrier at h
  split_ifs at h with hcarry
  · have hout : s.out = none := by simpa using hcarry.2
    refine ⟨start_points hout h, start_rangeDels h, hf.start h, ?_⟩
    obtain ⟨rfl, _⟩ := start_eq_ok h
    simp
  · cases h
    refine ⟨rfl, rfl, hf, fun hout => ?_⟩
    by_contra hne
    exact hcarry ⟨hne, by simp [hout]⟩

/-- No finished table is empty, and neither will the open one be. -/
structure Filled (s : CompactionSink) : Prop where
  metas : ∀ t ∈ s.metas, t.points ≠ [] ∨ t.rangeDels ≠ []
  out : ∀ o ∈ s.out, o.2.added ≠ [] ∨ s.pendingRangeDels ≠ []

theorem Filled.finish (h : s.Filled) : (s.finish fmt mw).Filled := by
  unfold CompactionSink.finish
  cases hout : s.out with
  | none => exact ⟨h.metas, by simp [hout]⟩
  | some o =>
    obtain ⟨num, w⟩ := o
    refine ⟨fun t ht => ?_, by simp⟩
    rcases mem_append.1 ht with ht | ht
    · exact h.metas t ht
    · rw [mem_singleton.1 ht]
      exact h.out (num, w) hout

theorem Filled.rollIfNeeded (h : s.Filled) : (s.rollIfNeeded fmt mw).Filled := by
  rcases rollIfNeeded_cases s fmt mw with heq | heq
  · rwa [heq]
  · rw [heq]
    exact h.finish

theorem Filled.write {w : Option Entry} (h : s.Filled) (hw : s.write w = .ok s') : s'.Filled := by
  cases w with
  | none =>
    cases hw
    exact h
  | some e =>
    obtain ⟨s₀, num, w, w', hs₀, hout, hadd, rfl⟩ := add_eq_ok hw
    have hmetas : s₀.metas = s.metas := by
      rcases hs₀ with rfl | ⟨_, hs₀⟩
      · rfl
      · obtain ⟨rfl, _⟩ := start_eq_ok hs₀
        rfl
    refine ⟨?_, fun o ho => ?_⟩
    · rw [show CompactionSink.metas { s₀ with out := some (num, w') } = s.metas from hmetas]
      exact h.metas
    · cases ho
      exact Or.inl (by simp [TableWriter.add_eq_ok hadd])

theorem Filled.startCarrier (h : s.Filled) (hs : s.startCarrier = .ok s') : s'.Filled := by
  unfold CompactionSink.startCarrier at hs
  split_ifs at hs with hcarry
  · obtain ⟨rfl, _⟩ := start_eq_ok hs
    exact ⟨h.metas, fun o _ => Or.inr hcarry.1⟩
  · cases hs
    exact h

end CompactionSink

section Loop

variable {fmt : TableFormat} {resolve : BlobPointer → Except Err Bytes} {mw : MergeWrite}

theorem mergeLoop_eq_ok {es : List Entry} {ks : KeyState} {sink sink' : CompactionSink}
    (h : mergeLoop fmt resolve mw ks sink es = .ok sink') {first : Nat}
    (hf : sink.Fresh first mw.depth) :
    ∃ ws, collapse resolve mw ks es = .ok ws ∧ sink'.points = sink.points ++ ws ∧
      sink'.rangeDels = sink.rangeDels ∧ sink'.Fresh first mw.depth := by
  induction es generalizing ks sink with
  | nil =>
    cases h
    exact ⟨[], rfl, by simp, rfl, hf⟩
  | cons e es ih =>
    unfold mergeLoop at h
    dsimp only at h
    generalize hroll : (if ks.last.map (·.user) = some e.user then sink
      else sink.rollIfNeeded fmt mw) = rolled at h
    have hrolled : rolled.points = sink.points ∧ rolled.rangeDels = sink.rangeDels ∧
        rolled.Fresh first mw.depth := by
      subst hroll
      split_ifs
      · exact ⟨rfl, rfl, hf⟩
      · exact CompactionSink.rollIfNeeded_spec fmt hf
    obtain ⟨⟨ks₁, w⟩, hstep, h⟩ := bind_eq_ok.1 h
    obtain ⟨sink₁, hwrite, h⟩ := bind_eq_ok.1 h
    obtain ⟨hpts₁, hrts₁, hf₁⟩ := CompactionSink.write_spec hrolled.2.2 hwrite
    obtain ⟨ws, hws, hpts, hrts, hfresh⟩ := ih h hf₁
    refine ⟨w.toList ++ ws, ?_, ?_, ?_, hfresh⟩
    · unfold collapse
      rw [hstep, ok_bind]
      dsimp only
      rw [hws, ok_bind]
      rfl
    · rw [hpts, hpts₁, hrolled.1, append_assoc]
    · rw [hrts, hrts₁, hrolled.2.1]

theorem mergeLoop_filled {es : List Entry} {ks : KeyState} {sink sink' : CompactionSink}
    (h : mergeLoop fmt resolve mw ks sink es = .ok sink') (hf : sink.Filled) : sink'.Filled := by
  induction es generalizing ks sink with
  | nil =>
    cases h
    exact hf
  | cons e es ih =>
    unfold mergeLoop at h
    dsimp only at h
    obtain ⟨⟨ks₁, w⟩, _, h⟩ := bind_eq_ok.1 h
    obtain ⟨sink₁, hwrite, h⟩ := bind_eq_ok.1 h
    refine ih h (CompactionSink.Filled.write ?_ hwrite)
    split_ifs
    · exact hf
    · exact hf.rollIfNeeded

theorem writeMerged_filled {alloc alloc' : Nat} {merged : List Entry × Option Err}
    {metas : List TableMeta} (h : writeMerged fmt resolve mw alloc merged = .ok (metas, alloc')) :
    ∀ t ∈ metas, t.points ≠ [] ∨ t.rangeDels ≠ [] := by
  unfold writeMerged at h
  obtain ⟨sink, hloop, h⟩ := bind_eq_ok.1 h
  have hsink : sink.Filled := mergeLoop_filled hloop ⟨by simp, by simp⟩
  cases herr : merged.2 with
  | some err =>
    rw [herr] at h
    cases h
  | none =>
    rw [herr] at h
    obtain ⟨sink₁, hcarry, h⟩ := bind_eq_ok.1 h
    cases h
    exact (hsink.startCarrier hcarry).finish.metas

theorem writeMerged_eq_ok {alloc alloc' : Nat} {merged : List Entry × Option Err}
    {metas : List TableMeta} (h : writeMerged fmt resolve mw alloc merged = .ok (metas, alloc')) :
    merged.2 = none ∧ collapse resolve mw ⟨none, false⟩ merged.1 = .ok (tablePoints metas) ∧
      tableRangeDels metas = rangeDelsToPersist mw.rangeDels
        (mw.dropTombstones && mw.noDeeperTier.isNone) mw.retainSeq ∧
      CompactionSink.Fresh alloc mw.depth ⟨alloc', none, metas, []⟩ := by
  unfold writeMerged at h
  obtain ⟨sink, hloop, h⟩ := bind_eq_ok.1 h
  have hinit : CompactionSink.Fresh alloc mw.depth ⟨alloc, none, [], rangeDelsToPersist mw.rangeDels
      (mw.dropTombstones && mw.noDeeperTier.isNone) mw.retainSeq⟩ :=
    ⟨Nat.le_refl _, fun h => h, by simp, List.Pairwise.nil, by simp, by simp⟩
  obtain ⟨ws, hws, hpts, hrts, hf⟩ := mergeLoop_eq_ok hloop hinit
  cases herr : merged.2 with
  | some err =>
    rw [herr] at h
    cases h
  | none =>
    rw [herr] at h
    obtain ⟨sink₁, hcarry, h⟩ := bind_eq_ok.1 h
    obtain ⟨hpts₁, hrts₁, hf₁, hpend⟩ := CompactionSink.startCarrier_spec hf hcarry
    have hfin : (sink₁.finish fmt mw).Fresh alloc mw.depth := hf₁.finish
    have hdone : (sink₁.finish fmt mw).out = none ∧
        (sink₁.finish fmt mw).pendingRangeDels = [] := by
      unfold CompactionSink.finish
      cases hout : sink₁.out with
      | none => exact ⟨hout, hpend hout⟩
      | some o => exact ⟨rfl, rfl⟩
    cases h
    have hptsF : (sink₁.finish fmt mw).points = ws := by
      rw [CompactionSink.finish_points, hpts₁, hpts]
      simp [CompactionSink.points, tablePoints]
    have hrtsF : (sink₁.finish fmt mw).rangeDels = rangeDelsToPersist mw.rangeDels
        (mw.dropTombstones && mw.noDeeperTier.isNone) mw.retainSeq := by
      rw [CompactionSink.finish_rangeDels, hrts₁, hrts]
      simp [CompactionSink.rangeDels, tableRangeDels]
    refine ⟨rfl, ?_, ?_, hfin.alloc, hfin.room, hfin.nums, hfin.ascending, by simp, hfin.tables⟩
    · rw [hws, ← hptsF]
      simp [CompactionSink.points, hdone.1]
    · rw [← hrtsF]
      simp [CompactionSink.rangeDels, hdone.2]

end Loop

end LevisDB
