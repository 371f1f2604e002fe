import LevisDB.Db.IsolationSteps

/-!
# What readers and iterators see in a run

A pinned sequence keeps its view against every interleaving, at read times not
before the largest committed cutoff. An iterator keeps the view at the time it read
off the clock, unless a compaction fixes its cutoff between that reading and the
pin.
-/

namespace LevisDB

open List Option Function Transition

namespace Isolation

/-- A database that was just opened: nobody reads, nothing is in flight, and the
engine holds the history. -/
structure Start (s : State) : Prop where
  holds : ∃ f, s.eng.Holds f s.history s.retained s.horizon s.walSeq
  seqMax : s.walSeq ≤ maxIKeySeq
  published : s.readSeq ≤ s.walSeq
  clock : 0 < s.clock
  horizon : s.horizon ≤ s.clock
  retained : s.retained ≤ s.readSeq
  count : s.count = []
  iteratorTimes : s.iteratorTimes = []
  filterRuns : s.filterRuns = []
  runs : ∀ i, s.runs i = .idle
  iters : ∀ id, s.iters id = .idle
  job : s.job = none
  ingest : s.ingest = none

theorem Start.inv {s : State} (hs : Start s) (c : Config) : Inv c s where
  holds := hs.holds
  seqMax := hs.seqMax
  published := hs.published
  clock := hs.clock
  horizon := hs.horizon
  retained := hs.retained
  pins := by simp [hs.count]
  views := by simp [hs.count]
  excluded hne := absurd hs.filterRuns hne
  runs i := by
    rw [hs.runs i]
    exact ⟨by simp [RunStage.time?], by simp [RunStage.loaded?], by simp [RunStage.retain?],
      by simp [RunStage.reserves]⟩
  times := by simp [hs.iteratorTimes]
  clocked := by simp [hs.iters]
  merge := by simp [hs.job]
  ingest := by simp [hs.ingest]

def Free (_ : State) (_ : Action) : Prop := True

theorem inv_of_run {c : Config} {allowed : State → Action → Prop} {start s : State}
    {as : List Action} (hstart : Start start)
    (hrun : Transition.Run (step c) allowed start as s) : Inv c s :=
  hrun.invariant (fun _ _ _ hs _ hstep => hs.step hstep) (hstart.inv c)

/-- In every run, every read path at a pinned sequence answers from the history the
pin was taken over, at every time from the largest committed cutoff on; the present
is such a time. No merge in flight discards a value while a pin is held. -/
theorem pinned_reads_keep_history {c : Config} {start s : State} {as : List Action}
    (hstart : Start start) (hrun : Transition.Run (step c) Free start as s) {p : Pin}
    (hp : p ∈ s.count) :
    s.horizon ≤ s.clock ∧
      (∀ t, s.horizon ≤ t → ∀ key,
        s.eng.ReadsAgree p.seq t key ∧ (∀ start stop, s.eng.ScanAgrees p.seq t start stop) ∧
          s.eng.reference p.seq t key = s.history.get p.seq t key ∧
          s.history.get p.seq t key = p.taken.get p.seq t key) ∧
      ∀ m, s.job = some (.merge m) → m.discarded = [] := by
  have hs := inv_of_run hstart hrun
  obtain ⟨f, hf⟩ := hs.holds
  refine ⟨hs.horizon, fun t ht key => ⟨hf.readsAgree _ _ _, hf.scanAgrees _ _, ?_, ?_⟩, fun m hm =>
    ?_⟩
  · exact hf.reference_eq (hs.pins p hp).1 ht key
  · obtain ⟨hagree, hcopies⟩ := hs.views p hp
    exact hagree.get_eq hf.copies hcopies t key
  · refine (hs.merge m hm).kept ?_
    by_contra hfil
    have hin := (hs.merge m hm).reserved (by simpa using hfil)
    rw [hs.excluded (ne_nil_of_mem hin)] at hp
    cases hp

def opened (c : Config) (alloc : Nat) (now : Time) : State where
  eng :=
    { cfg := c.options.engineConfig
      alloc := alloc
      mem := newMemtable
      imm := none
      recoveryMems := []
      tables := []
      blobs := []
      lastCompactionDone := false }
  walSeq := 0
  readSeq := 0
  filterSafeSeq := 0
  clock := now
  count := []
  iteratorTimes := []
  filterRuns := []
  runs := fun _ => .idle
  iters := fun _ => .idle
  job := none
  ingest := none
  history := .empty
  retained := 0
  horizon := Int64.minValue

theorem opened_start (c : Config) {alloc : Nat} (halloc : alloc ≤ 2 ^ 32 - 1) {now : Time}
    (hnow : 0 < now) : Start (opened c alloc now) where
  holds := ⟨.empty,
    { contents := .empty _ _ _
      points := by simp [opened, History.empty, Engine.memtables, memPoints, newMemtable]
      spans := by simp [opened, History.empty, Engine.memtables, memRangeDels, newMemtable]
      plain := by simp [opened, History.empty]
      pointSeqs := by simp [opened, History.empty]
      spanSeqs := by simp [opened, History.empty]
      copies := by simp [opened, History.empty, CopiesIdentical]
      newer := by simp [History.empty]
      uncovered := by simp [History.empty]
      older := by simp [opened]
      lengths := by simp [opened, Engine.memtables, memPoints, newMemtable]
      distinct := by
        simp [opened, Engine.entries, Engine.memtables, memPoints, newMemtable, tablePoints]
      uniqueNums := nodup_nil
      tableNums := by simp [opened]
      blobNums := by simp [opened]
      room := halloc
      blobFileSize := c.blobFileSize
      resolves := Or.inr (by simp [opened])
      recovered := rfl }⟩
  seqMax := Nat.zero_le _
  published := le_refl _
  clock := hnow
  horizon := Int64.minValue_le now
  retained := le_refl _
  count := rfl
  iteratorTimes := rfl
  filterRuns := rfl
  runs _ := rfl
  iters _ := rfl
  job := rfl
  ingest := rfl

def sampleConfig : Config := ⟨shadowedFormat, defaultOptions.fillDefaults, false, none, by decide⟩

def sampleStart : State := opened sampleConfig 0 5

theorem sampleStart_start : Start sampleStart := opened_start sampleConfig (by decide) (by decide)

def twoTables : List Action :=
  [.write [.put [107] [118] 10], .publish 1, .flushBegin, .flushCommit,
    .write [.put [122] [119] 0], .publish 2, .flushBegin, .flushCommit]

def mergeAfterExpiry : List Action :=
  [.tick 20, .runClock 0, .runCutoff 0, .runLoadSafe 0, .runLoadSeq 0, .runRetain 0,
    .merge 0 (.tier 0), .mergeCommit]

def pinThenMerge : List Action := twoTables ++ .acquire 0 :: mergeAfterExpiry

theorem pinned_reads_keep_history_pinThenMerge :
    ∃ s, ∃ p ∈ s.count, Transition.Run (step sampleConfig) Free sampleStart pinThenMerge s ∧
      s.eng.reference p.seq s.clock [122] = s.history.get p.seq s.clock [122] := by
  obtain ⟨s, hs, hone⟩ := exists_exec (step sampleConfig) sampleStart
    pinThenMerge (fun s => 0 < s.count.length) (by decide +kernel)
  obtain ⟨p, hp⟩ := exists_mem_of_length_pos hone
  have hrun : Transition.Run (step sampleConfig) Free sampleStart pinThenMerge s :=
    run_of_exec (fun _ _ => trivial) hs
  obtain ⟨hnow, hreads, _⟩ := pinned_reads_keep_history sampleStart_start hrun hp
  exact ⟨s, p, hp, hrun, (hreads s.clock hnow [122]).2.2.1⟩

/-- `Has` reads the clock before it looks at the tables. If it read 5 and a merge with
cutoff 20 commits in between, it misses a value that its sequence and its time count
as live. -/
theorem stale_time_misses_value :
    ∃ s, Transition.Run (step sampleConfig) Free sampleStart pinThenMerge s ∧
      ∃ p ∈ s.count, hasAtTime s.eng p.seq [107] 5 = .ok ⟨false, false⟩ ∧
        s.history.get p.seq 5 [107] = some ([118], 10) := by
  obtain ⟨s, hs, hread⟩ := exists_exec (step sampleConfig) sampleStart
    pinThenMerge
    (fun s => ∃ p ∈ s.count, hasAtTime s.eng p.seq [107] 5 = .ok ⟨false, false⟩ ∧
      s.history.get p.seq 5 [107] = some ([118], 10)) (by decide +kernel)
  exact ⟨s, run_of_exec (fun _ _ => trivial) hs, hread⟩

def RunStage.cutoff? : RunStage → Option Time
  | .timed _ => none
  | stage => stage.time?

/-- No cutoff, committed or in flight, is later than `t`. -/
structure State.Spares (s : State) (t : Time) : Prop where
  horizon : s.horizon ≤ t
  runs : ∀ i, ∀ cutoff ∈ (s.runs i).cutoff?, cutoff ≤ t
  job : ∀ m, s.job = some (.merge m) → m.cutoff ≤ t

/-- What an iterator reads from answers as the history its pin was taken over. -/
def Serves (e : Engine) (p : Pin) (t : Time) : Prop :=
  ∃ f h w T n, e.Holds f h w T n ∧ w ≤ p.seq ∧ T ≤ t ∧ History.AgreeBelow p.seq h p.taken ∧
    CopiesIdentical p.taken.points

structure Current (s : State) : Prop where
  clocked : ∀ id t, s.iters id = .clocked t → s.Spares t
  held : ∀ id t, s.iters id = .held t → s.Spares t ∧ (id, t) ∈ s.iteratorTimes
  pinned : ∀ id, s.iters id ≠ .idle → ∃ p ∈ s.count, p.holder = .iterator id
  captured : ∀ id t src, s.iters id = .captured t src → ∀ p ∈ s.count, p.holder = .iterator id →
    Serves (src.throughBlobs s.eng) p t

/-- When a run fixes its cutoff, every iterator that has read the clock without
having pinned its time is spared: by the clock the run read before, or by an
iterator time already pinned. -/
def SparesClocked (s : State) (a : Action) : Prop :=
  ∀ i now, a = .runCutoff i → s.runs i = .timed now → ∀ id t, s.iters id = .clocked t →
    now ≤ t ∨ ∃ p ∈ s.iteratorTimes, p.2 ≤ t

section Frames

variable {c : Config} {s s' : State}

theorem Serves.grow {src e e' : Engine} {p : Pin} {t : Time} (h : Serves (src.throughBlobs e) p t)
    (hext : BlobsExtend e.blobs e'.blobs) (halloc : e.alloc ≤ e'.alloc) {f g : History} {w : Nat}
    {T : Time} {n : Nat} (he : e'.Holds f g w T n) : Serves (src.throughBlobs e') p t := by
  obtain ⟨f', h', w', T', n', hh, hrest⟩ := h
  exact ⟨f', h', w', T', n', hh.throughBlobs hext halloc he.blobNums he.room, hrest⟩

structure Apart (s s' : State) : Prop where
  iters : s'.iters = s.iters
  times : s'.iteratorTimes = s.iteratorTimes
  count : ∀ p id, p.holder = .iterator id → (p ∈ s'.count ↔ p ∈ s.count)
  blobs : BlobsExtend s.eng.blobs s'.eng.blobs
  alloc : s.eng.alloc ≤ s'.eng.alloc
  spares : ∀ id t, s.iters id = .clocked t ∨ s.iters id = .held t ∧ (id, t) ∈ s.iteratorTimes →
    s.Spares t → s'.Spares t

theorem Current.apart (hc : Current s) (ha : Apart s s') (hs' : Inv c s') : Current s' where
  clocked id t hid := by
    rw [ha.iters] at hid
    exact ha.spares id t (Or.inl hid) (hc.clocked id t hid)
  held id t hid := by
    rw [ha.iters] at hid
    obtain ⟨hsp, hin⟩ := hc.held id t hid
    exact ⟨ha.spares id t (Or.inr ⟨hid, hin⟩) hsp, ha.times ▸ hin⟩
  pinned id hid := by
    rw [ha.iters] at hid
    obtain ⟨p, hp, hholder⟩ := hc.pinned id hid
    exact ⟨p, (ha.count p id hholder).2 hp, hholder⟩
  captured id t src hid p hp hholder := by
    rw [ha.iters] at hid
    obtain ⟨f, hf⟩ := hs'.holds
    exact (hc.captured id t src hid p ((ha.count p id hholder).1 hp) hholder).grow ha.blobs ha.alloc
      hf

theorem Apart.quiet (hiters : s'.iters = s.iters) (htimes : s'.iteratorTimes = s.iteratorTimes)
    (hcount : ∀ p id, p.holder = .iterator id → (p ∈ s'.count ↔ p ∈ s.count))
    (hblobs : BlobsExtend s.eng.blobs s'.eng.blobs) (halloc : s.eng.alloc ≤ s'.eng.alloc)
    (hhorizon : s'.horizon = s.horizon) (hruns : s'.runs = s.runs)
    (hjob : ∀ m, s'.job = some (.merge m) → s.job = some (.merge m)) : Apart s s' where
  iters := hiters
  times := htimes
  count := hcount
  blobs := hblobs
  alloc := halloc
  spares _ _ _ hsp := ⟨hhorizon ▸ hsp.horizon, hruns ▸ hsp.runs, fun m hm => hsp.job m (hjob m hm)⟩

theorem Apart.setRun {i : Nat} {stage : RunStage}
    (h : ∀ id t, s.iters id = .clocked t ∨ s.iters id = .held t ∧ (id, t) ∈ s.iteratorTimes →
      s.Spares t → ∀ cutoff ∈ stage.cutoff?, cutoff ≤ t) : Apart s (s.setRun i stage) where
  iters := rfl
  times := rfl
  count _ _ _ := Iff.rfl
  blobs := BlobsExtend.refl _
  alloc := le_refl _
  spares id t hid hsp := by
    refine ⟨hsp.horizon, fun j cutoff hj => ?_, hsp.job⟩
    by_cases hji : j = i
    · subst hji
      have hrun : (s.setRun j stage).runs j = stage := update_self _ _ _
      exact h id t hid hsp cutoff (hrun ▸ hj)
    · have hrun : (s.setRun i stage).runs j = s.runs j := update_of_ne hji _ _
      exact hsp.runs j cutoff (hrun ▸ hj)

theorem Apart.trans {s₁ : State} (h : Apart s s₁) (h' : Apart s₁ s') : Apart s s' where
  iters := h'.iters.trans h.iters
  times := h'.times.trans h.times
  count p id hp := (h'.count p id hp).trans (h.count p id hp)
  blobs := h.blobs.trans h'.blobs
  alloc := le_trans h.alloc h'.alloc
  spares id t hid hsp := h'.spares id t (by rw [h.iters, h.times]; exact hid)
    (h.spares id t hid hsp)

theorem apart_setFilterRuns (s : State) (filterRuns : List Nat) :
    Apart s { s with filterRuns := filterRuns } :=
  .quiet rfl rfl (fun _ _ _ => Iff.rfl) (.refl _) (le_refl _) rfl rfl fun _ hm => hm

theorem apart_runStep {i : Nat} {a : Action} (hallowed : SparesClocked s a)
    (ha : ∀ j, a = .runCutoff j → j = i) (h : s.runStep c i a = some s') : Apart s s' := by
  unfold State.runStep at h
  split at h
  · split at h
    · cases h
      exact .setRun fun _ _ _ _ cutoff hcut => by cases hcut
    · cases h
  · next j =>
    split at h
    · next now hstage =>
      cases h
      obtain rfl := ha j rfl
      refine .setRun fun id t hid _ cutoff hcut => ?_
      cases hcut
      obtain ⟨hclock, htimes, _⟩ := oldestIteratorTime_spec s.iteratorTimes now
      rcases hid with hid | ⟨_, hin⟩
      · rcases hallowed j now rfl hstage id t hid with hle | ⟨p, hp, hle⟩
        · exact le_trans hclock hle
        · exact le_trans (htimes p hp) hle
      · exact htimes (id, t) hin
    · cases h
  · split at h
    · next cutoff hstage =>
      cases h
      exact .setRun fun _ _ _ hsp cutoff hcut => hsp.runs i cutoff (hstage ▸ hcut)
    · cases h
  · split at h
    · next cutoff safe hstage =>
      split_ifs at h
      cases h
      refine .trans (.setRun fun _ _ _ hsp cutoff hcut => ?_) (apart_setFilterRuns _ _)
      exact hsp.runs i cutoff (hstage ▸ hcut)
    · cases h
  · split at h
    · next cutoff safe hstage =>
      cases h
      exact .setRun fun _ _ _ hsp cutoff hcut => hsp.runs i cutoff (hstage ▸ hcut)
    · cases h
  · split at h
    · next cutoff safe hstage =>
      cases h
      exact .setRun fun _ _ _ hsp cutoff hcut => hsp.runs i cutoff (hstage ▸ hcut)
    · cases h
  · split at h
    · next cutoff seq hstage =>
      cases h
      exact .setRun fun _ _ _ hsp cutoff hcut => hsp.runs i cutoff (hstage ▸ hcut)
    · cases h
  · cases h

theorem apart_runEnd {i : Nat} (h : s.runEnd i = some s') : Apart s s' := by
  have hidle : Apart s { s.setRun i .idle with filterRuns := s.filterRuns.filter (· ≠ i) } :=
    .trans (.setRun fun _ _ _ _ cutoff hcut => by cases hcut) (apart_setFilterRuns _ _)
  unfold State.runEnd at h
  split at h
  · split_ifs at h
    cases h
    exact hidle
  · cases h
    exact hidle
  · cases h

theorem apart_merge (hs : Inv c s) {i : Nat} {pass : Pass} (h : s.merge c i pass = some s') :
    Apart s s' := by
  unfold State.merge at h
  split at h
  · next r hstage hjob =>
    obtain ⟨plan, hplan, h⟩ := bind_eq_some_iff.1 h
    obtain ⟨⟨metas, alloc⟩, hrun, h⟩ := bind_eq_some_iff.1 h
    cases h
    obtain ⟨_, _, _, _, _, hfresh⟩ := runCompaction_eq_ok (Except.toOption_eq_some hrun)
    have hi := hs.runs i
    rw [hstage] at hi
    refine ⟨rfl, rfl, fun _ _ _ => Iff.rfl, .refl _, hfresh.alloc, fun _ t _ hsp => ?_⟩
    refine ⟨hsp.horizon, hsp.runs, fun m hm => ?_⟩
    cases hm
    refine le_trans (le_of_eq (Pass.expiry_config (hi.times _ rfl).1 pass r.now)) ?_
    exact hsp.runs i r.expireBefore (hstage ▸ rfl)
  · cases h

theorem apart_mergeCommit (h : s.mergeCommit = some s') : Apart s s' := by
  unfold State.mergeCommit at h
  split at h
  · next m hjob =>
    cases h
    refine ⟨rfl, rfl, fun _ _ _ => Iff.rfl, .refl _, le_refl _, fun _ t _ hsp => ?_⟩
    exact ⟨max_le hsp.horizon (hsp.job m hjob), hsp.runs, fun m' hm' => by cases hm'⟩
  · cases h

theorem apart_flushBegin (h : s.flushBegin = some s') : Apart s s' := by
  unfold State.flushBegin at h
  split_ifs at h
  cases h
  obtain ⟨_, halloc, _, hblobs⟩ := s.eng.rotate_rest
  refine .quiet rfl rfl (fun _ _ _ => Iff.rfl) ?_ (Nat.le_of_eq halloc.symm) rfl rfl
    fun m hm => by cases hm
  change BlobsExtend s.eng.blobs s.eng.rotate.1.blobs
  rw [hblobs]
  exact .refl _

theorem apart_flushCommit (hs : Inv c s) (h : s.flushCommit c = some s') : Apart s s' := by
  unfold State.flushCommit at h
  split at h
  · obtain ⟨imm, himm, h⟩ := bind_eq_some_iff.1 h
    obtain ⟨out, hout, h⟩ := bind_eq_some_iff.1 h
    cases h
    obtain ⟨f, hf⟩ := hs.holds
    have hstores := hf.stores himm (Except.toOption_eq_some hout)
    exact .quiet rfl rfl (fun _ _ _ => Iff.rfl) (blobsExtend_append _)
      (Nat.le_trans (Nat.le_succ _) hstores.alloc) rfl rfl fun m hm => by cases hm
  · cases h

theorem apart_acquire {id : Nat} (h : s.pin (.reader id) s.readSeq = some s') : Apart s s' := by
  unfold State.pin at h
  split_ifs at h
  cases h
  refine .quiet rfl rfl (fun p j hp => ?_) (.refl _) (le_refl _) rfl rfl fun _ hm => hm
  refine ⟨fun hin => (mem_cons.1 hin).resolve_left ?_, mem_cons_of_mem _⟩
  rintro rfl
  cases hp

theorem apart_release (s : State) (id : Nat) : Apart s (s.unpin (.reader id)) := by
  refine .quiet rfl rfl (fun p j hp => ?_) (.refl _) (le_refl _) rfl rfl fun _ hm => hm
  refine ⟨fun hin => (mem_filter.1 hin).1, fun hin => mem_filter.2 ⟨hin, ?_⟩⟩
  simp [hp]

end Frames

section Steps

variable {c : Config} {s s' : State}

theorem update_cases {α : Type} {g : Nat → α} {id : Nat} {x : α} {j : Nat} {y : α}
    (h : Function.update g id x j = y) : (j = id ∧ x = y) ∨ (j ≠ id ∧ g j = y) := by
  by_cases hj : j = id
  · subst hj
    rw [update_self] at h
    exact Or.inl ⟨rfl, h⟩
  · rw [update_of_ne hj] at h
    exact Or.inr ⟨hj, h⟩

theorem Current.pin (hc : Current s) {id : Nat} {seq : Nat} {s₁ : State}
    (h : s.pin (.iterator id) seq = some s₁) : Current (s₁.setIter id .pinned) := by
  unfold State.pin at h
  split_ifs at h
  cases h
  have hother : ∀ j stage, Function.update s.iters id .pinned j = stage → stage ≠ .pinned →
      j ≠ id ∧ s.iters j = stage := fun j stage hj hne =>
    (update_cases hj).resolve_left fun hid => hne hid.2.symm
  refine ⟨fun j t hj => ?_, fun j t hj => ?_, fun j hj => ?_, fun j t src hj p hp hholder => ?_⟩
  · have hsp := hc.clocked j t (hother j _ hj (by simp)).2
    exact ⟨hsp.horizon, hsp.runs, hsp.job⟩
  · obtain ⟨hsp, hin⟩ := hc.held j t (hother j _ hj (by simp)).2
    exact ⟨⟨hsp.horizon, hsp.runs, hsp.job⟩, hin⟩
  · rcases eq_or_ne j id with rfl | hji
    · exact ⟨_, mem_cons_self, rfl⟩
    · obtain ⟨p, hp, hholder⟩ := hc.pinned j fun hidle =>
        hj ((update_of_ne hji _ _).trans hidle)
      exact ⟨p, mem_cons_of_mem _ hp, hholder⟩
  · obtain ⟨hji, hj'⟩ := hother j _ hj (by simp)
    rcases mem_cons.1 hp with rfl | hp
    · cases hholder
      exact absurd rfl hji
    · exact hc.captured j t src hj' p hp hholder

theorem Current.setIter (hc : Current s) {id : Nat} {stage : IterStage} {times : List (Nat × Time)}
    (hold : ∀ p ∈ s.iteratorTimes, p ∈ times) (hactive : s.iters id ≠ .idle)
    (hclocked : ∀ t, stage = .clocked t → s.Spares t)
    (hheld : ∀ t, stage = .held t → s.Spares t ∧ (id, t) ∈ times)
    (hcaptured : ∀ t src, stage = .captured t src → ∀ p ∈ s.count, p.holder = .iterator id →
      Serves (src.throughBlobs s.eng) p t) :
    Current { s.setIter id stage with iteratorTimes := times } := by
  have hsame : ∀ t, s.Spares t →
      ({ s.setIter id stage with iteratorTimes := times } : State).Spares t :=
    fun t hsp => ⟨hsp.horizon, hsp.runs, hsp.job⟩
  refine ⟨fun j t hj => ?_, fun j t hj => ?_, fun j hj => ?_, fun j t src hj p hp hholder => ?_⟩
  · rcases update_cases hj with ⟨_, hst⟩ | ⟨_, hj'⟩
    · exact hsame t (hclocked t hst)
    · exact hsame t (hc.clocked j t hj')
  · rcases update_cases hj with ⟨rfl, hst⟩ | ⟨_, hj'⟩
    · exact ⟨hsame t (hheld t hst).1, (hheld t hst).2⟩
    · exact ⟨hsame t (hc.held j t hj').1, hold _ (hc.held j t hj').2⟩
  · rcases eq_or_ne j id with rfl | hji
    · exact hc.pinned j hactive
    · exact hc.pinned j fun hidle => hj ((update_of_ne hji _ _).trans hidle)
  · rcases update_cases hj with ⟨rfl, hst⟩ | ⟨_, hj'⟩
    · exact hcaptured t src hst p hp hholder
    · exact hc.captured j t src hj' p hp hholder

theorem Current.close (hc : Current s) (id : Nat) :
    Current { (s.unpin (.iterator id)).setIter id .idle with
      iteratorTimes := s.iteratorTimes.filter fun p => p.1 ≠ id } := by
  have hother : ∀ j stage, Function.update s.iters id .idle j = stage → stage ≠ .idle →
      j ≠ id ∧ s.iters j = stage := fun j stage hj hne =>
    (update_cases hj).resolve_left fun hid => hne hid.2.symm
  refine ⟨fun j t hj => ?_, fun j t hj => ?_, fun j hj => ?_, fun j t src hj p hp hholder => ?_⟩
  · have hsp := hc.clocked j t (hother j _ hj (by simp)).2
    exact ⟨hsp.horizon, hsp.runs, hsp.job⟩
  · obtain ⟨hji, hj'⟩ := hother j _ hj (by simp)
    obtain ⟨hsp, hin⟩ := hc.held j t hj'
    exact ⟨⟨hsp.horizon, hsp.runs, hsp.job⟩, mem_filter.2 ⟨hin, by simpa using hji⟩⟩
  · obtain ⟨hji, hj'⟩ := hother j _ rfl hj
    obtain ⟨p, hp, hholder⟩ := hc.pinned j (hj' ▸ hj)
    exact ⟨p, mem_filter.2 ⟨hp, by simpa [hholder] using hji⟩, hholder⟩
  · exact hc.captured j t src (hother j _ hj (by simp)).2 p (mem_filter.1 hp).1 hholder

theorem Current.iterStep (hs : Inv c s) (hc : Current s) {id : Nat} {a : Action}
    (h : s.iterStep id a = some s') : Current s' := by
  unfold State.iterStep at h
  split at h
  · split at h
    · next hstage =>
      cases h
      refine hc.setIter (fun _ hp => hp) (by simp [hstage]) (fun t ht => ?_) (by simp) (by simp)
      cases ht
      -- every cutoff so far was fixed at or before this reading of the clock
      refine ⟨hs.horizon, fun i cutoff hcut => ?_, fun m hm => (hs.merge m hm).cutoff⟩
      refine ((hs.runs i).times cutoff ?_).2
      revert hcut
      cases s.runs i <;> simp [RunStage.cutoff?]
    · cases h
  · split at h
    · next readTime hstage =>
      cases h
      refine hc.setIter (fun _ hp => mem_cons_of_mem _ hp) (by simp [hstage]) (by simp)
        (fun t ht => ?_) (by simp)
      cases ht
      exact ⟨hc.clocked id _ hstage, mem_cons_self⟩
    · cases h
  · split at h
    · next readTime hstage =>
      cases h
      refine hc.setIter (fun _ hp => hp) (by simp [hstage]) (by simp) (by simp)
        fun t src ht p hp _ => ?_
      cases ht
      obtain ⟨f, hf⟩ := hs.holds
      exact ⟨f, s.history, s.retained, s.horizon, s.walSeq, hf, (hs.pins p hp).1,
        (hc.held id _ hstage).1.horizon, hs.views p hp⟩
    · cases h
  · split at h
    · cases h
      exact hc.close id
    · cases h
  · cases h

theorem apart_step (hs : Inv c s) {a : Action} (hallowed : SparesClocked s a)
    (h : step c s a = some s')
    (hiter : ∀ id, a ≠ .iterPin id ∧ (∀ snapshot, a ≠ .iterPinAt id snapshot) ∧ a ≠ .iterClock id ∧
      a ≠ .iterTime id ∧ a ≠ .iterCapture id ∧ a ≠ .iterClose id) : Apart s s' := by
  cases a with
  | tick now | publish seq | ingestFail | checkpointed seq =>
    unfold step at h
    dsimp only at h
    split_ifs at h
    cases h
    exact .quiet rfl rfl (fun _ _ _ => Iff.rfl) (.refl _) (le_refl _) rfl rfl fun _ hm => hm
  | allocate =>
    obtain ⟨num, hnum, rfl⟩ := map_eq_some_iff.1 h
    unfold allocNext at hnum
    split_ifs at hnum
    cases hnum
    exact .quiet rfl rfl (fun _ _ _ => Iff.rfl) (.refl _) (Nat.le_succ _) rfl rfl fun _ hm => hm
  | write ops =>
    unfold step State.write at h
    dsimp only at h
    split_ifs at h
    obtain ⟨_, _, h⟩ := bind_eq_some_iff.1 h
    obtain ⟨_, _, h⟩ := bind_eq_some_iff.1 h
    cases h
    exact .quiet rfl rfl (fun _ _ _ => Iff.rfl) (.refl _) (le_refl _) rfl rfl fun _ hm => hm
  | ingestBegin bloomBits ops =>
    obtain ⟨src, table, seq, _, hin, rfl⟩ := hs.ingestBegin_cases h
    have hnum : s.eng.alloc ≤ table.num := by rw [hin.num]; exact Nat.le_succ _
    exact .quiet rfl rfl (fun _ _ _ => Iff.rfl) (.refl _) hnum rfl rfl fun _ hm => hm
  | ingestInstall =>
    obtain ⟨_, _, h⟩ := bind_eq_some_iff.1 h
    cases h
    exact .quiet rfl rfl (fun _ _ _ => Iff.rfl) (.refl _) (le_refl _) rfl rfl fun _ hm => hm
  | flushBegin => exact apart_flushBegin h
  | flushCommit => exact apart_flushCommit hs h
  | flushFail | mergeFail =>
    unfold step at h
    dsimp only at h
    split at h
    · cases h
      exact .quiet rfl rfl (fun _ _ _ => Iff.rfl) (.refl _) (le_refl _) rfl rfl
        fun _ hm => by cases hm
    · cases h
  | acquire id => exact apart_acquire h
  | release id =>
    cases h
    exact apart_release s id
  | runClock i | runCutoff i | runLoadSafe i | runReserve i | runFilter i | runLoadSeq i
  | runRetain i =>
    exact apart_runStep (c := c) hallowed (by simp) h
  | runEnd i => exact apart_runEnd h
  | merge i pass => exact apart_merge hs h
  | mergeCommit => exact apart_mergeCommit h
  | iterPin id => exact absurd rfl (hiter id).1
  | iterPinAt id snapshot => exact absurd rfl ((hiter id).2.1 snapshot)
  | iterClock id => exact absurd rfl (hiter id).2.2.1
  | iterTime id => exact absurd rfl (hiter id).2.2.2.1
  | iterCapture id => exact absurd rfl (hiter id).2.2.2.2.1
  | iterClose id => exact absurd rfl (hiter id).2.2.2.2.2

theorem Current.step (hs : Inv c s) (hc : Current s) {a : Action} (hallowed : SparesClocked s a)
    (h : step c s a = some s') : Current s' := by
  have hs' := hs.step h
  cases a with
  | iterPin id =>
    unfold Isolation.step State.iterPin at h
    dsimp only at h
    split at h
    · obtain ⟨s₁, hpin, h⟩ := bind_eq_some_iff.1 h
      cases h
      exact hc.pin hpin
    · cases h
  | iterPinAt id snapshot =>
    obtain ⟨p, _, h⟩ := bind_eq_some_iff.1 h
    split at h
    · obtain ⟨s₁, hpin, h⟩ := bind_eq_some_iff.1 h
      cases h
      exact hc.pin hpin
    · cases h
  | iterClock id => exact hc.iterStep (c := c) hs (a := .iterClock id) h
  | iterTime id => exact hc.iterStep (c := c) hs (a := .iterTime id) h
  | iterCapture id => exact hc.iterStep (c := c) hs (a := .iterCapture id) h
  | iterClose id => exact hc.iterStep (c := c) hs (a := .iterClose id) h
  | _ => exact hc.apart (apart_step hs hallowed h (by simp)) hs'

theorem Start.current (hs : Start s) : Current s := by
  refine ⟨?_, ?_, ?_, ?_⟩ <;> simp [hs.iters]

theorem Serves.scanRange {e : Engine} {p : Pin} {t : Time} (h : Serves e p t)
    (start stop : Option Key) :
    (scanRange e p.seq t start stop).2 = none ∧
      (scanRange e p.seq t start stop).1.Pairwise (fun a b => a.1 < b.1) ∧
      ∀ key v x, (key, v, x) ∈ (scanRange e p.seq t start stop).1 ↔
        InRange start stop key ∧ p.taken.get p.seq t key = some (v, x) := by
  obtain ⟨f, g, w, T, n, hh, hw, hT, hagree, hcopies⟩ := h
  obtain ⟨herr, hsorted, hmem⟩ := hh.scanAgrees p.seq t start stop
  refine ⟨herr, hsorted, fun key v x => ?_⟩
  have href : e.reference p.seq t key = p.taken.get p.seq t key :=
    (hh.reference_eq hw hT key).trans (hagree.get_eq hh.copies hcopies t key)
  obtain ⟨hexp, _, pr, hfound, _, hget⟩ := hh.readsAgree p.seq t key
  rw [hmem, hexp, hget, ← href]
  refine and_congr_right fun _ => ⟨fun hread => Except.ok.inj hread.2, fun hlive => ?_⟩
  obtain ⟨found, deleted⟩ := pr
  rw [hlive] at hfound ⊢
  simp only [isSome_some, Bool.and_eq_true, Bool.not_eq_true'] at hfound
  obtain ⟨rfl, rfl⟩ := hfound
  exact ⟨rfl, rfl⟩

end Steps

/-- In every run in which each compaction that fixes its cutoff spares the iterators
that have read the clock and not yet pinned it, an open iterator yields, in ascending
order and without error, exactly the keys live at its sequence and read time in the
history its pin was taken over. -/
theorem iterators_keep_ttl_view {c : Config} {start s : State} {as : List Action}
    (hstart : Start start) (hrun : Transition.Run (step c) SparesClocked start as s) {id : Nat}
    {t : Time} {src : Engine} (hid : s.iters id = .captured t src) :
    ∃ p, s.pinOf (.iterator id) = some p ∧ ∀ start stop,
      (scanRange (src.throughBlobs s.eng) p.seq t start stop).2 = none ∧
        (scanRange (src.throughBlobs s.eng) p.seq t start stop).1.Pairwise (fun a b => a.1 < b.1) ∧
        ∀ key v x, (key, v, x) ∈ (scanRange (src.throughBlobs s.eng) p.seq t start stop).1 ↔
          InRange start stop key ∧ p.taken.get p.seq t key = some (v, x) := by
  have hboth : Inv c s ∧ Current s :=
    Transition.Run.invariant (P := fun s => Inv c s ∧ Current s)
      (fun _ _ _ hs hallowed hstep => ⟨hs.1.step hstep, hs.2.step hs.1 hallowed hstep⟩) hrun
      ⟨hstart.inv c, hstart.current⟩
  obtain ⟨_, hc⟩ := hboth
  obtain ⟨q, hq, hholder⟩ := hc.pinned id (by simp [hid])
  have hsome : (s.pinOf (.iterator id)).isSome = true :=
    List.find?_isSome.2 ⟨q, hq, by simpa using hholder⟩
  obtain ⟨p, hp⟩ := isSome_iff_exists.1 hsome
  have hpin := List.find?_some hp
  refine ⟨p, hp, (hc.captured id t src hid p (List.mem_of_find?_eq_some hp) ?_).scanRange⟩
  simpa using hpin

def IterStage.source? : IterStage → Option (Time × Engine)
  | .captured readTime src => some (readTime, src)
  | _ => none

theorem IterStage.eq_captured {stage : IterStage} {t : Time} {src : Engine}
    (h : stage.source? = some (t, src)) : stage = .captured t src := by
  cases stage with
  | captured readTime e =>
    cases h
    rfl
  | _ => cases h

def pinnedBefore : List Action :=
  twoTables ++ [.iterPin 0, .iterClock 0, .iterTime 0, .tick 20, .runClock 0]

def captureAfter : List Action :=
  [.runLoadSafe 0, .runLoadSeq 0, .runRetain 0, .merge 0 (.tier 0), .mergeCommit, .iterCapture 0]

theorem pinnedBefore_none_clocked {s : State}
    (hs : Transition.exec (step sampleConfig) sampleStart pinnedBefore = some s) (id : Nat)
    (t : Time) :
    s.iters id ≠ .clocked t := by
  cases id with
  | zero =>
    have hheld : (Transition.exec (step sampleConfig) sampleStart pinnedBefore).map
      (fun s => s.iters 0) = some (.held 5) := rfl
    rw [hs] at hheld
    have hstage : s.iters 0 = .held 5 := Option.some.inj hheld
    simp [hstage]
  | succ id =>
    have hidle : (Transition.exec (step sampleConfig) sampleStart pinnedBefore).map
      (fun s => s.iters (id + 1)) = some .idle := rfl
    rw [hs] at hidle
    have hstage : s.iters (id + 1) = .idle := Option.some.inj hidle
    simp [hstage]

theorem iterators_keep_ttl_view_pinnedBefore :
    ∃ s t src p, Transition.Run (step sampleConfig) SparesClocked sampleStart
        (pinnedBefore ++ .runCutoff 0 :: captureAfter) s ∧
      s.iters 0 = .captured t src ∧ s.pinOf (.iterator 0) = some p ∧
      (scanRange (src.throughBlobs s.eng) p.seq t none none).2 = none := by
  obtain ⟨s, hs, hsrc⟩ := exists_exec (step sampleConfig) sampleStart
    (pinnedBefore ++ .runCutoff 0 :: captureAfter)
    (fun s => (s.iters 0).source?.isSome = true) (by decide +kernel)
  obtain ⟨⟨t, src⟩, hsrc⟩ := isSome_iff_exists.1 hsrc
  rw [exec_append] at hs
  obtain ⟨s₁, hs₁, hs⟩ := bind_eq_some_iff.1 hs
  obtain ⟨s₂, hcutoff, hs⟩ := bind_eq_some_iff.1 hs
  have hrun : Transition.Run (step sampleConfig) SparesClocked sampleStart
      (pinnedBefore ++ .runCutoff 0 :: captureAfter) s := by
    refine .append (run_of_exec_mem ?_ hs₁)
      (.cons ?_ hcutoff (run_of_exec_mem ?_ hs))
    · rintro a ha s i now rfl
      simp [pinnedBefore, twoTables] at ha
    · exact fun i now _ _ id t hid => absurd hid (pinnedBefore_none_clocked hs₁ id t)
    · rintro a ha s i now rfl
      simp [captureAfter] at ha
  obtain ⟨p, hp, hscan⟩ :=
    iterators_keep_ttl_view sampleStart_start hrun (IterStage.eq_captured hsrc)
  exact ⟨s, t, src, p, hrun, IterStage.eq_captured hsrc, hp, (hscan none none).1⟩

def pinnedTooLate : List Action :=
  twoTables ++ [.iterPin 0, .iterClock 0] ++ mergeAfterExpiry ++ [.iterTime 0, .iterCapture 0]

/-- The iterator read the clock at 5 and a merge with cutoff 20 committed before that
time was pinned: the value live at 5 is not yielded. -/
theorem late_pin_drops_live_value :
    ∃ s, Transition.Run (step sampleConfig) Free sampleStart pinnedTooLate s ∧
      ∃ x ∈ (s.iters 0).source?, ∃ p ∈ s.pinOf (.iterator 0),
        p.taken.get p.seq x.1 [107] = some ([118], 10) ∧
        (scanRange (x.2.throughBlobs s.eng) p.seq x.1 none none).1 = [([122], [119], 0)] := by
  obtain ⟨s, hs, hread⟩ := exists_exec (step sampleConfig) sampleStart
    pinnedTooLate
    (fun s => ∃ x ∈ (s.iters 0).source?, ∃ p ∈ s.pinOf (.iterator 0),
      p.taken.get p.seq x.1 [107] = some ([118], 10) ∧
      (scanRange (x.2.throughBlobs s.eng) p.seq x.1 none none).1 = [([122], [119], 0)])
        (by decide +kernel)
  exact ⟨s, run_of_exec (fun _ _ => trivial) hs, hread⟩

section

variable {c : Config} {start s s' : State} {as : List Action}

/-- Every read path answers `x` for `key`. -/
def State.Answers (s : State) (seq : Nat) (t : Time) (key : Key)
    (x : Option (Bytes × Time)) : Prop :=
  s.eng.ReadsAgree seq t key ∧ (∀ lo hi, s.eng.ScanAgrees seq t lo hi) ∧
    s.eng.reference seq t key = x

theorem Inv.answers (hs : Inv c s) {seq : Nat} (hseq : s.retained ≤ seq) {t : Time}
    (ht : s.horizon ≤ t) (key : Key) : s.Answers seq t key (s.history.get seq t key) := by
  obtain ⟨f, hf⟩ := hs.holds
  exact ⟨hf.readsAgree _ _ _, hf.scanAgrees _ _, hf.reference_eq hseq ht key⟩

/-- Everything but a write, the install of an ingested file and the commit of a merge whose
filter discarded values. -/
def Background (s : State) (a : Action) : Prop :=
  (∀ ops, a ≠ .write ops) ∧ a ≠ .ingestInstall ∧
    (a = .mergeCommit → ∀ m, s.job = some (.merge m) → m.discarded = [])

theorem Background.keeps {a : Action} (hb : Background s a) (h : step c s a = some s') :
    s'.history = s.history ∧ s.retained ≤ s'.retained ∧ s.horizon ≤ s'.horizon := by
  obtain ⟨hwrite, hinstall, hkept⟩ := hb
  cases a with
  | merge i pass =>
    unfold step State.merge at h
    dsimp only at h
    split at h
    · obtain ⟨_, _, h⟩ := bind_eq_some_iff.1 h
      obtain ⟨_, _, h⟩ := bind_eq_some_iff.1 h
      cases h
      exact ⟨rfl, le_refl _, le_refl _⟩
    · cases h
  | _ =>
    grind [step, State.flushBegin, State.flushCommit, State.ingestBegin, State.pin, State.unpin,
      State.runStep, State.setRun, State.setIter, State.runEnd, State.mergeCommit, State.iterPin,
      State.iterPinAt, State.iterStep, History.discard_nil, bind_eq_bind,
      bind_eq_some_iff, map_eq_some_iff, Option.pure_def]

/-- Whatever is sealed, flushed, merged, pinned or released, and however it is interleaved, reads
at the sequences and times still kept, the present ones among them, answer as before. -/
theorem background_invisible {bs : List Action} (hstart : Start start)
    (hrun : Transition.Run (step c) Free start as s)
    (hback : Transition.Run (step c) Background s bs s') :
    s'.retained ≤ s'.readSeq ∧ s'.horizon ≤ s'.clock ∧
      ∀ seq, s'.retained ≤ seq → ∀ t, s'.horizon ≤ t → ∀ key,
        s'.Answers seq t key (s.eng.reference seq t key) := by
  have hs : Inv c s := inv_of_run hstart hrun
  have hs' : Inv c s' := hback.invariant (fun _ _ _ hu _ hstep => hu.step hstep) hs
  obtain ⟨hsame, hret, hhor⟩ : s'.history = s.history ∧ s.retained ≤ s'.retained ∧
      s.horizon ≤ s'.horizon := by
    refine hback.invariant (P := fun u => u.history = s.history ∧ s.retained ≤ u.retained ∧
      s.horizon ≤ u.horizon) (fun u a u' hu ha hstep => ?_) ⟨rfl, le_refl _, le_refl _⟩
    obtain ⟨hsame, hret, hhor⟩ := ha.keeps hstep
    exact ⟨hsame.trans hu.1, hu.2.1.trans hret, hu.2.2.trans hhor⟩
  refine ⟨hs'.retained, hs'.horizon, fun seq hseq t ht key => ?_⟩
  rw [(hs.answers (hret.trans hseq) (hhor.trans ht) key).2.2, ← hsame]
  exact hs'.answers hseq ht key

theorem background_invisible_flush :
    ∃ s s', step sampleConfig sampleStart (.write [.put [107] [118] 0]) = some s ∧
      Transition.exec (step sampleConfig) s [.flushBegin, .flushCommit] = some s' ∧
      s'.Answers s'.readSeq s'.clock [107] (s.eng.reference s'.readSeq s'.clock [107]) := by
  obtain ⟨s', hs', _⟩ := exists_exec (step sampleConfig) sampleStart
    [.write [.put [107] [118] 0], .flushBegin, .flushCommit] (fun s => s.job = none)
      (by decide +kernel)
  obtain ⟨s, hs, hflush⟩ := bind_eq_some_iff.1 hs'
  obtain ⟨hseq, htime, hreads⟩ := background_invisible sampleStart_start
    (.cons trivial hs (.nil s)) (run_of_exec_mem (by simp [Background]) hflush)
  exact ⟨s, s', hs, hflush, hreads _ hseq _ htime [107]⟩

/-- Everything but the end of the ingestion that is under way. -/
def Waits (_ : State) (a : Action) : Prop := a ≠ .ingestInstall ∧ a ≠ .ingestFail

theorem Waits.keeps {a : Action} {table : TableMeta} (hw : Waits s a) (h : step c s a = some s')
    (htable : s.ingest = some table) : s'.ingest = some table := by
  obtain ⟨hinstall, hfail⟩ := hw
  cases a with
  | merge i pass =>
    unfold step State.merge at h
    dsimp only at h
    split at h
    · obtain ⟨_, _, h⟩ := bind_eq_some_iff.1 h
      obtain ⟨_, _, h⟩ := bind_eq_some_iff.1 h
      cases h
      exact htable
    · cases h
  | _ =>
    grind [step, State.write, State.flushBegin, State.flushCommit, State.ingestBegin, State.pin,
      State.unpin, State.runStep, State.setRun, State.setIter, State.runEnd, State.mergeCommit,
      State.iterPin, State.iterPinAt, State.iterStep, bind_eq_bind,
      bind_eq_some_iff, map_eq_some_iff, Option.pure_def]

/-- Whatever comes between the copy of an external file and its install, from the install on
reads of the keys the file was built with return what its calls wrote, nothing where that is
deleted or expired. Other reads, and those below the sequence of the file, stay as they were. -/
theorem ingested_file_visible {before begun : State} {bloomBits : Int} {ops : List SstOp}
    {bs : List Action} (hstart : Start start) (hrun : Transition.Run (step c) Free start as before)
    (hbegin : step c before (.ingestBegin bloomBits ops) = some begun)
    (hwait : Transition.Run (step c) Waits begun bs s)
    (hstep : step c s .ingestInstall = some s') (seq : Nat) (hseq : s.retained ≤ seq) (t : Time)
    (ht : s.horizon ≤ t) (key : Key) :
    s'.Answers seq t key ((ops.find? fun op => op.key = key ∧ before.walSeq < seq).elim
      (s.eng.reference seq t key) (·.answer t)) := by
  have hbefore : Inv c before := inv_of_run hstart hrun
  have hbegun : Inv c begun := hbefore.step hbegin
  have hs : Inv c s := hwait.invariant (fun _ _ _ hu _ hstep => hu.step hstep) hbegun
  have hs' : Inv c s' := hs.step hstep
  obtain ⟨src, table, num, ⟨hsrc, hpoints⟩, hin, rfl⟩ := hbefore.ingestBegin_cases hbegin
  have htable : s.ingest = some table :=
    hwait.invariant (P := fun u => u.ingest = some table)
      (fun _ _ _ hu ha hstep => ha.keeps hstep hu) rfl
  rw [step, State.ingestInstall, htable] at hstep
  cases hstep
  obtain ⟨_, hf⟩ := hs.holds
  obtain ⟨_, hf'⟩ := hs'.holds
  have hanswer := (hs.ingest table htable).awaits.get_ingest hf.copies hf'.copies seq t key
  have hfind : (table.points.find? fun e => e.user = key ∧ e.seq ≤ seq) =
      (ops.find? fun op => op.key = key ∧ before.walSeq < seq).map fun op =>
        restamp num op.entry := by
    have hnum := hin.reserved
    rw [hin.points, hpoints, List.map_map, List.find?_map]
    refine congrArg (Option.map _) (congrArg (ops.find? ·) (funext fun op => ?_))
    exact decide_eq_decide.2 (and_congr (op.entry_user ▸ Iff.rfl) (hnum ▸ Nat.succ_le_iff))
  rw [hfind] at hanswer
  have hsame := hs'.answers hseq ht key
  rw [hanswer, ← (hs.answers hseq ht key).2.2] at hsame
  cases hop : ops.find? fun op => op.key = key ∧ before.walSeq < seq with
  | none => rwa [hop] at hsame
  | some op =>
    have hdecodes := hsrc.decodes op.entry
      (hpoints ▸ List.mem_map_of_mem (List.mem_of_find?_eq_some hop))
    rw [hop] at hsame
    change State.Answers _ seq t key ((op.entry.payload.liveAt t).bind (liveReference [])) at hsame
    rwa [SstOp.liveAt_entry hdecodes] at hsame

def flushFirst : List Action := [.write [.put [108] [119] 0], .flushBegin, .flushCommit]

theorem ingested_file_visible_flushFirst :
    ∃ before begun s s', Transition.Run (step sampleConfig) Free sampleStart flushFirst before ∧
      step sampleConfig before (.ingestBegin 0 [.put [107] [118], .delete [108]]) = some begun ∧
      Transition.Run (step sampleConfig) Waits begun [.tick 7] s ∧
      step sampleConfig s .ingestInstall = some s' ∧
      s'.Answers 2 s.clock [107] (some ([118], 0)) ∧ s'.Answers 2 s.clock [108] none ∧
      s'.Answers 1 s.clock [108] (s.eng.reference 1 s.clock [108]) := by
  obtain ⟨s, hs, hretained, hready⟩ := exists_exec (step sampleConfig) sampleStart
    (flushFirst ++ [.ingestBegin 0 [.put [107] [118], .delete [108]], .tick 7])
    (fun s => s.retained = 0 ∧ (step sampleConfig s .ingestInstall).isSome = true)
    (by decide +kernel)
  obtain ⟨s', hstep⟩ := isSome_iff_exists.1 hready
  rw [exec_append] at hs
  obtain ⟨before, hbefore, hs⟩ := bind_eq_some_iff.1 hs
  obtain ⟨begun, hbegin, hs⟩ := bind_eq_some_iff.1 hs
  have hwal : before.walSeq = 1 := by
    have hmap : (Transition.exec (step sampleConfig) sampleStart flushFirst).map (·.walSeq) =
      some 1 := by decide +kernel
    rw [hbefore] at hmap
    exact Option.some.inj hmap
  have hrun : Transition.Run (step sampleConfig) Free sampleStart flushFirst before :=
    run_of_exec (fun _ _ => trivial) hbefore
  have hwait : Transition.Run (step sampleConfig) Waits begun [.tick 7] s :=
    run_of_exec_mem (by simp [Waits]) hs
  have hinv : Inv sampleConfig s := hwait.invariant (fun _ _ _ hu _ hstep => hu.step hstep)
    ((inv_of_run sampleStart_start hrun).step hbegin)
  have hreads := fun seq => ingested_file_visible sampleStart_start hrun hbegin hwait hstep seq
    (hretained ▸ Nat.zero_le seq) s.clock hinv.horizon
  rw [hwal] at hreads
  exact ⟨before, begun, s, s', hrun, hbegin, hwait, hstep, hreads 2 [107], hreads 2 [108],
    hreads 1 [108]⟩

end

end Isolation

end LevisDB
