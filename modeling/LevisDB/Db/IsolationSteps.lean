import LevisDB.Db.Isolation

/-!
# What every action keeps

The engine holds the history from the largest committed watermark and cutoff on.
No watermark in flight is above a pin or the latest sequence, no filtering run
coexists with a pin, and each pin still sees the history it was taken over.
-/

namespace LevisDB

open List Option LevisDB.Except Function

namespace Isolation

theorem foldl_least {α β : Type} [LinearOrder β] (g : α → β) (l : List α) (m : β) {r : β}
    (h : l.foldl (fun m q => if g q < m then g q else m) m = r) :
    r ≤ m ∧ (∀ q ∈ l, r ≤ g q) ∧ (r = m ∨ ∃ q ∈ l, r = g q) := by
  induction l generalizing m with
  | nil =>
    obtain rfl : m = r := h
    exact ⟨le_refl _, by simp, Or.inl rfl⟩
  | cons a l ih =>
    obtain ⟨hle, hall, hwhich⟩ := ih _ h
    dsimp only at hle hwhich
    by_cases ha : g a < m
    · rw [if_pos ha] at hle hwhich
      refine ⟨le_trans hle (le_of_lt ha), fun q hq => ?_, Or.inr ?_⟩
      · rcases mem_cons.1 hq with rfl | hq
        · exact hle
        · exact hall q hq
      · rcases hwhich with hr | ⟨q, hq, hr⟩
        · exact ⟨a, by simp, hr⟩
        · exact ⟨q, by simp [hq], hr⟩
    · rw [if_neg ha] at hle hwhich
      refine ⟨hle, fun q hq => ?_, ?_⟩
      · rcases mem_cons.1 hq with rfl | hq
        · exact le_trans hle (not_lt.1 ha)
        · exact hall q hq
      · exact hwhich.imp_right fun ⟨q, hq, hr⟩ => ⟨q, by simp [hq], hr⟩

theorem oldest_le {count : List Pin} {p : Pin} (hp : p ∈ count) (fallback : Nat) :
    oldest count fallback ≤ p.seq := by
  cases count with
  | nil => cases hp
  | cons q ps =>
    obtain ⟨hle, hall, _⟩ := foldl_least Pin.seq ps q.seq rfl
    rcases mem_cons.1 hp with rfl | hp
    · exact hle
    · exact hall p hp

theorem oldest_le_of_le {count : List Pin} {fallback n : Nat} (hpins : ∀ p ∈ count, p.seq ≤ n)
    (hfallback : fallback ≤ n) : oldest count fallback ≤ n := by
  cases count with
  | nil => exact hfallback
  | cons q ps => exact le_trans (oldest_le mem_cons_self fallback) (hpins q mem_cons_self)

theorem oldestIteratorTime_spec (times : List (Nat × Time)) (fallback : Time) :
    oldestIteratorTime times fallback ≤ fallback ∧
      (∀ p ∈ times, oldestIteratorTime times fallback ≤ p.2) ∧
      (oldestIteratorTime times fallback = fallback ∨
        ∃ p ∈ times, oldestIteratorTime times fallback = p.2) :=
  foldl_least Prod.snd times fallback rfl

namespace RunStage

/-- The time a run carries: its clock reading, then its cutoff. -/
def time? : RunStage → Option Time
  | .idle => none
  | .timed now => some now
  | .configured cutoff => some cutoff
  | .safeLoaded cutoff _ => some cutoff
  | .reserved cutoff _ => some cutoff
  | .seqLoaded cutoff _ => some cutoff
  | .ready r => some r.expireBefore

def loaded? : RunStage → Option Nat
  | .seqLoaded _ seq => some seq
  | _ => none

def retain? : RunStage → Option Nat
  | .ready r => some r.retain
  | _ => none

def reserves : RunStage → Bool
  | .reserved _ _ => true
  | .ready r => r.filter.isSome
  | _ => false

end RunStage

structure State.Admits (s : State) (i : Nat) (stage : RunStage) : Prop where
  times : ∀ t ∈ stage.time?, 0 < t ∧ t ≤ s.clock
  loaded : ∀ n ∈ stage.loaded?, n ≤ s.readSeq
  retain : ∀ n ∈ stage.retain?, n ≤ s.readSeq ∧ ∀ p ∈ s.count, n ≤ p.seq
  reserved : stage.reserves = true → i ∈ s.filterRuns

structure Merge.Pending (c : Config) (s : State) (m : Merge) : Prop where
  merging : s.eng.Merging c.fmt m.plan m.retain m.cutoff m.discarded m.metas
  retain : m.retain ≤ s.readSeq
  pins : ∀ p ∈ s.count, m.retain ≤ p.seq
  cutoff : m.cutoff ≤ s.clock
  reserved : m.filtering = true → m.run ∈ s.filterRuns
  kept : m.filtering = false → m.discarded = []

/-- A table whose sequence is published before it is installed. -/
structure State.Ingesting (s : State) (table : TableMeta) : Prop where
  awaits : s.eng.Awaits s.history s.walSeq table
  pins : ∀ p ∈ s.count, p.seq < s.walSeq
  nums : ∀ m, s.job = some (.merge m) → ∀ t ∈ m.metas, t.num ≠ table.num

structure Inv (c : Config) (s : State) : Prop where
  holds : ∃ f, s.eng.Holds f s.history s.retained s.horizon s.walSeq
  seqMax : s.walSeq ≤ maxIKeySeq
  published : s.readSeq ≤ s.walSeq
  clock : 0 < s.clock
  horizon : s.horizon ≤ s.clock
  retained : s.retained ≤ s.readSeq
  pins : ∀ p ∈ s.count, s.retained ≤ p.seq ∧ p.seq ≤ s.readSeq
  views : ∀ p ∈ s.count, History.AgreeBelow p.seq s.history p.taken ∧ CopiesIdentical p.taken.points
  excluded : s.filterRuns ≠ [] → s.count = []
  runs : ∀ i, s.Admits i (s.runs i)
  times : ∀ p ∈ s.iteratorTimes, 0 < p.2
  clocked : ∀ id t, s.iters id = .clocked t → 0 < t
  merge : ∀ m, s.job = some (.merge m) → m.Pending c s
  ingest : ∀ table, s.ingest = some table → s.Ingesting table

section Frames

variable {c : Config} {s s' : State}

theorem State.Admits.mono {i : Nat} {stage : RunStage} (h : s.Admits i stage)
    (hclock : s.clock ≤ s'.clock) (hread : s.readSeq ≤ s'.readSeq)
    (hcount : ∀ p ∈ s'.count, s.readSeq ≤ p.seq ∨ ∃ q ∈ s.count, q.seq = p.seq)
    (hfilter : i ∈ s.filterRuns → i ∈ s'.filterRuns) : s'.Admits i stage where
  times t ht := ⟨(h.times t ht).1, le_trans (h.times t ht).2 hclock⟩
  loaded n hn := le_trans (h.loaded n hn) hread
  retain n hn := by
    refine ⟨le_trans (h.retain n hn).1 hread, fun p hp => ?_⟩
    rcases hcount p hp with hlast | ⟨q, hq, hsame⟩
    · exact le_trans (h.retain n hn).1 hlast
    · exact hsame ▸ (h.retain n hn).2 q hq
  reserved hres := hfilter (h.reserved hres)

theorem Merge.Pending.mono {m : Merge} (h : m.Pending c s) (htables : s'.eng.tables = s.eng.tables)
    (halloc : s.eng.alloc ≤ s'.eng.alloc) (hclock : s.clock ≤ s'.clock)
    (hread : s.readSeq ≤ s'.readSeq)
    (hcount : ∀ p ∈ s'.count, s.readSeq ≤ p.seq ∨ ∃ q ∈ s.count, q.seq = p.seq)
    (hfilter : m.run ∈ s.filterRuns → m.run ∈ s'.filterRuns) : m.Pending c s' where
  merging := h.merging.frame htables halloc
  retain := le_trans h.retain hread
  pins p hp := by
    rcases hcount p hp with hlast | ⟨q, hq, hsame⟩
    · exact le_trans h.retain hlast
    · exact hsame ▸ h.pins q hq
  cutoff := le_trans h.cutoff hclock
  reserved hfil := hfilter (h.reserved hfil)
  kept := h.kept

end Frames

theorem same_pins (s : State) : ∀ p ∈ s.count, s.readSeq ≤ p.seq ∨ ∃ q ∈ s.count, q.seq = p.seq :=
  fun p hp => Or.inr ⟨p, hp, rfl⟩

theorem Pass.plan_separated {tables : List TableMeta}
    (huniq : UniqueNums tables) {cc : CompactionConfig} {pass : Pass} {p : CompactionPlan}
    (h : pass.plan tables cc = some p) : p.Separated tables := by
  cases pass with
  | tier depth => exact planCompact_separated huniq h
  | hop depth => exact planCompact_separated huniq h
  | bottom depth => exact planCompact_separated huniq h
  | all => exact planCompactAll_separated h

theorem Pass.expiry_config {c : Config} {r : RunConfig} (hpos : 0 < r.expireBefore) (pass : Pass)
    (now : Time) : (pass.config (c.options.runConfig r)).expiry now = r.expireBefore := by
  have hcut : (pass.config (c.options.runConfig r)).expireBefore = r.expireBefore := by
    cases pass <;> rfl
  rw [CompactionConfig.expiry, hcut, if_neg (ne_of_gt hpos)]

theorem Pass.filter_config {c : Config} {r : RunConfig} {pass : Pass}
    (h : (pass.config (c.options.runConfig r)).filter.isSome = true) : r.filter.isSome = true := by
  cases pass with
  | tier depth => exact h
  | hop depth => cases h
  | bottom depth => exact h
  | all => exact h

namespace Inv

variable {c : Config} {s s' : State}

section

variable (hs : Inv c s)
include hs

theorem tick {now : Time} (h : s.clock ≤ now) : Inv c { s with clock := now } :=
  { hs with
    clock := lt_of_lt_of_le hs.clock h
    horizon := le_trans hs.horizon h
    runs := fun i => (hs.runs i).mono h (le_refl _) (same_pins s) id
    merge := fun m hm => (hs.merge m hm).mono rfl (le_refl _) h (le_refl _) (same_pins s) id
    ingest := fun t ht => ⟨(hs.ingest t ht).awaits, (hs.ingest t ht).pins, (hs.ingest t ht).nums⟩ }

theorem allocate {n : Nat} (hle : s.eng.alloc ≤ n) (hroom : n ≤ 2 ^ 32 - 1) :
    Inv c { s with eng := { s.eng with alloc := n } } :=
  { hs with
    holds := hs.holds.imp fun _ hf => hf.allocate hle hroom
    runs := fun i => (hs.runs i).mono (le_refl _) (le_refl _) (same_pins s) id
    merge := fun m hm => (hs.merge m hm).mono rfl hle (le_refl _) (le_refl _) (same_pins s) id
    ingest := fun t ht =>
      { hs.ingest t ht with
        awaits := (hs.ingest t ht).awaits.frame (fun _ he => he) hle (hs.ingest t ht).awaits.fresh
          (fun p hp => ⟨p, hp, rfl⟩) fun _ hrt => hrt } }

theorem write {ops : List BatchOp} (h : s.write c ops = some s') : Inv c s' := by
  unfold State.write at h
  split_ifs at h with hguard
  push Not at hguard
  obtain ⟨entries, hentries, h⟩ := bind_eq_some_iff.1 h
  obtain ⟨base, hbase, h⟩ := bind_eq_some_iff.1 h
  cases h
  obtain ⟨rfl, hmax⟩ := reserveSeq_eq_ok (toOption_eq_some hbase)
  obtain ⟨kept, hacc, rfl⟩ :=
    batchEntries_accepted (le_of_lt hs.clock) (toOption_eq_some hentries)
  set es := assignSeqs (s.walSeq + 1) (kept.map BatchOp.entry) with hes
  have hlow : ∀ e ∈ es, s.walSeq < e.seq := fun e he => (mem_assignSeqs he).1
  have hhigh : ∀ e ∈ es, e.seq ≤ s.walSeq + (kept.map BatchOp.entry).length := by
    intro e he
    have := (mem_assignSeqs he).2.1
    omega
  have hvalid : ∀ e ∈ es, e.Valid := assignSeqs_valid hacc (by simpa using hmax)
  refine { hs with
    holds := hs.holds.imp fun _ hf =>
      hf.apply hvalid (assignSeqs_ascending _ _) hlow hhigh (Nat.le_add_right _ _)
    seqMax := hmax
    published := le_trans hs.published (Nat.le_add_right _ _)
    views := fun p hp => ⟨(hs.views p hp).1.log fun e he => ?_, (hs.views p hp).2⟩
    runs := fun i => (hs.runs i).mono (le_refl _) (le_refl _) (same_pins s) id
    merge := fun m hm => (hs.merge m hm).mono rfl (le_refl _) (le_refl _) (le_refl _)
      (same_pins s) id
    ingest := fun t ht => ?_ }
  · have := (hs.pins p hp).2
    have := hs.published
    have := hlow e he
    omega
  · have hnone : s.ingest = none := by simpa using hguard.1
    cases hnone.symm.trans ht

theorem publish {seq : Nat} (hlo : s.readSeq ≤ seq) (hhi : seq ≤ s.walSeq) :
    Inv c { s with readSeq := seq } :=
  { hs with
    published := hhi
    retained := le_trans hs.retained hlo
    pins := fun p hp => ⟨(hs.pins p hp).1, le_trans (hs.pins p hp).2 hlo⟩
    runs := fun i => (hs.runs i).mono (le_refl _) hlo (same_pins s) id
    merge := fun m hm => (hs.merge m hm).mono rfl (le_refl _) (le_refl _) hlo (same_pins s) id
    ingest := fun t ht => ⟨(hs.ingest t ht).awaits, (hs.ingest t ht).pins, (hs.ingest t ht).nums⟩ }

theorem ingestBegin_cases {bloomBits : Int} {ops : List SstOp}
    (h : s.ingestBegin c bloomBits ops = some s') :
    ∃ src table seq, (ExternalFile src ∧ src.points = ops.map SstOp.entry) ∧
      Ingested s.eng s.walSeq src table seq ∧
      s' = { s with
        eng := { s.eng with alloc := table.num }
        walSeq := seq
        readSeq := seq
        ingest := some table } := by
  unfold State.ingestBegin at h
  split_ifs at h with hguard
  obtain ⟨src, hsrc, h⟩ := bind_eq_some_iff.1 h
  obtain ⟨⟨table, seq⟩, hprep, h⟩ := bind_eq_some_iff.1 h
  obtain ⟨f, hf⟩ := hs.holds
  have hbuffered : ∀ m ∈ s.eng.mem :: s.eng.imm.toList, ∀ e ∈ m.points, e.seq ≤ maxIKeySeq := by
    intro m hm e he
    refine le_trans (hf.pointSeqs e ((hf.points e).2 (Or.inr (mem_memPoints.2 ⟨m, ?_, he⟩))))
      hs.seqMax
    rw [Engine.memtables, hf.recovered, append_nil]
    exact hm
  exact ⟨src, table, seq, buildSst_eq_ok (toOption_eq_some hsrc),
    prepareIngest_eq_ok hf.room hbuffered (toOption_eq_some hprep), (Option.some.inj h).symm⟩

theorem ingestBegin {bloomBits : Int} {ops : List SstOp}
    (h : s.ingestBegin c bloomBits ops = some s') : Inv c s' := by
  obtain ⟨src, table, seq, hsrc, hin, rfl⟩ := hs.ingestBegin_cases h
  obtain ⟨f, hf⟩ := hs.holds
  have hnum : s.eng.alloc ≤ table.num := by rw [hin.num]; exact Nat.le_succ _
  have hseq : s.walSeq ≤ seq := by rw [hin.reserved]; exact Nat.le_succ _
  have hread : s.readSeq ≤ seq := le_trans hs.published hseq
  refine { hs with
    holds := ⟨f, (hf.allocate hnum (hin.num ▸ hin.room)).raise hseq⟩
    seqMax := hin.seqMax
    published := le_refl _
    retained := le_trans hs.retained hread
    pins := fun p hp => ⟨(hs.pins p hp).1, le_trans (hs.pins p hp).2 hread⟩
    runs := fun i => (hs.runs i).mono (le_refl _) hread (same_pins s) id
    merge := fun m hm => (hs.merge m hm).mono rfl hnum (le_refl _) hread (same_pins s) id
    ingest := fun t ht => ?_ }
  cases ht
  refine ⟨hin.awaits hf hsrc.1, fun p hp => ?_, fun m hm t ht => ?_⟩
  · have := (hs.pins p hp).2
    have := hs.published
    have := hin.reserved
    simp only
    omega
  · have := ((hs.merge m hm).merging.nums t ht).1
    have := hin.num
    omega

theorem ingestInstall (h : s.ingestInstall = some s') : Inv c s' := by
  obtain ⟨table, htable, h⟩ := bind_eq_some_iff.1 h
  cases h
  have hi := hs.ingest table htable
  obtain ⟨f, hf⟩ := hs.holds
  refine { hs with
    holds := ⟨_, hf.ingest hi.awaits (le_refl _)⟩
    views := fun p hp => ⟨(hs.views p hp).1.ingest fun e he => ?_, (hs.views p hp).2⟩
    runs := fun i => (hs.runs i).mono (le_refl _) (le_refl _) (same_pins s) id
    merge := fun m hm => ?_
    ingest := fun t ht => by cases ht }
  · rw [hi.awaits.stamped e he]
    exact hi.pins p hp
  · have hm' := hs.merge m hm
    exact ⟨hm'.merging.ingest hf hi.awaits (hi.nums m hm), hm'.retain, hm'.pins, hm'.cutoff,
      hm'.reserved, hm'.kept⟩

theorem ingestFail : Inv c { s with ingest := none } :=
  { hs with
    runs := fun i => (hs.runs i).mono (le_refl _) (le_refl _) (same_pins s) id
    merge := fun m hm => (hs.merge m hm).mono rfl (le_refl _) (le_refl _) (le_refl _)
      (same_pins s) id
    ingest := fun t ht => by cases ht }

theorem flushBegin (h : s.flushBegin = some s') : Inv c s' := by
  unfold State.flushBegin at h
  split_ifs at h
  cases h
  obtain ⟨_, halloc, htables, _⟩ := s.eng.rotate_rest
  refine { hs with
    holds := hs.holds.imp fun _ hf => hf.rotate
    runs := fun i => (hs.runs i).mono (le_refl _) (le_refl _) (same_pins s) id
    merge := fun m hm => by cases hm
    ingest := fun t ht => ⟨?_, (hs.ingest t ht).pins, fun m hm => by cases hm⟩ }
  have hi := (hs.ingest t ht).awaits
  refine hi.frame (fun e he => ?_) (Nat.le_of_eq halloc.symm) (htables.symm ▸ hi.fresh)
    (fun p hp => ⟨p, hp, rfl⟩) fun _ hrt => hrt
  rcases s.eng.rotate_memtables with hmems | hmems
  · exact hmems ▸ he
  · simpa only [hmems, memPoints, flatMap_cons, newMemtable, nil_append] using he

theorem flushCommit (h : s.flushCommit c = some s') : Inv c s' := by
  unfold State.flushCommit at h
  split at h
  · obtain ⟨imm, himm, h⟩ := bind_eq_some_iff.1 h
    obtain ⟨out, hout, h⟩ := bind_eq_some_iff.1 h
    cases h
    obtain ⟨f, hf⟩ := hs.holds
    have hstores := hf.stores himm (toOption_eq_some hout)
    refine { hs with
      holds := ⟨_, hf.install himm hstores⟩
      runs := fun i => (hs.runs i).mono (le_refl _) (le_refl _) (same_pins s) id
      merge := fun m hm => by cases hm
      ingest := fun t ht => ⟨?_, (hs.ingest t ht).pins, fun m hm => by cases hm⟩ }
    have hi := (hs.ingest t ht).awaits
    refine hi.frame (fun e he => ?_) (Nat.le_trans (Nat.le_succ _) hstores.alloc) (fun u hu => ?_)
      (fun p hp => ⟨p, hp, rfl⟩) fun _ hrt => hrt
    · simp only [memPoints, Engine.memtables, Engine.installFlush, Engine.created, flatMap_cons,
        toList_none, nil_append, mem_append, flatMap_append] at he ⊢
      exact he.imp_right Or.inr
    · rcases mem_append.1 hu with hu | hu
      · exact hi.fresh u hu
      · obtain rfl := mem_singleton.1 hu
        have := hi.allocated
        have := hstores.num
        omega
  · cases h

theorem unlock : Inv c { s with job := none } :=
  { hs with
    runs := fun i => (hs.runs i).mono (le_refl _) (le_refl _) (same_pins s) id
    merge := fun m hm => by cases hm
    ingest := fun t ht =>
      ⟨(hs.ingest t ht).awaits, (hs.ingest t ht).pins, fun m hm => by cases hm⟩ }

theorem checkpointed (seq : Nat) : Inv c { s with filterSafeSeq := seq } :=
  { hs with
    runs := fun i => (hs.runs i).mono (le_refl _) (le_refl _) (same_pins s) id
    merge := fun m hm => (hs.merge m hm).mono rfl (le_refl _) (le_refl _) (le_refl _)
      (same_pins s) id
    ingest := fun t ht => ⟨(hs.ingest t ht).awaits, (hs.ingest t ht).pins, (hs.ingest t ht).nums⟩ }

theorem pin {holder : Holder} {seq : Nat} (h : s.pin holder seq = some s')
    (hseq : s.readSeq = seq ∨ ∃ q ∈ s.count, q.seq = seq) : Inv c s' := by
  unfold State.pin at h
  split_ifs at h with hguard
  cases h
  have hnew : ∀ p ∈ (⟨holder, seq, s.history⟩ :: s.count : List Pin),
      s.readSeq ≤ p.seq ∨ ∃ q ∈ s.count, q.seq = p.seq := by
    intro p hp
    rcases mem_cons.1 hp with rfl | hp
    · exact hseq.imp_left Nat.le_of_eq
    · exact Or.inr ⟨p, hp, rfl⟩
  obtain ⟨f, hf⟩ := hs.holds
  refine { hs with
    pins := fun p hp => ?_
    views := fun p hp => ?_
    excluded := fun hne => absurd hguard.1 hne
    runs := fun i => (hs.runs i).mono (le_refl _) (le_refl _) hnew id
    merge := fun m hm => (hs.merge m hm).mono rfl (le_refl _) (le_refl _) (le_refl _) hnew id
    ingest := fun t ht => ?_ }
  · rcases mem_cons.1 hp with rfl | hp
    · rcases hseq with rfl | ⟨q, hq, rfl⟩
      · exact ⟨hs.retained, le_refl _⟩
      · exact hs.pins q hq
    · exact hs.pins p hp
  · rcases mem_cons.1 hp with rfl | hp
    · exact ⟨.refl _ _, hf.copies⟩
    · exact hs.views p hp
  · have hnone : s.ingest = none := by simpa using hguard.2.1
    cases hnone.symm.trans ht

theorem unpin (holder : Holder) : Inv c (s.unpin holder) := by
  have hsub : ∀ p ∈ (s.unpin holder).count, p ∈ s.count := fun p hp => (mem_filter.1 hp).1
  have hold : ∀ p ∈ (s.unpin holder).count, s.readSeq ≤ p.seq ∨ ∃ q ∈ s.count, q.seq = p.seq :=
    fun p hp => Or.inr ⟨p, hsub p hp, rfl⟩
  exact { hs with
    pins := fun p hp => hs.pins p (hsub p hp)
    views := fun p hp => hs.views p (hsub p hp)
    excluded := fun hne => filter_eq_nil_iff.2 fun p hp => by
      rw [hs.excluded hne] at hp
      cases hp
    runs := fun i => (hs.runs i).mono (le_refl _) (le_refl _) hold id
    merge := fun m hm => (hs.merge m hm).mono rfl (le_refl _) (le_refl _) (le_refl _) hold id
    ingest := fun t ht => ⟨(hs.ingest t ht).awaits, fun p hp => (hs.ingest t ht).pins p (hsub p hp),
      (hs.ingest t ht).nums⟩ }

theorem setRun {i : Nat} {stage : RunStage} (h : s.Admits i stage) :
    Inv c (s.setRun i stage) :=
  { hs with
    runs := fun j => by
      by_cases hj : j = i
      · subst hj
        have hrun : (s.setRun j stage).runs j = stage := update_self _ _ _
        rw [hrun]
        exact h.mono (le_refl _) (le_refl _) (same_pins s) id
      · have hrun : (s.setRun i stage).runs j = s.runs j := update_of_ne hj _ _
        rw [hrun]
        exact (hs.runs j).mono (le_refl _) (le_refl _) (same_pins s) id
    merge := fun m hm => (hs.merge m hm).mono rfl (le_refl _) (le_refl _) (le_refl _)
      (same_pins s) id
    ingest := fun t ht => ⟨(hs.ingest t ht).awaits, (hs.ingest t ht).pins, (hs.ingest t ht).nums⟩ }

theorem setFilterRuns {filterRuns : List Nat} (hne : filterRuns ≠ [] → s.count = [])
    (hruns : ∀ i, (s.runs i).reserves = true → i ∈ filterRuns)
    (hjob : ∀ m, s.job = some (.merge m) → m.filtering = true → m.run ∈ filterRuns) :
    Inv c { s with filterRuns := filterRuns } :=
  { hs with
    excluded := hne
    runs := fun i => ⟨(hs.runs i).times, (hs.runs i).loaded, (hs.runs i).retain, hruns i⟩
    merge := fun m hm => ⟨(hs.merge m hm).merging, (hs.merge m hm).retain, (hs.merge m hm).pins,
      (hs.merge m hm).cutoff, hjob m hm, (hs.merge m hm).kept⟩
    ingest := fun t ht => ⟨(hs.ingest t ht).awaits, (hs.ingest t ht).pins, (hs.ingest t ht).nums⟩ }

theorem runStep (i : Nat) (a : Action) (h : s.runStep c i a = some s') : Inv c s' := by
  have hi := hs.runs i
  unfold State.runStep at h
  split at h
  · -- the clock
    split at h
    · cases h
      exact hs.setRun ⟨by simpa [RunStage.time?] using hs.clock, by simp [RunStage.loaded?],
        by simp [RunStage.retain?], by simp [RunStage.reserves]⟩
    · cases h
  · -- the cutoff
    split at h
    · next now hstage =>
      cases h
      rw [hstage] at hi
      obtain ⟨hpos, hle⟩ := hi.times now rfl
      obtain ⟨hcut, _, hwhich⟩ := oldestIteratorTime_spec s.iteratorTimes now
      refine hs.setRun ⟨?_, by simp [RunStage.loaded?], by simp [RunStage.retain?],
        by simp [RunStage.reserves]⟩
      rintro t ht
      cases ht
      refine ⟨?_, le_trans hcut hle⟩
      rcases hwhich with heq | ⟨p, hp, heq⟩
      · rw [heq]
        exact hpos
      · rw [heq]
        exact hs.times p hp
    · cases h
  · -- the recovery-safe sequence
    split at h
    · next cutoff hstage =>
      cases h
      rw [hstage] at hi
      exact hs.setRun ⟨hi.times, by simp [RunStage.loaded?], by simp [RunStage.retain?],
        by simp [RunStage.reserves]⟩
    · cases h
  · -- the reservation
    split at h
    · next cutoff safe hstage =>
      split_ifs at h with hguard
      cases h
      rw [hstage] at hi
      have hnone : s.count = [] := List.isEmpty_iff.1 hguard.2.2
      have hres : Inv c { s with filterRuns := i :: s.filterRuns } :=
        hs.setFilterRuns (fun _ => hnone) (fun j hj => mem_cons_of_mem _ ((hs.runs j).reserved hj))
          fun m hm hfil => mem_cons_of_mem _ ((hs.merge m hm).reserved hfil)
      exact hres.setRun ⟨hi.times, by simp [RunStage.loaded?], by simp [RunStage.retain?],
        fun _ => mem_cons_self⟩
    · cases h
  · -- a filtering run
    split at h
    · next cutoff safe hstage =>
      cases h
      rw [hstage] at hi
      have hin : i ∈ s.filterRuns := hi.reserved rfl
      refine hs.setRun ⟨hi.times, by simp [RunStage.loaded?], ?_, fun _ => hin⟩
      rintro n hn
      cases hn
      refine ⟨le_refl _, fun p hp => ?_⟩
      rw [hs.excluded (ne_nil_of_mem hin)] at hp
      cases hp
    · cases h
  · -- the latest sequence
    split at h
    · next cutoff safe hstage =>
      cases h
      rw [hstage] at hi
      exact hs.setRun ⟨hi.times, by simp [RunStage.loaded?], by simp [RunStage.retain?],
        by simp [RunStage.reserves]⟩
    · cases h
  · -- the watermark
    split at h
    · next cutoff seq hstage =>
      cases h
      rw [hstage] at hi
      refine hs.setRun ⟨hi.times, by simp [RunStage.loaded?], ?_, by simp [RunStage.reserves]⟩
      rintro n hn
      cases hn
      exact ⟨oldest_le_of_le (fun p hp => (hs.pins p hp).2) (hi.loaded seq rfl),
        fun p hp => oldest_le hp seq⟩
    · cases h
  · cases h

theorem endRun {i : Nat} (hjob : ∀ m, s.job = some (.merge m) → m.run ≠ i) :
    Inv c { s.setRun i .idle with filterRuns := s.filterRuns.filter (· ≠ i) } := by
  have hidle : Inv c (s.setRun i .idle) := hs.setRun ⟨by simp [RunStage.time?],
    by simp [RunStage.loaded?], by simp [RunStage.retain?], by simp [RunStage.reserves]⟩
  refine hidle.setFilterRuns (fun hne => ?_) (fun j hj => ?_) fun m hm hfil => ?_
  · refine hs.excluded fun hnil => hne ?_
    simp [hnil]
  · by_cases hji : j = i
    · subst hji
      simp [State.setRun, RunStage.reserves] at hj
    · have hj' : (s.runs j).reserves = true := by
        simpa [State.setRun, update_of_ne hji] using hj
      exact mem_filter.2 ⟨(hs.runs j).reserved hj', by simpa using hji⟩
  · exact mem_filter.2 ⟨(hs.merge m hm).reserved hfil, by simpa using hjob m hm⟩

theorem runEnd {i : Nat} (h : s.runEnd i = some s') : Inv c s' := by
  unfold State.runEnd at h
  split at h
  · next m _ hjob =>
    split_ifs at h with hown
    cases h
    refine hs.endRun fun m' hm' => ?_
    rw [hjob] at hm'
    cases hm'
    exact hown
  · next hjob =>
    cases h
    exact hs.endRun fun m hm => absurd hm (hjob m)
  · cases h

theorem startMerge {i : Nat} {pass : Pass} (h : s.merge c i pass = some s') :
    Inv c s' := by
  unfold State.merge at h
  split at h
  · next r hstage hjob =>
    obtain ⟨plan, hplan, h⟩ := bind_eq_some_iff.1 h
    obtain ⟨⟨metas, alloc⟩, hrun, h⟩ := bind_eq_some_iff.1 h
    cases h
    have hi := hs.runs i
    rw [hstage] at hi
    obtain ⟨hpos, hle⟩ := hi.times r.expireBefore rfl
    obtain ⟨hretain, hpins⟩ := hi.retain r.retain rfl
    obtain ⟨f, hf⟩ := hs.holds
    have hran := toOption_eq_some hrun
    obtain ⟨_, _, _, _, _, hfresh⟩ := runCompaction_eq_ok hran
    refine { hs with
      holds := ⟨f, hf.allocate hfresh.alloc (hfresh.room hf.room)⟩
      runs := fun j => (hs.runs j).mono (le_refl _) (le_refl _) (same_pins s) id
      merge := fun m hm => ?_
      ingest := fun t ht => ?_ }
    · cases hm
      refine ⟨.start hf (Pass.plan_separated hf.uniqueNums hplan) hran, hretain, hpins, ?_,
        fun hfil => hi.reserved (Pass.filter_config hfil), fun hfil => ?_⟩
      · exact le_trans (le_of_eq (Pass.expiry_config hpos pass r.now)) hle
      · exact CompactionPlan.discarded_no_filter (by simpa using hfil)
    · have ha := (hs.ingest t ht).awaits
      refine ⟨ha.frame (fun _ he => he) hfresh.alloc ha.fresh (fun p hp => ⟨p, hp, rfl⟩)
        fun _ hrt => hrt, (hs.ingest t ht).pins, fun m hm u hu => ?_⟩
      cases hm
      have := ha.allocated
      have := (hfresh.nums u hu).1
      omega
  · cases h

theorem mergeCommit (h : s.mergeCommit = some s') : Inv c s' := by
  unfold State.mergeCommit at h
  split at h
  · next m hjob =>
    cases h
    have hm := hs.merge m hjob
    obtain ⟨f, hf⟩ := hs.holds
    refine { hs with
      holds := ⟨_, hf.commit hm.merging⟩
      horizon := max_le hs.horizon hm.cutoff
      retained := max_le hs.retained hm.retain
      pins := fun p hp => ⟨max_le (hs.pins p hp).1 (hm.pins p hp), (hs.pins p hp).2⟩
      views := fun p hp => ?_
      runs := fun i => (hs.runs i).mono (le_refl _) (le_refl _) (same_pins s) id
      merge := fun m' hm' => by cases hm'
      ingest := fun t ht => ⟨?_, (hs.ingest t ht).pins, fun m' hm' => by cases hm'⟩ }
    · cases hfil : m.filtering with
      | true =>
        rw [hs.excluded (ne_nil_of_mem (hm.reserved hfil))] at hp
        cases hp
      | false =>
        rw [hm.kept hfil, History.discard_nil]
        exact hs.views p hp
    · have ha := (hs.ingest t ht).awaits
      refine ha.frame (fun _ he => he) (le_refl _) (fun u hu => ?_) (fun p hp => ?_) fun _ hrt =>
        hrt
      · rcases mem_append.1 hu with hu | hu
        · exact ha.fresh u (mem_keptTables.1 hu).1
        · exact (hs.ingest t ht).nums m hjob u hu
      · obtain ⟨q, hq, hplace, _⟩ := History.mem_points_discard hp
        exact ⟨q, hq, congrArg Prod.snd hplace⟩
  · cases h

theorem setIter {id : Nat} {stage : IterStage} (h : ∀ t, stage = .clocked t → 0 < t) :
    Inv c (s.setIter id stage) :=
  { hs with
    runs := fun i => (hs.runs i).mono (le_refl _) (le_refl _) (same_pins s) fun hin => hin
    clocked := fun j t hj => by
      by_cases hji : j = id
      · subst hji
        exact h t ((update_self _ _ _).symm.trans hj)
      · exact hs.clocked j t ((update_of_ne hji _ _).symm.trans hj)
    merge := fun m hm => (hs.merge m hm).mono rfl (le_refl _) (le_refl _) (le_refl _) (same_pins s)
      fun hin => hin
    ingest := fun t ht => ⟨(hs.ingest t ht).awaits, (hs.ingest t ht).pins, (hs.ingest t ht).nums⟩ }

theorem setTimes {times : List (Nat × Time)} (h : ∀ p ∈ times, 0 < p.2) :
    Inv c { s with iteratorTimes := times } :=
  { hs with
    runs := fun i => (hs.runs i).mono (le_refl _) (le_refl _) (same_pins s) id
    times := h
    merge := fun m hm => (hs.merge m hm).mono rfl (le_refl _) (le_refl _) (le_refl _)
      (same_pins s) id
    ingest := fun t ht => ⟨(hs.ingest t ht).awaits, (hs.ingest t ht).pins, (hs.ingest t ht).nums⟩ }

theorem iterPin {id : Nat} (h : s.iterPin id = some s') : Inv c s' := by
  unfold State.iterPin at h
  split at h
  · obtain ⟨s₁, hpin, h⟩ := bind_eq_some_iff.1 h
    cases h
    exact (hs.pin hpin (Or.inl rfl)).setIter (by simp)
  · cases h

theorem iterPinAt {id snapshot : Nat} (h : s.iterPinAt id snapshot = some s') :
    Inv c s' := by
  obtain ⟨p, hp, h⟩ := bind_eq_some_iff.1 h
  split at h
  · obtain ⟨s₁, hpin, h⟩ := bind_eq_some_iff.1 h
    cases h
    exact (hs.pin hpin (Or.inr ⟨p, List.mem_of_find?_eq_some hp, rfl⟩)).setIter (by simp)
  · cases h

theorem iterStep (id : Nat) (a : Action) (h : s.iterStep id a = some s') :
    Inv c s' := by
  unfold State.iterStep at h
  split at h
  · split at h
    · cases h
      refine hs.setIter fun t ht => ?_
      cases ht
      exact hs.clock
    · cases h
  · split at h
    · next readTime hstage =>
      cases h
      have hheld : Inv c (s.setIter id (.held readTime)) := hs.setIter (by simp)
      refine hheld.setTimes fun p hp => ?_
      rcases mem_cons.1 hp with rfl | hp
      · exact hs.clocked id readTime hstage
      · exact hs.times p hp
    · cases h
  · split at h
    · cases h
      exact hs.setIter (by simp)
    · cases h
  · split at h
    · cases h
      have hclosed : Inv c ((s.unpin (.iterator id)).setIter id .idle) :=
        (hs.unpin _).setIter (by simp)
      exact hclosed.setTimes fun p hp => hs.times p (mem_filter.1 hp).1
    · cases h
  · cases h

theorem step {a : Action} (h : step c s a = some s') : Inv c s' := by
  cases a with
  | tick now =>
    unfold Isolation.step at h
    dsimp only at h
    split_ifs at h with hle
    cases h
    exact hs.tick hle
  | allocate =>
    obtain ⟨num, hnum, rfl⟩ := map_eq_some_iff.1 h
    obtain ⟨f, hf⟩ := hs.holds
    unfold allocNext at hnum
    split_ifs at hnum with hmax
    cases hnum
    have := hf.room
    exact hs.allocate (Nat.le_succ _) (by omega)
  | write ops => exact hs.write h
  | publish seq =>
    unfold Isolation.step at h
    dsimp only at h
    split_ifs at h with hle
    cases h
    exact hs.publish hle.1 hle.2
  | ingestBegin bloomBits ops => exact hs.ingestBegin h
  | ingestInstall => exact hs.ingestInstall h
  | ingestFail =>
    unfold Isolation.step at h
    dsimp only at h
    split_ifs at h
    cases h
    exact hs.ingestFail
  | flushBegin => exact hs.flushBegin h
  | flushCommit => exact hs.flushCommit h
  | flushFail | mergeFail =>
    unfold Isolation.step at h
    dsimp only at h
    split at h
    · cases h
      exact hs.unlock
    · cases h
  | checkpointed seq =>
    unfold Isolation.step at h
    dsimp only at h
    split_ifs at h
    cases h
    exact hs.checkpointed seq
  | acquire id => exact hs.pin h (Or.inl rfl)
  | release id =>
    cases h
    exact hs.unpin _
  | runClock i => exact hs.runStep i (.runClock i) h
  | runCutoff i => exact hs.runStep i (.runCutoff i) h
  | runLoadSafe i => exact hs.runStep i (.runLoadSafe i) h
  | runReserve i => exact hs.runStep i (.runReserve i) h
  | runFilter i => exact hs.runStep i (.runFilter i) h
  | runLoadSeq i => exact hs.runStep i (.runLoadSeq i) h
  | runRetain i => exact hs.runStep i (.runRetain i) h
  | runEnd i => exact hs.runEnd h
  | merge i pass => exact hs.startMerge h
  | mergeCommit => exact hs.mergeCommit h
  | iterPin id => exact hs.iterPin h
  | iterPinAt id snapshot => exact hs.iterPinAt h
  | iterClock id => exact hs.iterStep id (.iterClock id) h
  | iterTime id => exact hs.iterStep id (.iterTime id) h
  | iterCapture id => exact hs.iterStep id (.iterCapture id) h
  | iterClose id => exact hs.iterStep id (.iterClose id) h

end

end Inv

end Isolation

end LevisDB
