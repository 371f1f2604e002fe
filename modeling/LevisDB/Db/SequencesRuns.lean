import LevisDB.Db.Sequences

/-!
# No sequence is reused

Every stored sequence lies at or below the counter of the running session,
except that the sequence of an ingestion which has not published is kept apart:
it may go back.
-/

namespace LevisDB

open List Option Transition

namespace Sequencing

variable {b : Batch} {lenient : Bool} {lastSeq m n : Nat} {st : Replayed} {e : WalEntry}

open GroupCommit Catalog

/-- The highest sequence that will not go back. -/
def bound (c : GroupCommit.State) : Nat :=
  match Session.reserved c with
  | some seq => seq - 1
  | none => c.walSeq

section

variable {c : GroupCommit.State} (h : GroupCommit.Inv c)
include h

theorem bound_le : bound c ≤ c.walSeq := by
  unfold bound Session.reserved
  have hex := h.exclusive
  cases hi : c.ingest with
  | none => exact Nat.le_refl _
  | some i =>
    rw [hi] at hex
    cases i with
    | reserved seq =>
      obtain ⟨_, _, rfl, _⟩ := hex
      exact Nat.sub_le _ _
    | published seq => exact Nat.le_refl _

theorem enqueued_le_bound (hb : b ∈ c.trace.enqueued) (he : e ∈ b) : e.seq ≤ bound c := by
  unfold bound Session.reserved
  have hex := h.exclusive
  cases hi : c.ingest with
  | none => exact (h.sequences.range b hb e he).2
  | some i =>
    rw [hi] at hex
    cases i with
    | reserved seq =>
      obtain ⟨_, hall, _, hlt⟩ := hex
      have hle := h.sequences.visible b (hall ▸ hb) e he
      change e.seq ≤ seq - 1
      omega
    | published seq => exact (h.sequences.range b hb e he).2

theorem applied_le_bound (he : e ∈ c.trace.applied) : e.seq ≤ bound c := by
  obtain ⟨b, hb, heb⟩ := mem_flatten.1 (h.applied_between.2.subset he)
  exact enqueued_le_bound h hb heb

theorem journaled_le_bound (hb : b ∈ c.trace.journaled) (he : e ∈ b) : e.seq ≤ bound c :=
  enqueued_le_bound h (h.order.nested.written.subset hb) he

end

inductive Account (c c' : GroupCommit.State) : Prop
  | same (hingest : c'.ingest = c.ingest) (hwal : c'.walSeq = c.walSeq)
  | reserve (hnone : c.ingest = none) (hnone' : c'.ingest = none) (hle : c.walSeq ≤ c'.walSeq)
  | ingestReserve (hnone : c.ingest = none) (hres : c'.ingest = some (.reserved (c.walSeq + 1)))
      (hwal : c'.walSeq = c.walSeq + 1)
  | ingestPublish (hres : c.ingest = some (.reserved c.walSeq))
      (hpub : c'.ingest = some (.published c.walSeq)) (hwal : c'.walSeq = c.walSeq)
  | ingestEnd (i : Ingest) (hsome : c.ingest = some i) (hnone : c'.ingest = none)
      (hwal : c'.walSeq = bound c)

/-- The steps that hand out a sequence, show it or give it back. -/
def Counts : GroupCommit.Action → Bool
  | .enqueue _ => true
  | .ingestReserve => true
  | .ingestPublish => true
  | .ingestEnd _ => true
  | _ => false

theorem same_of_step {c c' : GroupCommit.State} {a : GroupCommit.Action}
    (hcounts : Counts a = false)
    (hstep : c.step a = some c') : c'.ingest = c.ingest ∧ c'.walSeq = c.walSeq := by
  cases a with
  | enqueue entries => cases hcounts
  | ingestReserve => cases hcounts
  | ingestPublish => cases hcounts
  | ingestEnd committed => cases hcounts
  | drain =>
    simp only [State.step, State.stepCommit] at hstep
    split at hstep
    · cases hstep
      unfold State.drain
      split <;> exact ⟨rfl, rfl⟩
    · cases hstep
  | flushMem =>
    obtain ⟨imm, _, rfl⟩ := map_eq_some_iff.1 hstep
    exact ⟨rfl, rfl⟩
  | fault err reached torn =>
    obtain ⟨group, _, rfl⟩ := map_eq_some_iff.1 hstep
    exact ⟨rfl, rfl⟩
  | damage keep torn =>
    cases hstep
    exact ⟨rfl, rfl⟩
  | _ =>
    simp only [State.step, State.stepCommit] at hstep
    split at hstep <;> first
      | (cases hstep
         exact ⟨rfl, rfl⟩)
      | cases hstep

theorem Account.enqueue {c c' : GroupCommit.State} {entries : List WalEntry}
    (hstep : c.step (.enqueue entries) = some c') :
    c.ingest = none ∧ c'.ingest = none ∧
      ((∃ err, reserveSeq c.walSeq entries.length = .error err ∧ c'.walSeq = c.walSeq) ∨
        ∃ base, reserveSeq c.walSeq entries.length = .ok base ∧
          c'.walSeq = c.walSeq + entries.length) := by
  simp only [State.step] at hstep
  split_ifs at hstep with hguard
  cases hstep
  have hnone : c.ingest = none := isNone_iff_eq_none.1 hguard.1
  unfold State.appendWAL
  split
  · rename_i err hreserve
    exact ⟨hnone, hnone, Or.inl ⟨err, hreserve, rfl⟩⟩
  · rename_i base _ hreserve _
    exact ⟨hnone, hnone, Or.inr ⟨base, hreserve, rfl⟩⟩
  · rename_i base hreserve _
    exact ⟨hnone, hnone, Or.inr ⟨base, hreserve, rfl⟩⟩

theorem Account.step {c : GroupCommit.State} (h : GroupCommit.Inv c) {a : GroupCommit.Action}
    {c' : GroupCommit.State} (hstep : c.step a = some c') : Account c c' := by
  cases hcounts : Counts a with
  | false =>
    obtain ⟨hingest, hwal⟩ := same_of_step hcounts hstep
    exact .same hingest hwal
  | true =>
    have hex := h.exclusive
    cases a with
    | enqueue entries =>
      obtain ⟨hnone, hnone', ⟨err, _, hwal⟩ | ⟨base, _, hwal⟩⟩ := Account.enqueue hstep
      · exact .same (by rw [hnone, hnone']) hwal
      · exact .reserve hnone hnone' (by omega)
    | ingestReserve =>
      simp only [State.step] at hstep
      split at hstep
      · rename_i hnone _ hreserve
        cases hstep
        obtain ⟨rfl, _⟩ := reserveSeq_eq_ok hreserve
        exact .ingestReserve hnone rfl rfl
      · cases hstep
    | ingestPublish =>
      simp only [State.step] at hstep
      split at hstep
      · rename_i seq hres
        cases hstep
        rw [hres] at hex
        obtain ⟨_, _, rfl, _⟩ := hex
        exact .ingestPublish hres rfl rfl
      · cases hstep
    | ingestEnd committed =>
      simp only [State.step] at hstep
      split at hstep
      · rename_i seq hres
        cases hstep
        rw [hres] at hex
        refine .ingestEnd _ hres rfl ?_
        simp [State.ingestEnd, hex.2.2.2, bound, Session.reserved, hres]
      · rename_i seq hpub
        cases hstep
        rw [hpub] at hex
        refine .ingestEnd _ hpub rfl ?_
        simp [State.ingestEnd, hex.2.2.2, bound, Session.reserved, hpub]
      · cases hstep
    | _ => cases hcounts

theorem Account.bound_le {c c' : GroupCommit.State} (h : Account c c') : bound c ≤ bound c' := by
  cases h with
  | same hingest hwal =>
    simp [bound, Session.reserved, hingest, hwal]
  | reserve hnone hnone' hle => simpa [bound, Session.reserved, hnone, hnone'] using hle
  | ingestReserve hnone hres hwal => simp [bound, Session.reserved, hnone, hres]
  | ingestPublish hres hpub hwal => simp [bound, Session.reserved, hres, hpub, hwal]
  | ingestEnd i hsome hnone hwal => simp [bound, Session.reserved, hnone, hwal]

/-- The steps of the log files that hand out a sequence, show it or give it back. -/
def onCounter : Replication.Action → Option GroupCommit.Action
  | .commit a => some a
  | .ingestEnd committed => some (.ingestEnd committed)
  | _ => none

theorem core_of_step {r r' : Replication.State} {a : Replication.Action} {b : GroupCommit.Action}
    (hon : onCounter a = some b) (hstep : r.step a = some r') : r.core.step b = some r'.core := by
  cases a with
  | commit a =>
    cases hon
    simp only [Replication.State.step] at hstep
    split_ifs at hstep
    obtain ⟨core, hcore, rfl⟩ := map_eq_some_iff.1 hstep
    exact hcore
  | ingestEnd committed =>
    cases hon
    obtain ⟨core, hcore, rfl⟩ := map_eq_some_iff.1 hstep
    split
    · exact hcore
    · exact hcore
  | _ => cases hon

theorem same_of_stepRepl {r r' : Replication.State} {a : Replication.Action}
    (hon : onCounter a = none) (hdriven : Session.Driven a = false) (hstep : r.step a = some r') :
    r'.core.ingest = r.core.ingest ∧ r'.core.walSeq = r.core.walSeq := by
  cases a with
  | commit a => cases hon
  | ingestEnd committed => cases hon
  | record => cases hdriven
  | restart sync retain startSeq num => cases hdriven
  | rotate =>
    simp only [Replication.State.step] at hstep
    split at hstep
    · obtain ⟨core, hcore, rfl⟩ := map_eq_some_iff.1 hstep
      exact same_of_step rfl hcore
    · cases hstep
  | rotateFail err removed =>
    simp only [Replication.State.step] at hstep
    split at hstep
    · cases hstep
      cases hcore : r.core.step (.rotateFail err) with
      | none => simp [Replication.State.rotateFail, hcore]
      | some core => simpa [Replication.State.rotateFail, hcore] using same_of_step rfl hcore
    · cases hstep
  | removeRetired outcome =>
    simp only [Replication.State.step] at hstep
    split at hstep
    · cases hstep
      cases outcome <;> exact ⟨rfl, rfl⟩
    · cases hstep
  | updatesBegin since =>
    simp only [Replication.State.step] at hstep
    split_ifs at hstep
    cases hstep
    unfold Replication.State.updatesBegin
    split_ifs <;> exact ⟨rfl, rfl⟩
  | updatesRead opens =>
    obtain ⟨c, hc, rfl⟩ := map_eq_some_iff.1 hstep
    unfold Replication.State.updatesRead
    split
    · exact ⟨rfl, rfl⟩
    · split
      · exact ⟨rfl, rfl⟩
      · split <;> exact ⟨rfl, rfl⟩
  | damage num keep torn =>
    cases hstep
    exact ⟨rfl, rfl⟩
  | createLog num | abort =>
    simp only [Replication.State.step] at hstep
    split_ifs at hstep
    cases hstep
    exact ⟨rfl, rfl⟩
  | _ =>
    simp only [Replication.State.step] at hstep
    split at hstep <;> first
      | (cases hstep
         exact ⟨rfl, rfl⟩)
      | cases hstep

def Below (n : Nat) (tables : List TableMeta) : Prop := ∀ t ∈ tables, ∀ q ∈ t.seqs, q ≤ n

theorem Below.mono {tables : List TableMeta} (h : Below n tables) (hle : n ≤ m) :
    Below m tables := fun t ht q hq => Nat.le_trans (h t ht q hq) hle

theorem Below.replaceTables {live added : List TableMeta} (hlive : Below n live)
    (hadded : Below n added) (removed : List Nat) : Below n (replaceTables live removed added) := by
  intro t ht
  rcases mem_append.1 ht with ht | ht
  · exact hlive t (mem_filter.1 ht).1
  · exact hadded t ht

structure RecordedOk (r : Recorded) : Prop where
  tables : Below r.lastSeq r.tables
  limit : r.lastSeq ≤ maxIKeySeq

/-- A record that replaces tables carries a watermark that covers those it adds. -/
def EditOk (n : Nat) : Option Edit → Prop
  | some (.tables _ added lastSeq) =>
    Below lastSeq added ∧ Below n added ∧ lastSeq ≤ maxIKeySeq
  | _ => True

theorem EditOk.mono {e : Option Edit} (h : EditOk n e) (hle : n ≤ m) : EditOk m e := by
  unfold EditOk at h ⊢
  split at h
  · exact ⟨h.1, h.2.1.mono hle, h.2.2⟩
  · trivial

/-- What an engine operation reads and writes lies below the counter, and below its
watermark once that is loaded. -/
def EngineOk (n : Nat) : Option Job → Prop
  | some job => Below n job.inputs ∧ Below n job.outputs ∧
      ∀ l, job.lastSeq = some l → Below l job.outputs ∧ l ≤ maxIKeySeq
  | none => True

theorem EngineOk.mono {job : Option Job} (h : EngineOk n job) (hle : n ≤ m) :
    EngineOk m job := by
  cases job with
  | none => trivial
  | some job => exact ⟨h.1.mono hle, h.2.1.mono hle, h.2.2⟩

/-- The table of an ingestion is at its sequence, and is committed once that is
published. -/
def IngestOk (c : GroupCommit.State) : Option Job → Prop
  | some job =>
    match c.ingest with
    | some (.reserved seq) => (∀ t ∈ job.outputs, ∀ q ∈ t.seqs, q = seq) ∧ job.lastSeq = none
    | some (.published _) => Below c.walSeq job.outputs ∧
        ∀ l, job.lastSeq = some l → Below l job.outputs ∧ l ≤ maxIKeySeq
    | none => False
  | none => True

/-- The sequences handed out ascend up to the counter. -/
structure HandedOk (c : GroupCommit.State) (handed : List Nat) : Prop where
  ascending : handed.Pairwise (· < ·)
  le : ∀ n ∈ handed, n ≤ c.walSeq
  last : ∀ seq, Session.reserved c = some seq → ∃ earlier, handed = earlier ++ [seq]

structure SessionOk (s : Session) : Prop where
  repl : Replication.Inv s.repl
  live : Below (bound s.core) s.live
  recorded : RecordedOk s.man.synced
  synced : Below (bound s.core) s.man.synced.tables
  unsynced : EditOk (bound s.core) s.man.unsynced
  engine : EngineOk (bound s.core) (s.jobs .engine)
  ingest : IngestOk s.core (s.jobs .ingest)
  handed : HandedOk s.core s.handed

/-- The log files hold no sequence past the limit. -/
def Bounded (logs : List Segment) : Prop :=
  ∀ seg ∈ logs, ∀ b ∈ seg.records, ∀ e ∈ b, e.seq ≤ maxIKeySeq

structure OpeningOk (o : Opening) : Prop where
  recorded : RecordedOk o.recorded
  logs : Bounded o.logs
  tables : Below o.replayed.seq o.tables
  entries : ∀ e ∈ o.replayed.entries, e.seq ≤ o.replayed.seq
  limit : o.replayed.seq ≤ maxIKeySeq
  switched : o.switched = true → o.wal ≠ none ∧ o.recorded.tables = o.tables

def World.Ok : World → Prop
  | .down r logs => RecordedOk r ∧ Bounded logs
  | .opening o => OpeningOk o
  | .up s => SessionOk s

namespace HandedOk

variable {c c' : GroupCommit.State} {handed : List Nat}

section

variable (h : HandedOk c handed)
include h

theorem keep (hle : c.walSeq ≤ c'.walSeq)
    (hres : ∀ seq, Session.reserved c' = some seq → Session.reserved c = some seq) :
    HandedOk c' handed :=
  ⟨h.ascending, fun n hn => Nat.le_trans (h.le n hn) hle, fun seq hseq =>
    h.last seq (hres seq hseq)⟩

theorem take {n : Nat} (hwal : c'.walSeq = c.walSeq + n)
    (hres : Session.reserved c' = none) :
    HandedOk c' (handed ++ range' (c.walSeq + 1) n) where
  ascending := by
    refine pairwise_append.2 ⟨h.ascending, pairwise_lt_range', fun a ha b hb => ?_⟩
    have hle := h.le a ha
    have hmem := mem_range'_1.1 hb
    omega
  le := by
    intro m hm
    rcases mem_append.1 hm with hm | hm
    · have hle := h.le m hm
      omega
    · have hmem := mem_range'_1.1 hm
      omega
  last seq hseq := by rw [hres] at hseq; cases hseq

theorem reserve
    (hres : c'.ingest = some (.reserved (c.walSeq + 1))) (hwal : c'.walSeq = c.walSeq + 1) :
    HandedOk c' (handed ++ [c.walSeq + 1]) where
  ascending := by
    refine pairwise_append.2 ⟨h.ascending, pairwise_singleton _ _, fun a ha b hb => ?_⟩
    obtain rfl := mem_singleton.1 hb
    exact Nat.lt_succ_of_le (h.le a ha)
  le := by
    intro m hm
    rcases mem_append.1 hm with hm | hm
    · have hle := h.le m hm
      omega
    · obtain rfl := mem_singleton.1 hm
      omega
  last seq hseq := by
    have heq : Session.reserved c' = some (c.walSeq + 1) := by simp [Session.reserved, hres]
    rw [heq] at hseq
    cases hseq
    exact ⟨handed, rfl⟩

theorem giveBack {seq : Nat} (hres : Session.reserved c = some seq)
    (hwal : c'.walSeq = seq - 1) (hnone : c'.ingest = none) : HandedOk c' handed.dropLast := by
  obtain ⟨earlier, rfl⟩ := h.last seq hres
  obtain ⟨hasc, _, hlt⟩ := pairwise_append.1 h.ascending
  rw [dropLast_concat]
  refine ⟨hasc, fun n hn => ?_, fun m hm => ?_⟩
  · have hn := hlt n hn seq (mem_singleton_self seq)
    omega
  · rw [Session.reserved, hnone] at hm
    cases hm

end

end HandedOk

theorem IngestOk.account {c c' : GroupCommit.State} {job : Option Job} (h : IngestOk c job)
    (hacc : Account c c') (hend : c'.ingest = none → c.ingest = none) : IngestOk c' job := by
  cases job with
  | none => trivial
  | some job =>
    unfold IngestOk at h ⊢
    cases hacc with
    | same hingest hwal => simpa only [hingest, hwal] using h
    | reserve hnone _ _ =>
      rw [hnone] at h
      exact h.elim
    | ingestReserve hnone _ _ =>
      rw [hnone] at h
      exact h.elim
    | ingestPublish hres hpub hwal =>
      rw [hres] at h
      rw [hpub, hwal]
      refine ⟨fun t ht q hq => Nat.le_of_eq (h.1 t ht q hq), fun l hl => ?_⟩
      rw [h.2] at hl
      cases hl
    | ingestEnd i hsome hnone _ =>
      have hnone := hend hnone
      rw [hsome] at hnone
      cases hnone

namespace SessionOk

variable {s : Session}
variable {who : Committer} {r' : Replication.State} {s' : Session} {t : TableMeta}

section

variable (h : SessionOk s)
include h

theorem account (hrepl : Replication.Inv r')
    (hacc : Account s.core r'.core) {jobs : Committer → Option Job} {handed : List Nat}
    (hengine : jobs .engine = s.jobs .engine) (hingest : IngestOk r'.core (jobs .ingest))
    (hhanded : HandedOk r'.core handed) :
    SessionOk { s with repl := r', jobs := jobs, handed := handed } where
  repl := hrepl
  live := h.live.mono hacc.bound_le
  recorded := h.recorded
  synced := h.synced.mono hacc.bound_le
  unsynced := h.unsynced.mono hacc.bound_le
  engine := by
    change EngineOk _ (jobs .engine)
    rw [hengine]
    exact h.engine.mono hacc.bound_le
  ingest := hingest
  handed := hhanded

theorem same (hrepl : Replication.Inv r')
    (hingest : r'.core.ingest = s.core.ingest) (hwal : r'.core.walSeq = s.core.walSeq) :
    SessionOk { s with repl := r' } := by
  have hacc : Account s.core r'.core := .same hingest hwal
  refine h.account hrepl hacc rfl (h.ingest.account hacc fun hnone => hingest ▸ hnone) ?_
  refine h.handed.keep (Nat.le_of_eq hwal.symm) fun seq hseq => ?_
  rw [Session.reserved, hingest] at hseq
  exact hseq

theorem commit {b : GroupCommit.Action}
    (hrepl : Replication.Inv r') (hends : ∀ committed, b ≠ .ingestEnd committed)
    (hstep : s.core.step b = some r'.core) :
    SessionOk { s with repl := r', handed := s.handOut (.commit b) } := by
  have hacc : Account s.core r'.core := .step h.repl.core hstep
  cases hcounts : Counts b with
  | false =>
    obtain ⟨hingest, hwal⟩ := same_of_step hcounts hstep
    have hhanded : s.handOut (.commit b) = s.handed := by
      cases b <;> first
        | rfl
        | cases hcounts
    rw [hhanded]
    exact h.same hrepl hingest hwal
  | true =>
    cases b with
    | enqueue entries =>
      obtain ⟨hnone, hnone', hreserve⟩ := Account.enqueue hstep
      refine h.account hrepl hacc rfl (h.ingest.account hacc fun _ => hnone) ?_
      rcases hreserve with ⟨err, herr, hwal⟩ | ⟨base, hbase, hwal⟩
      · simp only [Session.handOut, herr]
        refine h.handed.keep (Nat.le_of_eq hwal.symm) fun seq hseq => ?_
        rw [Session.reserved, hnone'] at hseq
        cases hseq
      · simp only [Session.handOut, hbase]
        rw [(reserveSeq_eq_ok hbase).1]
        exact h.handed.take hwal (by simp [Session.reserved, hnone'])
    | ingestReserve =>
      simp only [State.step] at hstep
      split at hstep
      · rename_i hnone _ hreserve
        have hcore := Option.some.inj hstep
        obtain ⟨rfl, _⟩ := reserveSeq_eq_ok hreserve
        refine h.account hrepl hacc rfl (h.ingest.account hacc fun _ => hnone) ?_
        exact h.handed.reserve (by rw [← hcore]) (by rw [← hcore])
      · cases hstep
    | ingestPublish =>
      simp only [State.step] at hstep
      split at hstep
      · rename_i seq hres
        have hcore := Option.some.inj hstep
        have hpub : r'.core.ingest = some (.published seq) := by rw [← hcore]
        have hwal : r'.core.walSeq = s.core.walSeq := by rw [← hcore]
        refine h.account hrepl hacc rfl (h.ingest.account hacc fun hnone => ?_) ?_
        · rw [hpub] at hnone
          cases hnone
        · refine h.handed.keep (Nat.le_of_eq hwal.symm) fun seq hseq => ?_
          rw [Session.reserved, hpub] at hseq
          cases hseq
      · cases hstep
    | ingestEnd committed => exact absurd rfl (hends committed)
    | _ => cases hcounts

theorem ingestEnd {committed : Bool}
    (hrepl : Replication.Inv r') (hstep : s.core.step (.ingestEnd committed) = some r'.core) :
    SessionOk { s with
      repl := r'
      jobs := s.jobsAfter (.ingestEnd committed)
      handed := s.handOut (.ingestEnd committed) } := by
  have hacc : Account s.core r'.core := .step h.repl.core hstep
  have hex := h.repl.core.exclusive
  refine h.account hrepl hacc rfl trivial ?_
  simp only [State.step] at hstep
  split at hstep
  · rename_i seq hres
    have hcore := Option.some.inj hstep
    rw [show s.repl.core.ingest = _ from hres] at hex
    have hwal : r'.core.walSeq = seq - 1 := by
      rw [← hcore]
      exact if_pos hex.2.2.2
    have hreserved : Session.reserved s.core = some seq := by simp [Session.reserved, hres]
    simp only [Session.handOut, hreserved, isSome_some, if_true]
    exact h.handed.giveBack hreserved hwal (by rw [← hcore]; rfl)
  · rename_i seq hpub
    have hcore := Option.some.inj hstep
    rw [show s.repl.core.ingest = _ from hpub] at hex
    have hwal : r'.core.walSeq = s.core.walSeq := by
      rw [← hcore]
      exact if_neg (Nat.not_lt.2 (Nat.le_of_eq hex.2.2.2.symm))
    have hreserved : Session.reserved s.core = none := by simp [Session.reserved, hpub]
    simp only [Session.handOut, hreserved, isSome_none, Bool.false_eq_true, if_false]
    refine h.handed.keep (Nat.le_of_eq hwal.symm) fun m hm => ?_
    rw [← hcore] at hm
    cases hm
  · cases hstep

theorem stepRepl {a : Replication.Action}
    (hstep : s.stepRepl a = some s') : SessionOk s' := by
  unfold Session.stepRepl at hstep
  split_ifs at hstep with hguard
  push Not at hguard
  obtain ⟨r', hr, rfl⟩ := map_eq_some_iff.1 hstep
  have hrepl := h.repl.step hr
  have hdriven : Session.Driven a = false := by simpa using hguard.1
  cases hon : onCounter a with
  | none =>
    obtain ⟨hingest, hwal⟩ := same_of_stepRepl hon hdriven hr
    have hjobs : s.jobsAfter a = s.jobs := by
      cases a <;> first
        | rfl
        | cases hon
    have hhanded : s.handOut a = s.handed := by
      cases a <;> first
        | rfl
        | cases hon
    rw [hjobs, hhanded]
    exact h.same hrepl hingest hwal
  | some b =>
    have hcore := core_of_step hon hr
    cases a with
    | commit a =>
      cases hon
      refine h.commit hrepl (fun committed hend => ?_) hcore
      subst hend
      cases hr
    | ingestEnd committed =>
      cases hon
      exact h.ingestEnd hrepl hcore
    | _ => cases hon

theorem setEngine {job : Option Job} (hjob : EngineOk (bound s.core) job) :
    SessionOk (s.setJob .engine job) :=
  { h with
    engine := by simpa [Session.setJob, Session.core] using hjob
    ingest := by simpa [Session.setJob, Session.core] using h.ingest }

theorem setIngest {job : Option Job} (hjob : IngestOk s.core job) :
    SessionOk (s.setJob .ingest job) :=
  { h with
    engine := by simpa [Session.setJob, Session.core] using h.engine
    ingest := by simpa [Session.setJob, Session.core] using hjob }

theorem clearJob (who : Committer) : SessionOk (s.setJob who none) := by
  cases who with
  | engine => exact h.setEngine trivial
  | ingest => exact h.setIngest trivial

theorem buildEngine (hstep : s.build .engine t = some s') : SessionOk s' := by
  unfold Session.build at hstep
  split at hstep
  · rename_i inputs outputs hjob
    split_ifs at hstep with hmay
    cases hstep
    have hok := h.engine
    rw [hjob] at hok
    refine h.setEngine ⟨hok.1, fun t' ht' q hq => ?_, fun l hl => by cases hl⟩
    rcases mem_append.1 ht' with ht' | ht'
    · exact hok.2.1 t' ht' q hq
    · obtain rfl := mem_singleton.1 ht'
      unfold Session.MayWrite at hmay
      split_ifs at hmay with hnil
      · obtain ⟨e, he, rfl⟩ := hmay q hq
        exact applied_le_bound h.repl.core he
      · obtain ⟨i, hi, hqi⟩ := hmay q hq
        exact hok.1 i hi q hqi
  · cases hstep

end

theorem ingestOk_build {inputs outputs : List TableMeta}
    (hout : IngestOk s.core (some ⟨inputs, outputs, none⟩) ∨ outputs = [])
    (hmay : ∃ seq, Session.reserved s.core = some seq ∧ ∀ q ∈ t.seqs, q = seq) :
    IngestOk s.core (some ⟨inputs, outputs ++ [t], none⟩) := by
  obtain ⟨seq, hreserved, ht⟩ := hmay
  have hres : s.core.ingest = some (.reserved seq) := by
    unfold Session.reserved at hreserved
    split at hreserved
    · rename_i seq' heq
      rw [heq, Option.some.inj hreserved]
    · cases hreserved
  unfold IngestOk at hout ⊢
  simp only [hres] at hout ⊢
  refine ⟨fun t' ht' => ?_, trivial⟩
  rcases mem_append.1 ht' with ht' | ht'
  · rcases hout with hout | rfl
    · exact hout.1 t' ht'
    · cases ht'
  · obtain rfl := mem_singleton.1 ht'
    exact ht

section

variable (h : SessionOk s)
include h

theorem build (hstep : s.step (.build who t) = some s') : SessionOk s' := by
  cases who with
  | engine => exact h.buildEngine hstep
  | ingest =>
    cases hjob : s.jobs .ingest with
    | none =>
      simp only [Session.step, hjob, Session.build, Session.setJob, Function.update_self,
        Function.update_idem] at hstep
      split at hstep
      · rename_i hmay
        cases hstep
        exact h.setIngest (ingestOk_build (Or.inr rfl) hmay)
      · cases hstep
    | some job =>
      obtain ⟨inputs, outputs, lastSeq⟩ := job
      have hok := h.ingest
      rw [hjob] at hok
      cases lastSeq with
      | none =>
        simp only [Session.step, hjob, Session.build] at hstep
        split at hstep
        · rename_i hmay
          cases hstep
          exact h.setIngest (ingestOk_build (Or.inl hok) hmay)
        · cases hstep
      | some l =>
        simp only [Session.step, hjob, Session.build] at hstep
        cases hstep

theorem loadSeq (hstep : s.loadSeq who = some s') : SessionOk s' := by
  unfold Session.loadSeq at hstep
  split at hstep
  · rename_i inputs outputs hjob hmay
    cases hstep
    have hlimit := h.repl.core.sequences.limit
    cases who with
    | engine =>
      have hok := h.engine
      rw [hjob] at hok
      refine h.setEngine ⟨hok.1, hok.2.1, fun l hl => ?_⟩
      cases hl
      exact ⟨hok.2.1.mono (bound_le h.repl.core), hlimit⟩
    | ingest =>
      have hok := h.ingest
      rw [hjob] at hok
      refine h.setIngest ?_
      unfold IngestOk at hok ⊢
      cases hi : s.core.ingest with
      | none => simp only [hi] at hok
      | some i =>
        cases i with
        | reserved seq => simp [Session.MayLoad, Session.reserved, hi] at hmay
        | published seq =>
          simp only [hi] at hok ⊢
          refine ⟨hok.1, fun l hl => ?_⟩
          cases hl
          exact ⟨hok.1, hlimit⟩
  · cases hstep

theorem editOk {inputs outputs : List TableMeta} {lastSeq : Nat}
    (hjob : s.jobs who = some ⟨inputs, outputs, some lastSeq⟩) (removed : List Nat) :
    EditOk (bound s.core) (some (.tables removed outputs lastSeq)) := by
  cases who with
  | engine =>
    have hok := h.engine
    rw [hjob] at hok
    obtain ⟨hbelow, hlimit⟩ := hok.2.2 lastSeq rfl
    exact ⟨hbelow, hok.2.1, hlimit⟩
  | ingest =>
    have hok := h.ingest
    rw [hjob] at hok
    unfold IngestOk at hok
    cases hi : s.core.ingest with
    | none => simp only [hi] at hok
    | some i =>
      cases i with
      | reserved seq =>
        simp only [hi] at hok
        cases hok.2
      | published seq =>
        simp only [hi] at hok
        obtain ⟨hbelow, hlimit⟩ := hok.2 lastSeq rfl
        exact ⟨hbelow, by simpa [bound, Session.reserved, hi] using hok.1, hlimit⟩

theorem write {who : Appender} {e : Edit} (he : EditOk (bound s.core) (some e))
    (hstep : s.write who e = some s') : SessionOk s' := by
  unfold Session.write at hstep
  split at hstep
  · cases hstep
    exact { h with unsynced := he }
  · cases hstep

theorem recorded_crash (kept : Bool) :
    RecordedOk (s.man.crash kept) ∧ Below (bound s.core) (s.man.crash kept).tables := by
  have hedit := h.unsynced
  unfold Manifest.crash
  split
  · rename_i e he
    rw [he] at hedit
    cases e with
    | tables removed added lastSeq =>
      obtain ⟨hbelow, hbound, hlimit⟩ := hedit
      refine ⟨⟨?_, max_le h.recorded.limit hlimit⟩, h.synced.replaceTables hbound removed⟩
      exact (h.recorded.tables.mono (le_max_left _ _)).replaceTables
        (hbelow.mono (le_max_right _ _)) removed
    | boundary num => exact ⟨⟨h.recorded.tables, h.recorded.limit⟩, h.synced⟩
  · exact ⟨h.recorded, h.synced⟩

theorem install : SessionOk (s.install s.man.unsynced) := by
  have hedit := h.unsynced
  cases he : s.man.unsynced with
  | none => exact h
  | some e =>
    rw [he] at hedit
    cases e with
    | tables removed added lastSeq =>
      exact { h with live := h.live.replaceTables hedit.2.1 removed }
    | boundary num => exact { h with }

theorem finish (who : Appender) : SessionOk (s.finish who) := by
  cases who with
  | tables who => exact h.clearJob who
  | checkpoint =>
    unfold Session.finish
    cases hr : s.repl.step .record with
    | none => exact h
    | some r' =>
      have hcore : r'.core = s.repl.core := by
        simp only [Replication.State.step] at hr
        split at hr
        · cases hr
          rfl
        · cases hr
      rw [getD_some]
      exact h.same (h.repl.step hr) (by rw [hcore]; rfl) (by rw [hcore]; rfl)

theorem sync (hstep : s.sync = some s') : SessionOk s' := by
  obtain ⟨who, _, rfl⟩ := map_eq_some_iff.1 hstep
  obtain ⟨hrec, hbelow⟩ := h.recorded_crash true
  have hcore : (s.install s.man.unsynced).core = s.core := by
    unfold Session.install
    split <;> rfl
  have hok : SessionOk { s.install s.man.unsynced with
      man := ⟨s.man.crash true, none⟩
      appending := none } :=
    { h.install with
      recorded := hrec
      synced := show Below (bound (s.install s.man.unsynced).core) _ from hcore ▸ hbelow
      unsynced := trivial }
  have hfin := hok.finish who
  cases who with
  | tables who => exact hfin
  | checkpoint => exact hfin

theorem syncFail (hstep : s.syncFail = some s') : SessionOk s' := by
  unfold Session.syncFail at hstep
  split at hstep
  · rename_i who _
    cases hstep
    exact { h.clearJob who with }
  · cases hstep
    exact { h with }
  · cases hstep

theorem step {a : SessionAction} (hstep : s.step a = some s') :
    SessionOk s' := by
  cases a with
  | repl a => exact h.stepRepl hstep
  | start nums =>
    simp only [Session.step] at hstep
    split at hstep
    · cases hstep
      refine h.setEngine ⟨fun t ht => h.live t (mem_filter.1 ht).1, by simp [Below], ?_⟩
      intro l hl
      cases hl
    · cases hstep
  | build who t => exact h.build hstep
  | loadSeq who => exact h.loadSeq hstep
  | abort =>
    simp only [Session.step] at hstep
    split at hstep
    · cases hstep
    · cases hstep
      exact h.clearJob .engine
  | append who =>
    simp only [Session.step] at hstep
    split at hstep
    · rename_i inputs outputs lastSeq hjob
      exact h.write (h.editOk hjob _) hstep
    · cases hstep
  | appendBoundary =>
    simp only [Session.step] at hstep
    split at hstep
    · exact h.write (show EditOk (bound s.core) (some (.boundary s.core.live.num)) from trivial)
        hstep
    · cases hstep
  | sync => exact h.sync hstep
  | syncFail => exact h.syncFail hstep
  | rotateManifest =>
    simp only [Session.step] at hstep
    split at hstep
    · cases hstep
      exact { h with
        recorded := ⟨h.live.mono (bound_le h.repl.core), h.repl.core.sequences.limit⟩
        synced := h.live
        unsynced := trivial }
    · cases hstep

theorem logs_le {seg : Segment} (hseg : seg ∈ s.logs) {b : Batch}
    (hb : b ∈ seg.records) {e : WalEntry} (he : e ∈ b) : e.seq ≤ bound s.core := by
  have hjournaled : b ∈ s.core.trace.journaled := by
    rcases mem_append.1 hseg with hseg | hseg
    · exact h.repl.others seg hseg b hb
    · obtain rfl := mem_singleton.1 hseg
      exact h.repl.core.files.live_journaled hb
  exact journaled_le_bound h.repl.core hjournaled he

theorem bounded : Bounded s.logs := fun _ hseg _ hb _ he =>
  Nat.le_trans (h.logs_le hseg hb he)
    (Nat.le_trans (bound_le h.repl.core) h.repl.core.sequences.limit)

end

end SessionOk

structure ReplayedOk (lastSeq : Nat) (st : Replayed) : Prop where
  start : lastSeq ≤ st.seq
  entries : ∀ e ∈ st.entries, e.seq ≤ st.seq
  limit : st.seq ≤ maxIKeySeq

theorem le_foldl_max (b : Batch) (n : Nat) :
    n ≤ b.foldl (fun n e => max n e.seq) n ∧ ∀ e ∈ b, e.seq ≤ b.foldl (fun n e => max n e.seq) n :=
    by
  induction b generalizing n with
  | nil => simp
  | cons e b ih =>
    obtain ⟨hle, hall⟩ := ih (max n e.seq)
    rw [foldl_cons]
    refine ⟨le_trans (le_max_left _ _) hle, fun e' he' => ?_⟩
    rcases mem_cons.1 he' with rfl | he'
    · exact le_trans (le_max_right _ _) hle
    · exact hall e' he'

theorem foldl_max_le (hn : n ≤ m) (hb : ∀ e ∈ b, e.seq ≤ m) :
    b.foldl (fun n e => max n e.seq) n ≤ m := by
  induction b generalizing n with
  | nil => exact hn
  | cons e b ih =>
    rw [foldl_cons]
    exact ih (max_le hn (hb e mem_cons_self)) fun e' he' => hb e' (mem_cons_of_mem e he')

theorem replayEntries_ok (h : ReplayedOk lastSeq st)
    {es : List WalEntry} (hes : ∀ e ∈ es, e.seq ≤ st.seq) :
    (replayEntries lenient st es).Holds (ReplayedOk lastSeq) := by
  induction es generalizing st with
  | nil => exact h
  | cons e es ih =>
    unfold replayEntries
    split_ifs
    · exact h
    · trivial
    · split
      · trivial
      · refine ih ⟨h.start, fun e' he' => ?_, h.limit⟩ fun e' he' =>
          hes e' (mem_cons_of_mem e he')
        rcases mem_append.1 he' with he' | he'
        · exact h.entries e' he'
        · obtain rfl := mem_singleton.1 he'
          exact hes e' mem_cons_self

theorem replayBatch_ok (h : ReplayedOk lastSeq st)
    (hb : ∀ e ∈ b, e.seq ≤ maxIKeySeq) :
    (replayBatch lenient st b).Holds (ReplayedOk lastSeq) := by
  obtain ⟨hle, hall⟩ := le_foldl_max b st.seq
  refine replayEntries_ok ⟨le_trans h.start hle, fun e he => ?_, foldl_max_le h.limit hb⟩ hall
  exact le_trans (h.entries e he) hle

theorem recoverLogs_ok {replayLogNum : Nat} {logs : List Segment}
    (hlogs : Bounded logs) {st' : Replayed} (h : ReplayedOk lastSeq st)
    (hrec : recoverLogs lenient replayLogNum st logs = .ok st') : ReplayedOk lastSeq st' := by
  induction logs generalizing st with
  | nil =>
    cases hrec
    exact h
  | cons seg logs ih =>
    have hrest : Bounded logs := fun seg' hseg' => hlogs seg' (mem_cons_of_mem seg hseg')
    have hpass : (Replication.visitRecords lenient false (replayBatch lenient) seg.tail st 0
        seg.records).Holds (ReplayedOk lastSeq) :=
      Replication.visitRecords_holds
        (fun b hb _ hst => replayBatch_ok hst (hlogs seg mem_cons_self b hb)) h 0
    unfold recoverLogs at hrec
    split_ifs at hrec
    · exact ih hrest h hrec
    · split at hrec
      · rename_i st₁ hnext
        rw [hnext] at hpass
        exact ih hrest hpass hrec
      · rename_i st₁ hstop
        rw [hstop] at hpass
        cases hrec
        exact hpass
      · cases hrec

theorem Bounded.cut {logs : List Segment} (h : Bounded logs) (num keep : Nat) (tail : Tail) :
    Bounded (logs.map fun seg => if seg.num = num then seg.damage keep tail else seg) := by
  intro seg hseg b hb
  obtain ⟨seg', hseg', rfl⟩ := List.mem_map.1 hseg
  split_ifs at hb
  · exact h seg' hseg' b (Segment.mem_damage hb)
  · exact h seg' hseg' b hb

theorem OpeningOk.session {o : Opening} (h : OpeningOk o) {sync retain : Bool} {num : Nat}
    (htables : o.recorded.tables = o.tables) : SessionOk (o.session sync retain num) where
  repl := .start h.limit sync retain num (by simp) List.Pairwise.nil
  live := h.tables
  recorded := h.recorded
  synced := show Below _ o.recorded.tables from htables ▸ h.tables
  unsynced := trivial
  engine := trivial
  ingest := trivial
  handed := ⟨List.Pairwise.nil, by simp [Opening.session], fun seq hseq => by cases hseq⟩

namespace OpeningOk

variable {o : Opening}

section

variable (h : OpeningOk o)
include h

theorem recoveryFlush {t : TableMeta} {o' : Opening}
    (hstep : o.recoveryFlush t = some o') : OpeningOk o' := by
  unfold Opening.recoveryFlush at hstep
  split_ifs at hstep with hguard
  cases hstep
  refine { h with
    tables := fun t' ht' q hq => ?_
    switched := fun hsw => absurd hguard.1 (h.switched hsw).1 }
  rcases mem_append.1 ht' with ht' | ht'
  · exact h.tables t' ht' q hq
  · obtain rfl := mem_singleton.1 ht'
    obtain ⟨e, he, rfl⟩ := hguard.2 q hq
    exact h.entries e he

theorem openWAL {num : Nat} {o' : Opening} (hstep : o.openWAL num = some o') :
    OpeningOk o' := by
  unfold Opening.openWAL at hstep
  split_ifs at hstep with hguard
  cases hstep
  refine { h with
    logs := fun seg hseg b hb => ?_
    switched := fun hsw => absurd hguard.1 (h.switched hsw).1 }
  rcases mem_append.1 hseg with hseg | hseg
  · exact h.logs seg hseg b hb
  · obtain rfl := mem_singleton.1 hseg
    cases hb

theorem switch {o' : Opening} (hstep : o.switch = some o') : OpeningOk o' := by
  obtain ⟨num, hwal, rfl⟩ := map_eq_some_iff.1 hstep
  exact { h with
    recorded := ⟨h.tables, h.limit⟩
    switched := fun _ => ⟨by simp [hwal], rfl⟩ }

theorem removeLog {num : Nat} {o' : Opening} (hstep : o.removeLog num = some o') :
    OpeningOk o' := by
  unfold Opening.removeLog at hstep
  split_ifs at hstep with hguard
  cases hstep
  exact { h with logs := fun seg hseg => h.logs seg (mem_filter.1 hseg).1 }

theorem opened {sync retain : Bool} {s : Session}
    (hstep : o.opened sync retain = some s) : SessionOk s := by
  unfold Opening.opened at hstep
  split at hstep
  · rename_i num hwal hsw
    split_ifs at hstep
    cases hstep
    exact h.session (h.switched hsw).2
  · cases hstep

end

end OpeningOk

theorem World.Ok.step {w : World} (h : w.Ok) {a : Action} {w' : World}
    (hstep : Sequencing.step w a = some w') : w'.Ok := by
  unfold Sequencing.step at hstep
  split at hstep
  · obtain ⟨s', hs', rfl⟩ := map_eq_some_iff.1 hstep
    exact SessionOk.step h hs'
  · rename_i s kept
    cases hstep
    exact ⟨(SessionOk.recorded_crash h kept).1, SessionOk.bounded h⟩
  · rename_i s
    split_ifs at hstep
    cases hstep
    exact ⟨SessionOk.recorded h, by simp [Bounded]⟩
  · cases hstep
    exact ⟨h.1, h.2.cut _ _ _⟩
  · rename_i r logs lenient
    split at hstep
    · rename_i st hrec
      cases hstep
      have hok := recoverLogs_ok h.2 ⟨Nat.le_refl _, by simp, h.1.limit⟩ hrec
      exact ⟨h.1, h.2, h.1.tables.mono hok.start, hok.entries, hok.limit, fun hsw => by cases hsw⟩
    · cases hstep
  · cases hstep
    exact ⟨OpeningOk.recorded h, OpeningOk.logs h⟩
  · obtain ⟨o', ho', rfl⟩ := map_eq_some_iff.1 hstep
    exact OpeningOk.recoveryFlush h ho'
  · obtain ⟨o', ho', rfl⟩ := map_eq_some_iff.1 hstep
    exact OpeningOk.openWAL h ho'
  · obtain ⟨o', ho', rfl⟩ := map_eq_some_iff.1 hstep
    exact OpeningOk.switch h ho'
  · obtain ⟨o', ho', rfl⟩ := map_eq_some_iff.1 hstep
    exact OpeningOk.removeLog h ho'
  · obtain ⟨s, hs, rfl⟩ := map_eq_some_iff.1 hstep
    exact OpeningOk.opened h hs
  · cases hstep

abbrev Steps : World → List Action → World → Prop := Transition.Run step fun _ _ => True

theorem ok_of_run {w : World} {as : List Action} (hrun : Steps init as w) : w.Ok :=
  hrun.invariant (fun _ _ _ hw _ hstep => hw.step hstep)
    ⟨⟨by simp [Below], Nat.zero_le _⟩, by simp [Bounded]⟩

/-- A mutation with this sequence is in a live table, in a table that a crash may
bring back, or in a log file. -/
def Session.Stores (s : Session) (q : Nat) : Prop :=
  (∃ t ∈ s.live, q ∈ t.seqs) ∨ (∃ kept, ∃ t ∈ (s.man.crash kept).tables, q ∈ t.seqs) ∨
    ∃ seg ∈ s.logs, ∃ b ∈ seg.records, ∃ e ∈ b, e.seq = q

theorem SessionOk.stores_le {s : Session} (h : SessionOk s) {q : Nat} (hq : s.Stores q) :
    q ≤ bound s.core := by
  rcases hq with ⟨t, ht, hq⟩ | ⟨kept, t, ht, hq⟩ | ⟨seg, hseg, b, hb, e, he, rfl⟩
  · exact h.live t ht q hq
  · exact (h.recorded_crash kept).2 t ht q hq
  · exact h.logs_le hseg hb he

theorem SessionOk.reserved_pos {s : Session} (h : SessionOk s) {seq : Nat}
    (hres : Session.reserved s.core = some seq) : 0 < seq := by
  have hex := h.repl.core.exclusive
  unfold Session.reserved at hres
  split at hres
  · rename_i seq' heq
    cases hres
    rw [show s.repl.core.ingest = _ from heq] at hex
    exact Nat.zero_lt_of_lt hex.2.2.2
  · cases hres

/-- In every session of every run the sequences handed out and not given back ascend,
and whatever `reserveSeq` hands out next lies above all of them and above every
mutation in a live table or a log file, within the limit. A sequence goes back when
the ingestion it was handed out for ends without publishing it; then no stored
mutation carries it. -/
theorem sequences_never_reused {as : List Action} {s : Session} (hrun : Steps init as (.up s)) :
    s.handed.Pairwise (· < ·) ∧
      (∀ seq, Session.reserved s.core = some seq → ¬ s.Stores seq) ∧
      ∀ n base, reserveSeq s.core.walSeq n = .ok base →
        base + n ≤ maxIKeySeq + 1 ∧ (∀ q ∈ s.handed, q < base) ∧ ∀ q, s.Stores q → q < base := by
  have h : SessionOk s := ok_of_run hrun
  refine ⟨h.handed.ascending, fun seq hres hstored => ?_, fun n base hbase => ?_⟩
  · have hle := h.stores_le hstored
    have hpos := h.reserved_pos hres
    simp only [bound, hres] at hle
    omega
  · obtain ⟨rfl, hlimit⟩ := reserveSeq_eq_ok hbase
    refine ⟨by omega, fun q hq => Nat.lt_succ_of_le (h.handed.le q hq), fun q hq => ?_⟩
    exact Nat.lt_succ_of_le (Nat.le_trans (h.stores_le hq) (bound_le h.repl.core))

def opening : List Action := [.load false, .openWAL 1, .switch, .opened true false]

def onePoint (num seq : Nat) : TableMeta :=
  finishTable ⟨fun es _ => es.length, fun es => es.length⟩ 0 num 0
    ⟨[⟨⟨[1], seq, .set⟩, [7]⟩], pairwise_singleton _ _⟩ []

/-- A put is journaled, the process crashes, the next open replays and flushes it, and a
file is ingested. -/
def crashThenIngest : List Action :=
  opening ++
    ([.enqueue [⟨0, .put, [1], [7], 0⟩], .drain, .writeRecord, .flush] : List _).map
      (fun a => .session (.repl (.commit a))) ++
    [.crash true, .load false, .recoveryFlush (onePoint 5 1), .openWAL 2, .switch, .removeLog 1,
      .opened true false] ++
    [.repl (.commit .ingestReserve), .build .ingest (onePoint 7 2),
      .repl (.commit .ingestPublish), .loadSeq .ingest, .append .ingest, .sync,
      .repl (.ingestEnd true)].map Action.session

theorem sequences_never_reused_crashThenIngest :
    ∃ s, Steps init crashThenIngest (.up s) ∧ s.handed = [2] ∧ s.Stores 1 ∧ s.Stores 2 ∧
      reserveSeq s.core.walSeq 1 = .ok 3 ∧ ∀ q, s.Stores q → q < 3 := by
  have hexec : ∃ s, Transition.exec step init crashThenIngest = some (.up s) ∧ s.handed = [2] ∧
      s.live = [onePoint 5 1, onePoint 7 2] ∧ reserveSeq s.core.walSeq 1 = .ok 3 :=
    ⟨_, rfl, rfl, rfl, rfl⟩
  obtain ⟨s, hexec, hhanded, hlive, hnext⟩ := hexec
  have hrun : Steps init crashThenIngest (.up s) := run_of_exec (fun _ _ => trivial) hexec
  have hstores : ∀ q ∈ [1, 2], s.Stores q := by
    intro q hq
    refine .inl ?_
    rw [hlive]
    revert q
    decide
  exact ⟨s, hrun, hhanded, hstores 1 (by decide), hstores 2 (by decide), hnext,
    ((sequences_never_reused hrun).2.2 1 3 hnext).2.2⟩

/-- An ingestion gets the first sequence and ends without publishing it; the write
after it gets the same one. -/
theorem failed_ingest_sequence_handed_out_again :
    ∃ s s', Steps init (opening ++ [.session (.repl (.commit .ingestReserve))]) (.up s) ∧
      s.handed = [1] ∧ Steps (.up s) [.session (.repl (.ingestEnd false))] (.up s') ∧
      reserveSeq s'.core.walSeq 1 = .ok 1 :=
  ⟨_, _, run_of_exec (fun _ _ => trivial) rfl, rfl,
    run_of_exec (fun _ _ => trivial) rfl, rfl⟩

end Sequencing

end LevisDB
