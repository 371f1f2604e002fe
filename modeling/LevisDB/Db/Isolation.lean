import LevisDB.Compaction.Pick
import LevisDB.Db.Batch
import LevisDB.Db.HoldingSteps
import LevisDB.Lib.Transition

/-!
# Readers, writers and compactions at once

An open database as its goroutines see it. Writers append and publish; readers and
iterators pin a sequence, iterators also the time they read at; a compaction run
reads the clock, the iterator times, the recovery-safe sequence, the pins and the
latest sequence one after the other, merges, and commits at some later step. Each
critical section is one action, and the actions interleave freely.

The history of accepted mutations, the history each pin was taken over, and the
largest watermark and cutoff committed so far are kept beside the state; no action
reads them.
-/

namespace LevisDB

namespace Isolation

/-- How the database was opened. The blob size is a machine integer. -/
structure Config where
  fmt : TableFormat
  options : Options
  dedup : Bool
  filter : Option CompactionFilter
  blobFileSize : options.blobFileSize < 2 ^ 63

inductive Holder where
  | reader (id : Nat)
  | iterator (id : Nat)
deriving DecidableEq

/-- A held read view, with the history it was taken over. The source counts the pins
of a sequence; here each is listed with its holder. -/
structure Pin where
  holder : Holder
  seq : Nat
  taken : History

/-- The smallest pinned sequence, or the fallback when there is none. -/
def oldest (count : List Pin) (fallback : Nat) : Nat :=
  match count with
  | [] => fallback
  | p :: ps => ps.foldl (fun seq q => if q.seq < seq then q.seq else seq) p.seq

def oldestIteratorTime (iteratorTimes : List (Nat × Time)) (fallback : Time) : Time :=
  iteratorTimes.foldl (fun oldest p => if p.2 < oldest then p.2 else oldest) fallback

/-- How far `compactionRunConfig` has come: the clock, the cutoff, the recovery-safe
sequence, then either the filter's reservation or the sequence `oldest` falls back to. -/
inductive RunStage where
  | idle
  | timed (now : Time)
  | configured (cutoff : Time)
  | safeLoaded (cutoff : Time) (safe : Nat)
  | reserved (cutoff : Time) (safe : Nat)
  | seqLoaded (cutoff : Time) (seq : Nat)
  | ready (r : RunConfig)

inductive IterStage where
  | idle
  | pinned
  | clocked (readTime : Time)
  | held (readTime : Time)
  | captured (readTime : Time) (src : Engine)

/-- The `Compact` calls a run makes: a background one, a relocation or the last pass
of a manual compaction, or `CompactAll`. -/
inductive Pass where
  | tier (depth : Nat)
  | hop (depth : Nat)
  | bottom (depth : Nat)
  | all

def Pass.config (cc : CompactionConfig) : Pass → CompactionConfig
  | .tier _ => cc
  | .hop _ => { cc with filter := none }
  | .bottom _ => cc.final
  | .all => cc

def Pass.plan (tables : List TableMeta) (cc : CompactionConfig) : Pass → Option CompactionPlan
  | .tier depth => planCompact tables depth cc
  | .hop depth => planCompact tables depth cc
  | .bottom depth => planCompact tables depth cc
  | .all => planCompactAll tables

/-- A merge that has written its outputs and not committed them. -/
structure Merge where
  run : Nat
  plan : CompactionPlan
  retain : Nat
  cutoff : Time
  filtering : Bool
  discarded : List (Key × Nat)
  metas : List TableMeta

inductive Job where
  | flush
  | merge (m : Merge)

structure State where
  eng : Engine
  walSeq : Nat
  readSeq : Nat
  filterSafeSeq : Nat
  clock : Time
  count : List Pin
  iteratorTimes : List (Nat × Time)
  filterRuns : List Nat
  runs : Nat → RunStage
  iters : Nat → IterStage
  job : Option Job
  ingest : Option TableMeta
  history : History
  retained : Nat
  horizon : Time

inductive Action where
  | tick (now : Time)
  | allocate
  | write (ops : List BatchOp)
  | publish (seq : Nat)
  | ingestBegin (bloomBits : Int) (ops : List SstOp)
  | ingestInstall
  | ingestFail
  | flushBegin
  | flushCommit
  | flushFail
  | checkpointed (seq : Nat)
  | acquire (id : Nat)
  | release (id : Nat)
  | runClock (i : Nat)
  | runCutoff (i : Nat)
  | runLoadSafe (i : Nat)
  | runReserve (i : Nat)
  | runFilter (i : Nat)
  | runLoadSeq (i : Nat)
  | runRetain (i : Nat)
  | runEnd (i : Nat)
  | merge (i : Nat) (pass : Pass)
  | mergeCommit
  | mergeFail
  | iterPin (id : Nat)
  | iterPinAt (id snapshot : Nat)
  | iterClock (id : Nat)
  | iterTime (id : Nat)
  | iterCapture (id : Nat)
  | iterClose (id : Nat)

namespace State

def setRun (s : State) (i : Nat) (stage : RunStage) : State :=
  { s with runs := Function.update s.runs i stage }

def setIter (s : State) (id : Nat) (stage : IterStage) : State :=
  { s with iters := Function.update s.iters id stage }

def pinOf (s : State) (holder : Holder) : Option Pin := s.count.find? fun p => p.holder = holder

def unpin (s : State) (holder : Holder) : State :=
  { s with count := s.count.filter fun p => p.holder ≠ holder }

/-- New pins wait for filtering runs, and for an ingestion, which holds the database lock. -/
def pin (s : State) (holder : Holder) (seq : Nat) : Option State :=
  if s.filterRuns = [] ∧ s.ingest.isNone = true ∧ (s.pinOf holder).isNone = true then
    some { s with count := ⟨holder, seq, s.history⟩ :: s.count }
  else none

/-- A durable batch reaches the memtable; its sequences are published later. -/
def write (c : Config) (s : State) (ops : List BatchOp) : Option State :=
  if s.ingest.isSome = true ∨ ∃ op ∈ ops, op.key = [] then none
  else do
    let entries ← (batchEntries s.eng s.readSeq c.dedup s.clock 0 ops).toOption
    let base ← (reserveSeq s.walSeq entries.length).toOption
    pure { s with
      eng := s.eng.applyEntries (assignSeqs base entries)
      walSeq := s.walSeq + entries.length
      history := s.history.log (assignSeqs base entries) }

/-- A file built by `SstFileWriter` is copied and its sequence published; the table is
not yet installed. -/
def ingestBegin (c : Config) (s : State) (bloomBits : Int) (ops : List SstOp) : Option State :=
  if s.ingest.isSome = true then none
  else do
    let src ← (buildSst bloomBits ops).toOption
    let (table, seq) ← (prepareIngest c.fmt s.eng s.walSeq src).toOption
    pure { s with
      eng := { s.eng with alloc := table.num }
      walSeq := seq
      readSeq := seq
      ingest := some table }

def ingestInstall (s : State) : Option State := do
  let table ← s.ingest
  pure { s with
    eng := { s.eng with tables := s.eng.tables ++ [table] }
    history := s.history.ingest table.points
    ingest := none }

def flushBegin (s : State) : Option State :=
  if s.job.isNone = true ∧ s.eng.rotate.2 = true then
    some { s with eng := s.eng.rotate.1, job := some .flush }
  else none

def flushCommit (c : Config) (s : State) : Option State :=
  match s.job with
  | some .flush => do
      let imm ← s.eng.imm
      let out ← (writeTable c.fmt s.eng imm).toOption
      pure { s with eng := (s.eng.created out).installFlush out.table, job := none }
  | _ => none

def runStep (c : Config) (s : State) (i : Nat) : Action → Option State
  | .runClock _ =>
    match s.runs i with
    | .idle => some (s.setRun i (.timed s.clock))
    | _ => none
  | .runCutoff _ =>
    match s.runs i with
    | .timed now => some (s.setRun i (.configured (oldestIteratorTime s.iteratorTimes now)))
    | _ => none
  | .runLoadSafe _ =>
    match s.runs i with
    | .configured cutoff => some (s.setRun i (.safeLoaded cutoff s.filterSafeSeq))
    | _ => none
  | .runReserve _ =>
    match s.runs i with
    | .safeLoaded cutoff safe =>
      if c.filter.isSome = true ∧ safe ≠ 0 ∧ s.count.isEmpty = true then
        some { s.setRun i (.reserved cutoff safe) with filterRuns := i :: s.filterRuns }
      else none
    | _ => none
  | .runFilter _ =>
    match s.runs i with
    | .reserved cutoff safe => some
      (s.setRun i (.ready ⟨s.readSeq, c.filter, safe, cutoff, s.clock⟩))
    | _ => none
  | .runLoadSeq _ =>
    match s.runs i with
    | .safeLoaded cutoff _ => some (s.setRun i (.seqLoaded cutoff s.readSeq))
    | _ => none
  | .runRetain _ =>
    match s.runs i with
    | .seqLoaded cutoff seq =>
      some (s.setRun i (.ready ⟨oldest s.count seq, none, 0, cutoff, s.clock⟩))
    | _ => none
  | _ => none

def runEnd (s : State) (i : Nat) : Option State :=
  match s.runs i, s.job with
  | .ready _, some (.merge m) =>
    if m.run = i then none
    else some { s.setRun i .idle with filterRuns := s.filterRuns.filter (· ≠ i) }
  | .ready _, _ => some { s.setRun i .idle with filterRuns := s.filterRuns.filter (· ≠ i) }
  | _, _ => none

/-- Plans and merges under the flush lock. A pass with nothing to merge is no step. -/
def merge (c : Config) (s : State) (i : Nat) (pass : Pass) : Option State :=
  match s.runs i, s.job with
  | .ready r, none => do
      let cc := pass.config (c.options.runConfig r)
      let plan ← pass.plan s.eng.tables cc
      let (metas, alloc) ← (runCompaction c.fmt s.eng plan r.retain cc r.now).toOption
      pure { s with
        eng := { s.eng with alloc := alloc }
        job := some (.merge
          { run := i
            plan := plan
            retain := r.retain
            cutoff := cc.expiry r.now
            filtering := cc.filter.isSome
            discarded := plan.discarded s.eng cc r.now
            metas := metas }) }
  | _, _ => none

def mergeCommit (s : State) : Option State :=
  match s.job with
  | some (.merge m) =>
    some { s with
      eng := commitCompaction s.eng m.plan.inputs m.metas s.eng.alloc
      job := none
      history := s.history.discard m.discarded
      retained := max s.retained m.retain
      horizon := max s.horizon m.cutoff }
  | _ => none

/-- An iterator of a snapshot shares the sequence of the snapshot, which is still held. -/
def iterPinAt (s : State) (id snapshot : Nat) : Option State := do
  let p ← s.pinOf (.reader snapshot)
  match s.iters id with
  | .idle => do
      let s' ← s.pin (.iterator id) p.seq
      pure (s'.setIter id .pinned)
  | _ => none

def iterPin (s : State) (id : Nat) : Option State :=
  match s.iters id with
  | .idle => do
      let s' ← s.pin (.iterator id) s.readSeq
      pure (s'.setIter id .pinned)
  | _ => none

def iterStep (s : State) (id : Nat) : Action → Option State
  | .iterClock _ =>
    match s.iters id with
    | .pinned => some (s.setIter id (.clocked s.clock))
    | _ => none
  | .iterTime _ =>
    match s.iters id with
    | .clocked readTime =>
      some { s.setIter id (.held readTime) with
        iteratorTimes := (id, readTime) :: s.iteratorTimes }
    | _ => none
  | .iterCapture _ =>
    match s.iters id with
    | .held readTime => some (s.setIter id (.captured readTime s.eng))
    | _ => none
  | .iterClose _ =>
    match s.iters id with
    | .captured _ _ =>
      some { (s.unpin (.iterator id)).setIter id .idle with
        iteratorTimes := s.iteratorTimes.filter fun p => p.1 ≠ id }
    | _ => none
  | _ => none

end State

def step (c : Config) (s : State) (a : Action) : Option State :=
  match a with
  | .tick now => if s.clock ≤ now then some { s with clock := now } else none
  | .allocate => (allocNext s.eng.alloc).map fun num =>
    { s with eng := { s.eng with alloc := num } }
  | .write ops => s.write c ops
  | .publish seq =>
    if s.readSeq ≤ seq ∧ seq ≤ s.walSeq then some { s with readSeq := seq } else none
  | .ingestBegin bloomBits ops => s.ingestBegin c bloomBits ops
  | .ingestInstall => s.ingestInstall
  | .ingestFail => if s.ingest.isSome = true then some { s with ingest := none } else none
  | .flushBegin => s.flushBegin
  | .flushCommit => s.flushCommit c
  | .flushFail =>
    match s.job with
    | some .flush => some { s with job := none }
    | _ => none
  | .checkpointed seq => if seq ≤ s.readSeq then some { s with filterSafeSeq := seq } else none
  | .acquire id => s.pin (.reader id) s.readSeq
  | .release id => some (s.unpin (.reader id))
  | .runClock i => s.runStep c i a
  | .runCutoff i => s.runStep c i a
  | .runLoadSafe i => s.runStep c i a
  | .runReserve i => s.runStep c i a
  | .runFilter i => s.runStep c i a
  | .runLoadSeq i => s.runStep c i a
  | .runRetain i => s.runStep c i a
  | .runEnd i => s.runEnd i
  | .merge i pass => s.merge c i pass
  | .mergeCommit => s.mergeCommit
  | .mergeFail =>
    match s.job with
    | some (.merge _) => some { s with job := none }
    | _ => none
  | .iterPin id => s.iterPin id
  | .iterPinAt id snapshot => s.iterPinAt id snapshot
  | .iterClock id => s.iterStep id a
  | .iterTime id => s.iterStep id a
  | .iterCapture id => s.iterStep id a
  | .iterClose id => s.iterStep id a

end Isolation

end LevisDB
