import LevisDB.Db.Catalog
import LevisDB.Db.ReplicationRuns

/-!
# Sequence numbers

Sequences are handed out from one counter, which a session takes over from the
manifest and from the log it replays. This file follows the counter through
everything that reads or writes it: writers and ingestions, flushes and
compactions with the watermark of their manifest edits, checkpoints, manifest
rotations, failed commits, crashes that cut or damage the log, and recoveries,
strict or lenient, that fail or succeed.

The manifest is what it replays to, and one record that a crash may still cut. Blob
registrations are left out: they carry no sequences, and at worst make a later
open fail.
-/

namespace LevisDB

namespace Sequencing

open GroupCommit Catalog

structure Recorded where
  lastSeq : Nat
  replayLogNum : Nat
  tables : List TableMeta

inductive Edit where
  | tables (removed : List Nat) (added : List TableMeta) (lastSeq : Nat)
  | boundary (num : Nat)

def replaceTables (live : List TableMeta) (removed : List Nat) (added : List TableMeta) :
    List TableMeta :=
  (live.filter fun t => decide (t.num ∉ removed)) ++ added

def Recorded.apply (r : Recorded) : Edit → Recorded
  | .tables removed added lastSeq =>
    { r with
      lastSeq := max r.lastSeq lastSeq
      tables := replaceTables r.tables removed added }
  | .boundary num => { r with replayLogNum := num }

structure Manifest where
  synced : Recorded
  unsynced : Option Edit

/-- What a later open replays, depending on whether the last record survives. -/
def Manifest.crash (m : Manifest) (kept : Bool) : Recorded :=
  match m.unsynced, kept with
  | some e, true => m.synced.apply e
  | _, _ => m.synced

structure Replayed where
  lastWALSeq : Nat
  seq : Nat
  entries : List WalEntry

/-- Applies the entries of a record; a regressing sequence ends a lenient replay and
fails a strict one, an entry that cannot be valid fails both. -/
def replayEntries (lenient : Bool) : Replayed → List WalEntry → Replication.Visit Replayed
  | st, [] => .next st
  | st, e :: es =>
    if e.seq ≤ st.lastWALSeq then
      if lenient then .stop st else .fail (.walNonIncreasing e.seq st.lastWALSeq)
    else
      match checkWalEntry e with
      | .error err => .fail err
      | .ok () =>
        replayEntries lenient
          { st with
            lastWALSeq := e.seq
            entries := st.entries ++ [e] } es

/-- The sequences of a record count before its entries are looked at. -/
def replayBatch (lenient : Bool) (st : Replayed) (b : Batch) : Replication.Visit Replayed :=
  replayEntries lenient { st with seq := b.foldl (fun n e => max n e.seq) st.seq } b

/-- The log files from the boundary on, ascending, until one of them stops the
replay. -/
def recoverLogs (lenient : Bool) (replayLogNum : Nat) :
    Replayed → List Segment → Except Err Replayed
  | st, [] => .ok st
  | st, seg :: segs =>
    if seg.num < replayLogNum then recoverLogs lenient replayLogNum st segs
    else
      match Replication.visitRecords lenient false (replayBatch lenient) seg.tail st 0
          seg.records with
      | .next st' => recoverLogs lenient replayLogNum st' segs
      | .stop st' => .ok st'
      | .fail err => .error err

/-- An open under way: what it has replayed, the tables it has, its own log file and
whether `CURRENT` names its baseline. -/
structure Opening where
  recorded : Recorded
  logs : List Segment
  replayed : Replayed
  tables : List TableMeta
  wal : Option Nat
  switched : Bool

inductive Appender where
  | tables (who : Committer)
  | checkpoint

structure Session where
  repl : Replication.State
  man : Manifest
  live : List TableMeta
  replayLogNum : Nat
  jobs : Committer → Option Job
  appending : Option Appender
  /-- Whether an append has failed; the writer never recovers. -/
  manFailed : Bool
  /-- Sequences handed out in this session and not given back. -/
  handed : List Nat

inductive World where
  | down (recorded : Recorded) (logs : List Segment)
  | opening (o : Opening)
  | up (s : Session)

inductive SessionAction where
  | repl (a : Replication.Action)
  | start (nums : List Nat)
  | build (who : Committer) (t : TableMeta)
  | loadSeq (who : Committer)
  | abort
  | append (who : Committer)
  | appendBoundary
  | sync
  | syncFail
  | rotateManifest

inductive Action where
  | session (a : SessionAction)
  | crash (kept : Bool)
  | close
  /-- A crash or rot leaves a log file with its first `keep` records. -/
  | cut (num keep : Nat) (tail : Tail)
  | load (lenient : Bool)
  | openFail
  | recoveryFlush (t : TableMeta)
  | openWAL (num : Nat)
  | switch
  | removeLog (num : Nat)
  | opened (sync retain : Bool)

namespace Session

def core (s : Session) : GroupCommit.State := s.repl.core

def setJob (s : Session) (who : Committer) (job : Option Job) : Session :=
  { s with jobs := Function.update s.jobs who job }

def reserved (c : GroupCommit.State) : Option Nat :=
  match c.ingest with
  | some (.reserved seq) => some seq
  | _ => none

/-- The sequences handed out after a step; a failed ingestion gives its own back. -/
def handOut (s : Session) : Replication.Action → List Nat
  | .commit (.enqueue entries) =>
    match reserveSeq s.core.walSeq entries.length with
    | .ok base => s.handed ++ List.range' base entries.length
    | .error _ => s.handed
  | .commit .ingestReserve => s.handed ++ [s.core.walSeq + 1]
  | .ingestEnd _ => if (reserved s.core).isSome then s.handed.dropLast else s.handed
  | _ => s.handed

/-- Steps of the log that the manifest drives, and the restart, are taken elsewhere. -/
def Driven : Replication.Action → Bool
  | .record => true
  | .restart _ _ _ _ => true
  | _ => false

/-- The end of an ingestion ends its table change. -/
def jobsAfter (s : Session) : Replication.Action → Committer → Option Job
  | .ingestEnd _ => Function.update s.jobs .ingest none
  | _ => s.jobs

/-- An ingestion does not return while its record is being appended. -/
def Returns (s : Session) : Replication.Action → Bool
  | .ingestEnd _ =>
    match s.appending with
    | some (.tables .ingest) => false
    | _ => true
  | _ => true

def stepRepl (s : Session) (a : Replication.Action) : Option Session :=
  if Driven a = true ∨ s.Returns a = false then none
  else
    (s.repl.step a).map fun repl =>
      { s with
        repl := repl
        jobs := s.jobsAfter a
        handed := s.handOut a }

/-- A flush writes applied entries, a compaction what its inputs hold, an ingestion
one table at its own sequence. -/
def MayWrite (s : Session) (job : Job) (t : TableMeta) : Committer → Prop
  | .engine =>
    if job.inputs = [] then ∀ q ∈ t.seqs, ∃ e ∈ s.core.trace.applied, e.seq = q
    else ∀ q ∈ t.seqs, ∃ i ∈ job.inputs, q ∈ i.seqs
  | .ingest => ∃ seq, reserved s.core = some seq ∧ ∀ q ∈ t.seqs, q = seq

instance (s : Session) (job : Job) (t : TableMeta) :
    (who : Committer) → Decidable (s.MayWrite job t who)
  | .engine =>
    if h : job.inputs = [] then
      decidable_of_iff (∀ q ∈ t.seqs, ∃ e ∈ s.core.trace.applied, e.seq = q)
        (by simp [MayWrite, h])
    else
      decidable_of_iff (∀ q ∈ t.seqs, ∃ i ∈ job.inputs, q ∈ i.seqs) (by simp [MayWrite, h])
  | .ingest =>
    match h : reserved s.core with
    | none => isFalse (by simp [MayWrite, h])
    | some seq => decidable_of_iff (∀ q ∈ t.seqs, q = seq) (by simp [MayWrite, h])

def build (s : Session) (who : Committer) (t : TableMeta) : Option Session :=
  match s.jobs who with
  | some ⟨inputs, outputs, none⟩ =>
    if s.MayWrite ⟨inputs, outputs, none⟩ t who then
      some (s.setJob who (some ⟨inputs, outputs ++ [t], none⟩))
    else none
  | _ => none

/-- An ingestion publishes before it commits. -/
def MayLoad (s : Session) : Committer → Bool
  | .engine => true
  | .ingest => (reserved s.core).isNone

def loadSeq (s : Session) (who : Committer) : Option Session :=
  match s.jobs who, s.MayLoad who with
  | some ⟨inputs, outputs, none⟩, true =>
    some (s.setJob who (some ⟨inputs, outputs, some s.core.walSeq⟩))
  | _, _ => none

def write (s : Session) (who : Appender) (e : Edit) : Option Session :=
  match s.appending, s.manFailed with
  | none, false =>
    some { s with
      man := { s.man with unsynced := some e }
      appending := some who }
  | _, _ => none

def install (s : Session) : Option Edit → Session
  | some (.tables removed added _) => { s with live := replaceTables s.live removed added }
  | some (.boundary num) => { s with replayLogNum := num }
  | none => s

/-- The appender goes on: a table change is over, a checkpoint has its boundary. -/
def finish (s : Session) : Appender → Session
  | .tables who => s.setJob who none
  | .checkpoint => { s with repl := (s.repl.step .record).getD s.repl }

def sync (s : Session) : Option Session :=
  s.appending.map fun who =>
    { (s.install s.man.unsynced).finish who with
      man := ⟨s.man.crash true, none⟩
      appending := none }

/-- The record may or may not be there; nothing is installed. -/
def syncFail (s : Session) : Option Session :=
  match s.appending with
  | some (.tables who) => some { s.setJob who none with appending := none, manFailed := true }
  | some .checkpoint => some { s with appending := none, manFailed := true }
  | none => none

def step (s : Session) : SessionAction → Option Session
  | .repl a => s.stepRepl a
  | .start nums =>
    match s.jobs .engine with
    | none =>
      let inputs := s.live.filter fun t => decide (t.num ∈ nums)
      some (s.setJob .engine (some ⟨inputs, [], none⟩))
    | some _ => none
  | .build who t =>
    match who, s.jobs .ingest with
    | .ingest, none => (s.setJob .ingest (some ⟨[], [], none⟩)).build .ingest t
    | _, _ => s.build who t
  | .loadSeq who => s.loadSeq who
  | .abort =>
    match s.appending with
    | some (.tables .engine) => none
    | _ => some (s.setJob .engine none)
  | .append who =>
    match s.jobs who with
    | some ⟨inputs, outputs, some lastSeq⟩ =>
      s.write (.tables who) (.tables (inputs.map (·.num)) outputs lastSeq)
    | _ => none
  | .appendBoundary =>
    match s.repl.checkpoint with
    | some (.rotated _) => s.write .checkpoint (.boundary s.core.live.num)
    | _ => none
  | .sync => s.sync
  | .syncFail => s.syncFail
  | .rotateManifest =>
    match s.appending, s.manFailed with
    | none, false =>
      some { s with man := ⟨⟨s.core.walSeq, s.replayLogNum, s.live⟩, none⟩ }
    | _, _ => none

end Session

def Session.logs (s : Session) : List Segment := s.repl.others ++ [s.core.live]

/-- A clean close of a durable database has flushed everything. -/
def Session.Quiet (s : Session) : Prop :=
  s.core.mem = [] ∧ s.core.imm = none ∧ s.appending.isNone ∧ s.manFailed = false

instance (s : Session) : Decidable s.Quiet := inferInstanceAs (Decidable (_ ∧ _ ∧ _ ∧ _))

def Opening.session (o : Opening) (sync retain : Bool) (num : Nat) : Session where
  repl := .start sync retain o.replayed.seq num []
  man := ⟨o.recorded, none⟩
  live := o.tables
  replayLogNum := num
  jobs := fun _ => none
  appending := none
  manFailed := false
  handed := []

namespace Opening

/-- A recovery flush writes replayed entries. -/
def recoveryFlush (o : Opening) (t : TableMeta) : Option Opening :=
  if o.wal = none ∧ ∀ q ∈ t.seqs, ∃ e ∈ o.replayed.entries, e.seq = q then
    some { o with tables := o.tables ++ [t] }
  else none

def openWAL (o : Opening) (num : Nat) : Option Opening :=
  if o.wal = none ∧ ∀ seg ∈ o.logs, seg.num < num then
    some { o with
      logs := o.logs ++ [⟨num, [], .clean⟩]
      wal := some num }
  else none

/-- `CURRENT` names the baseline; every earlier log file is excluded. -/
def switch (o : Opening) : Option Opening :=
  o.wal.map fun num =>
    { o with
      recorded := ⟨o.replayed.seq, num, o.tables⟩
      switched := true }

def removeLog (o : Opening) (num : Nat) : Option Opening :=
  if o.switched = true ∧ o.wal ≠ some num then
    some { o with logs := o.logs.filter fun seg => decide (seg.num ≠ num) }
  else none

/-- `Open` returns once every old log file is gone. -/
def opened (o : Opening) (sync retain : Bool) : Option Session :=
  match o.wal, o.switched with
  | some num, true => if o.logs.all (·.num == num) then some (o.session sync retain num) else none
  | _, _ => none

end Opening

def step : World → Action → Option World
  | .up s, .session a => (s.step a).map .up
  | .up s, .crash kept => some (.down (s.man.crash kept) s.logs)
  | .up s, .close => if s.Quiet then some (.down s.man.synced []) else none
  | .down r logs, .cut num keep tail =>
    some (.down r (logs.map fun seg => if seg.num = num then seg.damage keep tail else seg))
  | .down r logs, .load lenient =>
    match recoverLogs lenient r.replayLogNum ⟨0, r.lastSeq, []⟩ logs with
    | .ok st => some (.opening ⟨r, logs, st, r.tables, none, false⟩)
    | .error _ => none
  | .opening o, .openFail => some (.down o.recorded o.logs)
  | .opening o, .recoveryFlush t => (o.recoveryFlush t).map .opening
  | .opening o, .openWAL num => (o.openWAL num).map .opening
  | .opening o, .switch => o.switch.map .opening
  | .opening o, .removeLog num => (o.removeLog num).map .opening
  | .opening o, .opened sync retain => (o.opened sync retain).map .up
  | _, _ => none

def init : World := .down ⟨0, 0, []⟩ []

end Sequencing

end LevisDB
