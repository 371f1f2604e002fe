import LevisDB.Db.Recovery
import LevisDB.Db.Batch
import LevisDB.Lib.Transition

/-!
# Group commit

Any number of writers reserve sequences and queue their batches; the first of them
becomes the committer and drains the queue group by group. A group is written to
the journal, flushed and synced once, applied to the memtables batch by batch,
shown to the observer, and only then are its waiters released. A failure on the
way poisons the log for the rest of the session.

A step is what one party does between two points at which another can act. An
ingestion holds `db.mu` exclusively, so it runs only while no writer is inside
`Write`; every other step may fall between any two steps of the committer. `Trace`
records what happened; no step reads it.
-/

namespace LevisDB

namespace GroupCommit

abbrev Batch := List WalEntry

/-- What follows the readable records of a file: nothing, a record cut short, or
bytes that fail their checksum or do not decode. -/
inductive Tail where
  | clean
  | torn
  | corrupt
  deriving DecidableEq

structure Segment where
  num : Nat
  records : List Batch
  tail : Tail

namespace Segment

/-- Appends records; nobody reads past a damaged one. -/
def writes (seg : Segment) (bs : List Batch) : Segment :=
  if seg.tail = .clean then { seg with records := seg.records ++ bs } else seg

/-- The file once its readable part ends after `keep` records. -/
def damage (seg : Segment) (keep : Nat) (tail : Tail) : Segment :=
  { seg with
    records := seg.records.take keep
    tail := tail }

end Segment

/-- Where the committer is. `todo` is what is left to apply of the first batch of
`rest`. -/
inductive Stage where
  /-- `writing` is false. -/
  | idle
  | draining
  | writing (group left : List Batch)
  | syncing (group : List Batch)
  | applying (group rest : List Batch) (todo : Batch)
  | observing (left : List Batch)
  | releasing (b : Batch) (result : Option Err) (left : List Batch)
  | failing (err : Err) (left : List Batch)

namespace Stage

/-- The stage that applies a group whose first batches are done. -/
def applyFrom (group : List Batch) : List Batch → Stage
  | [] => .applying group [] []
  | b :: rest => .applying group (b :: rest) b

/-- The first writer to find no committer becomes it. -/
def woken : Stage → Stage
  | .idle => .draining
  | stage => stage

/-- The group whose write or sync may fail now. -/
def faulty : Stage → Option (List Batch)
  | .writing group _ => some group
  | .syncing group => some group
  | _ => none

end Stage

/-- An ingestion under way, with its sequence. -/
inductive Ingest where
  | reserved (seq : Nat)
  | published (seq : Nat)

structure Trace where
  enqueued : List Batch
  journaled : List Batch
  durable : List Batch
  /-- Entries put into a memtable, in order. -/
  applied : List WalEntry
  published : List Batch
  observed : List Batch
  results : List (Batch × Option Err)
  ingested : List Nat
  /-- What had been journaled at each rotation, with the cutoff it returned. -/
  rotated : List (List Batch × Nat)

structure State where
  /-- Whether each group is synced; false under `NoSync`. -/
  sync : Bool
  startSeq : Nat
  walSeq : Nat
  readSeq : Nat
  live : Segment
  pending : List Batch
  stage : Stage
  /-- The terminal error of the log. -/
  err : Option Err
  /-- Records in the buffer of the journal writer. -/
  buf : List Batch
  /-- Records handed to the operating system. -/
  written : List Batch
  mem : List WalEntry
  imm : Option (List WalEntry)
  flushed : List WalEntry
  ingest : Option Ingest
  /-- Whether a background error is latched. -/
  failed : Bool
  trace : Trace

/-- A session that starts at a recovered sequence with a fresh segment. -/
def State.start (sync : Bool) (startSeq num : Nat) : State where
  sync := sync
  startSeq := startSeq
  walSeq := startSeq
  readSeq := startSeq
  live := ⟨num, [], .clean⟩
  pending := []
  stage := .idle
  err := none
  buf := []
  written := []
  mem := []
  imm := none
  flushed := []
  ingest := none
  failed := false
  trace := ⟨[], [], [], [], [], [], [], [], []⟩

inductive Action where
  /-- `appendWAL` up to the enqueue, under `seqMu`. -/
  | enqueue (entries : List WalEntry)
  | drain
  | writeRecord
  /-- The buffer of the journal writer overflows into the file. -/
  | spill
  | flush
  | fsync
  /-- A write, flush or sync of a group fails after some buffered records reached
  the file. -/
  | fault (err : Err) (reached : Nat) (torn : Bool)
  | applyEntry
  | publish
  | applyPanic
  | applied
  | observe (panics : Bool)
  | release
  | fail
  | next
  | syncNow
  | sealMem
  | flushMem
  | rotate (num : Nat)
  | rotateFail (err : Err)
  | ingestReserve
  | ingestPublish
  | ingestEnd (committed : Bool)
  | damage (keep : Nat) (torn : Bool)

namespace State

/-- `reserveSeq` and `enqueue` under `seqMu`. A poisoned log refuses the batch, whose
sequences stay unused. -/
def appendWAL (s : State) (entries : List WalEntry) : State :=
  match reserveSeq s.walSeq entries.length, s.err with
  | .error _, _ => { s with failed := true }
  | .ok _, some _ => { s with walSeq := s.walSeq + entries.length, failed := true }
  | .ok base, none =>
    { s with
      walSeq := s.walSeq + entries.length
      pending := s.pending ++ [assignSeqs base entries]
      stage := s.stage.woken
      trace := { s.trace with enqueued := s.trace.enqueued ++ [assignSeqs base entries] } }

def drain (s : State) : State :=
  match s.pending, s.err with
  | [], _ => { s with stage := .idle }
  | group, some err =>
    { s with
      pending := []
      stage := .failing err group }
  | group, none =>
    { s with
      pending := []
      stage := .writing group group }

/-- The first failure of a group poisons the log and fails the whole group. -/
def poison (s : State) (err : Err) (group : List Batch) : State :=
  { s with
    err := some err
    stage := .failing err group }

/-- The first `n` buffered records go to the file. -/
def handOver (s : State) (n : Nat) : State :=
  { s with
    live := s.live.writes (s.buf.take n)
    buf := s.buf.drop n
    written := s.written ++ s.buf.take n }

/-- A record cut short at the end of the live file. -/
def tear (s : State) (torn : Bool) : State :=
  { s with live := if torn then s.live.damage s.live.records.length .torn else s.live }

/-- The deferred end of an ingestion: a sequence that was never published goes
back. -/
def ingestEnd (s : State) (seq : Nat) (ok : Bool) : State :=
  { s with
    walSeq := if s.readSeq < seq then seq - 1 else s.walSeq
    failed := s.failed || !ok
    ingest := none }

def stepCommit (s : State) : Action → Option State
  | .drain =>
    match s.stage with
    | .draining => some s.drain
    | _ => none
  | .writeRecord =>
    match s.stage with
    | .writing group (b :: left) =>
      some { s with
        stage := .writing group left
        buf := s.buf ++ [b]
        trace := { s.trace with journaled := s.trace.journaled ++ [b] } }
    | _ => none
  | .spill =>
    match s.stage, s.buf with
    | .writing _ _, _ :: _ => some (s.handOver 1)
    | _, _ => none
  | .flush =>
    match s.stage with
    | .writing group [] =>
      some { s.handOver s.buf.length with
        stage := if s.sync then .syncing group else .applyFrom group group }
    | _ => none
  | .fsync =>
    match s.stage with
    | .syncing group =>
      some { s with
        stage := .applyFrom group group
        trace := { s.trace with durable := s.trace.journaled } }
    | _ => none
  | .fault err reached torn =>
    s.stage.faulty.map fun group => ((s.handOver reached).tear torn).poison err group
  | .applyEntry =>
    match s.stage with
    | .applying group rest (e :: todo) =>
      some { s with
        stage := .applying group rest todo
        mem := s.mem ++ [e]
        trace := { s.trace with applied := s.trace.applied ++ [e] } }
    | _ => none
  | .publish =>
    match s.stage with
    | .applying group (b :: rest) [] =>
      some { s with
        stage := .applyFrom group rest
        readSeq := max s.readSeq (lastSeq b)
        trace := { s.trace with published := s.trace.published ++ [b] } }
    | _ => none
  | .applyPanic =>
    match s.stage with
    | .applying group _ _ => some (s.poison .walApplyPanic group)
    | _ => none
  | .applied =>
    match s.stage with
    | .applying group [] _ => some { s with stage := .observing group }
    | _ => none
  | .observe panics =>
    match s.stage with
    | .observing (b :: left) =>
      some { s with
        stage := .releasing b (if panics then some .walObserverPanic else none) left
        trace := { s.trace with observed := s.trace.observed ++ [b] } }
    | _ => none
  | .release =>
    match s.stage with
    | .releasing b result left =>
      some { s with
        stage := .observing left
        failed := s.failed || result.isSome
        trace := { s.trace with results := s.trace.results ++ [(b, result)] } }
    | _ => none
  | .fail =>
    match s.stage with
    | .failing err (b :: left) =>
      some { s with
        stage := .failing err left
        failed := true
        trace := { s.trace with results := s.trace.results ++ [(b, some err)] } }
    | _ => none
  | .next =>
    match s.stage with
    | .observing [] => some { s with stage := .draining }
    | .failing _ [] => some { s with stage := .draining }
    | _ => none
  | _ => none

def step (s : State) : Action → Option State
  | .enqueue entries =>
    if s.ingest.isNone ∧ entries ≠ [] then some (s.appendWAL entries) else none
  | .syncNow =>
    match s.stage, s.err with
    | .idle, none => some { s with trace := { s.trace with durable := s.trace.journaled } }
    | _, _ => none
  | .sealMem =>
    match s.imm with
    | none => some { s with imm := some s.mem, mem := [] }
    | some _ => none
  | .flushMem =>
    s.imm.map fun imm => { s with flushed := s.flushed ++ imm, imm := none }
  | .rotate num =>
    match s.stage, s.err with
    | .idle, none =>
      some { s with
        live := ⟨num, [], .clean⟩
        trace := { s.trace with
          durable := s.trace.journaled
          rotated := s.trace.rotated ++ [(s.trace.journaled, s.readSeq)] } }
    | _, _ => none
  | .rotateFail err =>
    match s.stage, s.err with
    | .idle, none => some { s with err := some err }
    | _, _ => none
  | .ingestReserve =>
    match s.stage, s.ingest, s.failed, reserveSeq s.walSeq 1 with
    | .idle, none, false, .ok seq =>
      some { s with
        walSeq := s.walSeq + 1
        ingest := some (.reserved seq) }
    | _, _, _, _ => none
  | .ingestPublish =>
    match s.ingest with
    | some (.reserved seq) =>
      some { s with
        readSeq := max s.readSeq seq
        ingest := some (.published seq)
        trace := { s.trace with ingested := s.trace.ingested ++ [seq] } }
    | _ => none
  | .ingestEnd committed =>
    match s.ingest with
    | some (.reserved seq) => some (s.ingestEnd seq true)
    | some (.published seq) => some (s.ingestEnd seq committed)
    | none => none
  | .damage keep torn =>
    some { s with live := s.live.damage keep (if torn then .torn else .corrupt) }
  | a => s.stepCommit a

end State

end GroupCommit

end LevisDB
