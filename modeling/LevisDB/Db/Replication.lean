import LevisDB.Db.GroupCommitRuns

/-!
# Log files of a session and the update stream

A checkpoint moves the log to a fresh file and retires the old one. Without
retention retired files are removed at once, with retention a reaper removes the
oldest ones past both horizons; either way a removal may fail and any file may
rot. `GetUpdatesSince` holds `checkpointMu`, so no file appears or disappears
while it reads, but writers keep appending to the live one: it captures the read
watermark first and then reads file after file, each at a moment of its own.

A restart removes every log file of earlier sessions before it lets anyone in and
starts the horizon at the recovered sequence. A closed or read-only database
returns an error before any of this.
-/

namespace LevisDB

namespace Replication

open GroupCommit

/-- What the visitor of a record decides, and how a pass over a file ends: `next`
at the end of it. -/
inductive Visit (σ : Type) where
  | next (st : σ)
  | stop (st : σ)
  | fail (err : Err)

/-- `replayWALFileVisit` over the records of one file. -/
def visitRecords {σ : Type} (lenient strictTail : Bool) (visit : σ → Batch → Visit σ)
    (tail : Tail) : σ → Nat → List Batch → Visit σ
  | st, _, [] =>
    match tail with
    | .clean => .next st
    | .torn =>
      if strictTail then (if lenient then .stop st else .fail .journalCorrupt) else .next st
    | .corrupt => if lenient then .stop st else .fail .journalCorrupt
  | st, _, [] :: _ => if lenient then .stop st else .fail .walEmptyBatch
  | st, last, (e :: es) :: batches =>
    if e.seq ≤ last then if lenient then .stop st else .fail (.walNonIncreasing e.seq last)
    else
      match visit st (e :: es) with
      | .next st' =>
        visitRecords lenient strictTail visit tail st' (lastSeq (e :: es)) batches
      | .stop st' => .stop st'
      | .fail err => .fail err

def firstSeq (b : Batch) : Nat := (b.head?.map (·.seq)).getD 0

/-- One less than the first sequence of a file, 0 when it has none or cannot be
opened. -/
def firstSeqBefore : Option Segment → Nat
  | none => 0
  | some seg =>
    match visitRecords true false (fun _ b => .stop (firstSeq b)) seg.tail 0 0 seg.records with
    | .next first => first - 1
    | .stop first => first - 1
    | .fail _ => 0

/-- How the removal of a file goes; one that is unlinked without a directory sync
counts as failed. -/
inductive Removal where
  | removed
  | kept
  | unsynced
  deriving DecidableEq

structure ReapEnv where
  now : Int
  retention : Int
  retentionBytes : Int
  stat : Nat → Option (Int × Int)
  remove : Nat → Removal
  opens : Nat → Bool

structure Candidate where
  num : Nat
  size : Int
  mtime : Int

/-- Removes candidates oldest first until a horizon covers one, never the newest;
the file whose first sequence bounds what is left, and the files that are gone. -/
def reapFiles (env : ReapEnv) : Int → List Candidate → List Nat → Option Nat × List Nat
  | _, [], gone => (none, gone)
  | _, [c], gone => (some c.num, gone)
  | total, c :: c' :: rest, gone =>
    let ageOK := 0 < env.retention ∧ env.now - c.mtime < env.retention
    let bytesOK := 0 < env.retentionBytes ∧ total ≤ env.retentionBytes
    if ageOK ∨ bytesOK then (some c.num, gone)
    else
      match env.remove c.num with
      | .removed => reapFiles env (total - c.size) (c' :: rest) (gone ++ [c.num])
      | .kept => reapFiles env total (c' :: rest) gone
      | .unsynced => reapFiles env total (c' :: rest) (gone ++ [c.num])

inductive EntryKind where
  | put
  | delete
  | deleteRange
  deriving DecidableEq

/-- A mutation as the stream delivers it. For a range delete, `value` is its end. -/
structure Update where
  seq : Nat
  kind : EntryKind
  key : Key
  value : Bytes
  expiresAt : Time
  deriving DecidableEq

def publicKind : WalKind → EntryKind
  | .delete => .delete
  | .rangeDelete => .deleteRange
  | _ => .put

def publicEntry (e : WalEntry) : Update := ⟨e.seq, publicKind e.kind, e.key, e.value, e.expiresAt⟩

/-- The entries past `since` and past everything emitted; the highest one emitted. -/
def convertWALBatch (since : Nat) : Nat → Batch → Nat × List Update
  | maxSeen, [] => (maxSeen, [])
  | maxSeen, e :: es =>
    if e.seq ≤ since ∨ e.seq ≤ maxSeen then convertWALBatch since maxSeen es
    else
      let r := convertWALBatch since e.seq es
      (r.1, publicEntry e :: r.2)

/-- A call of `GetUpdatesSince` that has captured its watermark. -/
structure Call where
  since : Nat
  cutoff : Nat
  /-- Files still to read. -/
  todo : List Nat
  maxSeen : Nat
  out : List (List Update)

namespace Call

def emit (c : Call) (st : Nat × List (List Update)) (b : Batch) : Nat × List (List Update) :=
  let r := convertWALBatch c.since st.1 b
  (r.1, if r.2 = [] then st.2 else st.2 ++ [r.2])

def visit (c : Call) (st : Nat × List (List Update)) (b : Batch) : Visit
    (Nat × List (List Update)) :=
  if c.cutoff < lastSeq b then .stop st
  else if st.1 + 1 < firstSeq b then .fail (.walMissingUpdates st.1)
  else if lastSeq b = c.cutoff then .stop (c.emit st b)
  else .next (c.emit st b)

/-- What the call returns once it has read its last file. -/
def finish (c : Call) (st : Nat × List (List Update)) : Except Err (List (List Update)) :=
  if st.1 ≠ c.cutoff then .error (.walMissingThrough st.1 c.cutoff) else .ok st.2

end Call

structure Reply where
  since : Nat
  cutoff : Nat
  result : Except Err (List (List Update))

inductive Checkpoint where
  | created (num : Nat)
  | rotated (cutoff : Nat)
  | recorded (cutoff : Nat)

structure State where
  core : GroupCommit.State
  /-- Whether a retention horizon is configured. -/
  retain : Bool
  /-- The log files other than the live one. -/
  others : List Segment
  retired : List Nat
  filterSafeSeq : Nat
  reapedThroughSeq : Nat
  checkpoint : Option Checkpoint
  call : Option Call
  /-- Mutations of earlier sessions that are part of the history. -/
  earlier : List WalEntry
  replies : List Reply

def State.start (sync retain : Bool) (startSeq num : Nat) (earlier : List WalEntry) : State where
  core := .start sync startSeq num
  retain := retain
  others := []
  retired := []
  filterSafeSeq := startSeq
  reapedThroughSeq := startSeq
  checkpoint := none
  call := none
  earlier := earlier
  replies := []

inductive Action where
  /-- A step of the writers, the committer, the flushes or an ingestion. -/
  | commit (a : GroupCommit.Action)
  | ingestEnd (committed : Bool)
  | createLog (num : Nat)
  | rotate
  | rotateFail (err : Err) (removed : Bool)
  | record
  | abort
  | removeRetired (outcome : Removal)
  | reap (env : ReapEnv)
  | done
  | damage (num keep : Nat) (torn : Bool)
  | updatesBegin (since : Nat)
  | updatesRead (opens : Bool)
  | restart (sync retain : Bool) (startSeq num : Nat)

namespace State

def committed (s : State) : List WalEntry := s.earlier ++ s.core.trace.published.flatten

def segment (s : State) (num : Nat) : Option Segment :=
  if num = s.core.live.num then some s.core.live
  else s.others.find? fun seg => decide (seg.num = num)

def listLogs (s : State) : List Nat :=
  (s.core.live.num :: s.others.map (·.num)).insertionSort (· ≤ ·)

def dropFiles (s : State) (nums : List Nat) : State :=
  { s with others := s.others.filter fun seg => decide (seg.num ∉ nums) }

/-- The end of an ingestion: its sequence is not in the log. -/
def ingestEnd (s : State) (committed : Bool) : Option State :=
  (s.core.step (.ingestEnd committed)).map fun core =>
    match s.core.ingest, committed with
    | some (.published seq), true =>
      { s with
        core := core
        reapedThroughSeq := max s.reapedThroughSeq seq }
    | _, _ => { s with core := core }

/-- Retained files past both horizons go; the horizon moves below the first
sequence of the oldest one left. -/
def reapRetainedWAL (s : State) (env : ReapEnv) : State :=
  let cands := (s.listLogs.filter fun num => decide (num ≠ s.core.live.num)).filterMap fun num =>
    (env.stat num).map fun (size, mtime) => (⟨num, size, mtime⟩ : Candidate)
  let r := reapFiles env (cands.map (·.size)).sum cands []
  let oldest := r.1.getD s.core.live.num
  let first := firstSeqBefore (if env.opens oldest then (s.dropFiles r.2).segment oldest else none)
  { s.dropFiles r.2 with reapedThroughSeq := max s.reapedThroughSeq first }

/-- Below this sequence the log is not complete. -/
def horizon (s : State) : Nat :=
  if s.retain then s.reapedThroughSeq else max s.reapedThroughSeq s.filterSafeSeq

def reply (s : State) (since cutoff : Nat) (result : Except Err (List (List Update))) : State :=
  { s with
    call := none
    replies := s.replies ++ [⟨since, cutoff, result⟩] }

/-- The locked part of `GetUpdatesSince`. -/
def updatesBegin (s : State) (since : Nat) : State :=
  if since < s.horizon then s.reply since s.core.readSeq (.error .retentionExpired)
  else if s.core.readSeq ≤ since then s.reply since s.core.readSeq (.ok [])
  else { s with call := some ⟨since, s.core.readSeq, s.listLogs, since, []⟩ }

/-- Reads the next file to its end, or returns. -/
def updatesRead (s : State) (c : Call) (opens : Bool) : State :=
  match c.todo with
  | [] => s.reply c.since c.cutoff (c.finish (c.maxSeen, c.out))
  | num :: rest =>
    match if opens then s.segment num else none with
    | none => s.reply c.since c.cutoff (.error (.walOpenSegment num))
    | some seg =>
      match visitRecords false (decide (num ≠ s.core.live.num)) c.visit seg.tail
          (c.maxSeen, c.out) 0 seg.records with
      | .fail err => s.reply c.since c.cutoff (.error (.wrapped "wal: read updates" err))
      | .stop st => s.reply c.since c.cutoff (c.finish st)
      | .next st =>
        { s with call := some { c with
          todo := rest
          maxSeen := st.1
          out := st.2 } }

/-- Steps of the log that the checkpoint and the ingestion drive from here. -/
def Driven : GroupCommit.Action → Bool
  | .rotate _ => true
  | .rotateFail _ => true
  | .ingestEnd _ => true
  | _ => false

/-- Moves the log to the file created for it. -/
def rotate (s : State) (num : Nat) : Option State :=
  (s.core.step (.rotate num)).map fun core =>
    { s with
      core := core
      others := (s.others.filter fun seg => decide (seg.num ≠ num)) ++ [s.core.live]
      retired := s.retired ++ [s.core.live.num]
      checkpoint := some (.rotated s.core.readSeq) }

/-- The rotation fails, now or because the log is already poisoned. -/
def rotateFail (s : State) (num : Nat) (err : Err) (removed : Bool) : State :=
  let core := (s.core.step (.rotateFail err)).getD s.core
  let files := if removed then s.dropFiles [num] else s
  { files with
    core := core
    checkpoint := none }

/-- Removes the oldest retired file; a failure ends the checkpoint. -/
def removeRetired (s : State) (num : Nat) (rest : List Nat) : Removal → State
  | .removed => { s.dropFiles [num] with retired := rest }
  | .unsynced => { s.dropFiles [num] with checkpoint := none }
  | .kept => { s with checkpoint := none }

/-- The end of a checkpoint: its cutoff is safe to filter. -/
def finish (s : State) (cutoff : Nat) : State :=
  { s with
    filterSafeSeq := max s.filterSafeSeq cutoff
    checkpoint := none }

def step (s : State) : Action → Option State
  | .commit a =>
    if Driven a then none else (s.core.step a).map fun core => { s with core := core }
  | .ingestEnd committed => s.ingestEnd committed
  | .createLog num =>
    if s.checkpoint.isNone ∧ s.call.isNone ∧ ∀ n ∈ s.listLogs, n < num then
      some { s with
        others := s.others ++ [⟨num, [], .clean⟩]
        checkpoint := some (.created num) }
    else none
  | .rotate =>
    match s.checkpoint with
    | some (.created num) => s.rotate num
    | _ => none
  | .rotateFail err removed =>
    match s.checkpoint with
    | some (.created num) => some (s.rotateFail num err removed)
    | _ => none
  | .record =>
    match s.checkpoint with
    | some (.rotated cutoff) => some { s with checkpoint := some (.recorded cutoff) }
    | _ => none
  | .abort => if s.checkpoint.isSome then some { s with checkpoint := none } else none
  | .removeRetired outcome =>
    match s.checkpoint, s.retain, s.retired with
    | some (.recorded _), false, num :: rest => some (s.removeRetired num rest outcome)
    | _, _, _ => none
  | .reap env =>
    match s.checkpoint, s.retain with
    | some (.recorded cutoff), true =>
      some (({ s.reapRetainedWAL env with retired := [] } : State).finish cutoff)
    | _, _ => none
  | .done =>
    match s.checkpoint, s.retain, s.retired with
    | some (.recorded cutoff), false, [] => some (s.finish cutoff)
    | _, _, _ => none
  | .damage num keep torn =>
    some { s with others := s.others.map fun seg =>
      if seg.num = num then seg.damage keep (if torn then .torn else .corrupt) else seg }
  | .updatesBegin since =>
    if s.checkpoint.isNone ∧ s.call.isNone ∧ s.core.ingest.isNone then some (s.updatesBegin since)
    else none
  | .updatesRead opens => s.call.map fun c => s.updatesRead c opens
  | .restart sync retain startSeq num =>
    if startSeq ≤ maxIKeySeq then
      some (.start sync retain startSeq num
        (s.committed.filter fun e => decide (e.seq ≤ startSeq)))
    else none

end State

end Replication

end LevisDB
