import LevisDB.Engine.State
import LevisDB.Lib.Transition
import LevisDB.Storage.Manifest

/-!
# The catalog

Which tables and blob files a database consists of is decided by the manifest
that `CURRENT` names. This file is the part of the database that keeps it: the
files on disk, the in-memory table set and blob registry, the commits that are
appended to the manifest under `manMu`, the rotation to a fresh baseline, a crash
at any point and the next open. What the tables hold matters only through the
sequences in them.

An append writes its record and then syncs it; until the sync returns a crash may
keep the record or cut it. A rotation may follow any appended edit: the number of
edits that triggers it is left open. When the directory sync after the rename of
`CURRENT` fails, the new manifest is adopted and a crash may take the rename back;
the error that is latched then refuses later calls but nothing already under way,
and commits do not look at it. What a crash has left is durable.
-/

namespace LevisDB

namespace TableMeta

def seqs (t : TableMeta) : List Nat := t.points.map (·.seq) ++ t.rangeDels.map (·.seq)

/-- A table as a later session restores it: its bounds come from the manifest. -/
def recorded (t : TableMeta) : TableMeta :=
  { t with
    minKey := recordedBound t.minKey
    maxKey := recordedBound t.maxKey }

end TableMeta

namespace Catalog

/-- What the database appends to its manifest: a table replacement with the
sequence watermark loaded for it, a new recovery boundary, new blob files. -/
inductive Commit where
  | tables (inputs outputs : List TableMeta) (lastSeq : Nat)
  | boundary (num : Nat)
  | blobs (added : List BlobInfo)

namespace Commit

def edit : Commit → ManifestEdit
  | tables inputs outputs lastSeq => .tableChange lastSeq inputs outputs
  | boundary num => .replayLog num
  | blobs added => .blobAdd added

/-- The live tables once the commit is installed. -/
@[simp] def install (live : List TableMeta) : Commit → List TableMeta
  | tables inputs outputs _ =>
    (live.filter fun t => decide (t.num ∉ inputs.map (·.num))) ++ outputs
  | _ => live

@[simp] def moveBoundary (cur : Nat) : Commit → Nat
  | boundary num => num
  | _ => cur

@[simp] def addBlobs (live : List BlobInfo) : Commit → List BlobInfo
  | blobs added => live ++ added
  | _ => live

end Commit

def tablesAfter (cs : List Commit) : List TableMeta := cs.foldl Commit.install []

def boundaryAfter (cs : List Commit) : Nat := cs.foldl Commit.moveBoundary 0

def blobsAfter (cs : List Commit) : List BlobInfo := cs.foldl Commit.addBlobs []

/-- A manifest file: its synced records, and one written since. -/
structure ManifestFile where
  synced : List ManifestEdit
  unsynced : Option ManifestEdit

namespace ManifestFile

def edits (f : ManifestFile) : List ManifestEdit := f.synced ++ f.unsynced.toList

def write (e : ManifestEdit) (f : ManifestFile) : ManifestFile := { f with unsynced := some e }

def sync (f : ManifestFile) : ManifestFile := ⟨f.edits, none⟩

/-- A crash keeps the unsynced record or cuts it; the reader ignores a torn one. -/
def crash (kept : Bool) (f : ManifestFile) : ManifestFile :=
  if kept then f.sync else ⟨f.synced, none⟩

end ManifestFile

structure Disk where
  manifests : Nat → Option ManifestFile
  current : Option Nat
  tables : List TableMeta
  blobs : List (Nat × Bytes)

namespace Disk

def empty : Disk := ⟨fun _ => none, none, [], []⟩

def putManifest (d : Disk) (num : Nat) (f : Option ManifestFile) : Disk :=
  { d with manifests := Function.update d.manifests num f }

def updateManifest (d : Disk) (num : Nat) (f : ManifestFile → ManifestFile) : Disk :=
  d.putManifest num ((d.manifests num).map f)

def crash (kept : Bool) (d : Disk) : Disk :=
  { d with manifests := fun n => (d.manifests n).map (·.crash kept) }

def setCurrent (d : Disk) (num : Nat) : Disk := { d with current := some num }

/-- The record at the end of the current manifest that a crash may still cut. -/
def unsynced (d : Disk) : Option ManifestEdit :=
  (d.current.bind d.manifests).bind (·.unsynced)

/-- What `load` reads back; without a `CURRENT` the database is new. -/
def readState (d : Disk) : Except Err ManifestState :=
  match d.current with
  | none => .ok .empty
  | some num =>
    match d.manifests num with
    | none => .error (.noSuchFile num)
    | some f => replayManifestFile f.edits

def restoreTable (d : Disk) (i : TableInfo) : Except Err TableMeta :=
  match d.tables.find? fun t => decide (t.num = i.num) with
  | none => .error (.noSuchFile i.num)
  | some t =>
    if t.size ≠ i.size then .error (.manifestSizeMismatch i.num i.size t.size)
    else .ok ⟨i.num, i.depth, t.reader, i.size, i.minKey, i.maxKey, i.entries, i.tombstones⟩

def restoreTables (d : Disk) (st : ManifestState) : Except Err (List TableMeta) :=
  (st.tables.insertionSort fun a b => a.num ≤ b.num).mapM d.restoreTable

/-- The number the allocator of the next session starts from. -/
def highestFileNum (d : Disk) (st : ManifestState) (logs : List Nat) : Nat :=
  (st.tables.map (·.num) ++ logs ++ d.tables.map (·.num) ++ d.blobs.map (·.1) ++
    d.current.toList).foldl max 0

end Disk

/-- Who replaces tables: a flush or compaction, which holds `flushMu`, or an
ingestion, which holds `db.mu`. -/
inductive Committer where
  | engine
  | ingest
  deriving DecidableEq

/-- A table change under way: the tables it replaces, those it has written, and
the watermark of its edit once that is loaded. -/
structure Job where
  inputs : List TableMeta
  outputs : List TableMeta
  lastSeq : Option Nat

inductive Holder where
  | tables (who : Committer)
  | checkpoint
  | blobs

/-- How far the holder of `manMu` has come. `failed` is the writer after an append
error, which it never leaves. -/
inductive ManMu where
  | free
  | appending (holder : Holder) (c : Commit)
  | appended
  | rotating (num : Nat)
  | switched (old : Nat)
  | failed

structure Session where
  alloc : Nat
  walSeq : Nat
  /-- The highest sequence the memtables have been given. -/
  applied : Nat
  /-- The sequence of an ingestion under way. -/
  ingestSeq : Option Nat
  /-- The manifest being appended to, none while recovery runs. -/
  man : Option Nat
  /-- The log segment being written, none before `openWAL`. -/
  wal : Option Nat
  replayLogNum : Nat
  /-- Whether `Open` has returned. -/
  ready : Bool
  tables : List TableMeta
  liveBlobs : List BlobInfo
  /-- Blob files that are complete and not registered. -/
  sealedBlobs : List BlobInfo
  /-- The files of a `commitBlobAdd` that has registered them and not yet reached
  the manifest. -/
  registering : Option (List BlobInfo)
  jobs : Committer → Option Job
  /-- Replaced tables whose files are still there. -/
  retired : List Nat
  manMu : ManMu

namespace Session

def setJob (s : Session) (who : Committer) (job : Option Job) : Session :=
  { s with jobs := Function.update s.jobs who job }

/-- A flush writes what the memtables hold, a compaction what its inputs hold, an
ingestion one table at its own sequence. -/
def MayWrite (s : Session) (job : Job) (t : TableMeta) : Committer → Prop
  | .engine =>
    if job.inputs = [] then ∀ q ∈ t.seqs, q ≤ s.applied
    else ∀ q ∈ t.seqs, ∃ i ∈ job.inputs, q ∈ i.seqs
  | .ingest => job.outputs = [] ∧ ∀ q ∈ t.seqs, s.ingestSeq = some q

instance (s : Session) (job : Job) (t : TableMeta) :
    (who : Committer) → Decidable (s.MayWrite job t who)
  | .engine =>
    if h : job.inputs = [] then
      decidable_of_iff (∀ q ∈ t.seqs, q ≤ s.applied) (by simp [MayWrite, h])
    else
      decidable_of_iff (∀ q ∈ t.seqs, ∃ i ∈ job.inputs, q ∈ i.seqs) (by simp [MayWrite, h])
  | .ingest => inferInstanceAs (Decidable (_ ∧ _))

end Session

/-- `liveBlobs[b.Num] = b.Size` for every new file. -/
def registerBlobs (live added : List BlobInfo) : List BlobInfo :=
  added.foldl (fun live b => (live.filter fun b' => decide (b'.num ≠ b.num)) ++ [b]) live

inductive Action where
  /-- A writer reserves sequences; the memtables receive those up to one. -/
  | reserve (n : Nat)
  | apply (seq : Nat)
  /-- Recovery puts a logged entry into the memtables. -/
  | replay (seq : Nat)
  /-- A file number is taken for a file that does not matter here. -/
  | allocate
  | sealBlob (content : Bytes)
  /-- A flush begins (no numbers) or a compaction of these tables. -/
  | start (nums : List Nat)
  | ingestReserve
  | build (who : Committer) (t : TableMeta)
  | loadSeq (who : Committer)
  | abort (who : Committer)
  | commit (who : Committer)
  | register
  | commitBlobs
  | rotateWAL
  | commitBoundary
  | sync
  | syncFail
  | release
  | rotateWrite
  | rotateFail
  | rotateSwitch
  /-- The rename is visible and its directory sync has failed. -/
  | rotateAdopt
  | rotateRemove
  | removeTable (num : Nat)
  | openWAL
  | cleanManifest (num : Nat)
  | cleanTable (num : Nat)
  | cleanBlob (num : Nat)
  | opened
  | crash (kept : Bool)
  /-- A crash after which `CURRENT` names this manifest again. -/
  | fallBack (kept : Bool) (num : Nat)
  | load (logs : List Nat)

/-- An open database, with the commits it has reported and those it has begun. -/
structure Running where
  disk : Disk
  s : Session
  acked : List Commit
  pending : List Commit
  /-- The manifests that `CURRENT` may name again after a crash, each with the
  commits it holds. -/
  fallbacks : List (Nat × List Commit)

inductive World where
  | down (disk : Disk) (acked : List Commit)
  | up (r : Running)

namespace Running

/-- Writes the record of a commit; it is synced later. -/
def append (r : Running) (man : Nat) (holder : Holder) (c : Commit) : Running :=
  { r with
    disk := r.disk.updateManifest man (·.write c.edit)
    s := { r.s with manMu := .appending holder c }
    pending := r.pending ++ [c] }

/-- A flush commits all its blob files before its table. -/
def BlobsDone (s : Session) : Committer → Prop
  | .engine => s.sealedBlobs = [] ∧ s.registering = none
  | .ingest => True

instance (s : Session) : (who : Committer) → Decidable (BlobsDone s who)
  | .engine => inferInstanceAs (Decidable (_ ∧ _))
  | .ingest => inferInstanceAs (Decidable True)

/-- `commitTableChange` once the watermark is loaded: during recovery there is no
manifest and the change is installed at once. -/
def commitTables (r : Running) (who : Committer) (c : Commit) : Option Running :=
  match r.s.man, r.s.manMu with
  | none, .free =>
    some { r with
      s := { r.s.setJob who none with tables := c.install r.s.tables }
      pending := r.pending ++ [c] }
  | some man, .free => some (r.append man (.tables who) c)
  | _, _ => none

def commit (r : Running) (who : Committer) : Option Running :=
  match r.s.jobs who with
  | some ⟨inputs, outputs, some lastSeq⟩ =>
    r.commitTables who (.tables inputs outputs lastSeq)
  | _ => none

def registered (s : Session) : Session :=
  { s with
    liveBlobs := registerBlobs s.liveBlobs s.sealedBlobs
    sealedBlobs := [] }

/-- The first critical section of `commitBlobAdd`, called with every blob file of
the flush. -/
def register (r : Running) : Option Running :=
  if r.s.registering = none ∧ r.s.sealedBlobs ≠ [] then
    match r.s.man with
    | none =>
      some { r with
        s := registered r.s
        pending := r.pending ++ [.blobs r.s.sealedBlobs] }
    | some _ => some { r with s := { registered r.s with registering := some r.s.sealedBlobs } }
  else none

/-- A synced record is installed, and the commit reported. -/
def finish (r : Running) (holder : Holder) (c : Commit) : Session :=
  match holder, c with
  | .tables who, .tables inputs _ _ =>
    { r.s.setJob who none with
      tables := c.install r.s.tables
      retired := r.s.retired ++ inputs.map (·.num)
      ingestSeq := if who = .ingest then none else r.s.ingestSeq
      manMu := .appended }
  | .checkpoint, .boundary num => { r.s with replayLogNum := num, manMu := .appended }
  | .blobs, _ => { r.s with registering := none, manMu := .appended }
  | _, _ => { r.s with manMu := .appended }

def sync (r : Running) : Option Running :=
  match r.s.manMu, r.s.man with
  | .appending holder c, some man =>
    some ⟨r.disk.updateManifest man (·.sync), r.finish holder c, r.acked ++ r.pending, [],
      r.fallbacks⟩
  | _, _ => none

/-- `newManifestWithBaseline`. -/
def baseline (s : Session) : ManifestFile :=
  ⟨[.identity, .baseline s.walSeq s.replayLogNum s.tables s.liveBlobs], none⟩

/-- Whether a baseline may be written: at the end of recovery, or behind an edit. -/
def MayRotate (s : Session) : Prop :=
  match s.man, s.manMu with
  | none, .free => s.wal ≠ none
  | some _, .appended => True
  | _, _ => False

instance (s : Session) : Decidable (MayRotate s) := by
  unfold MayRotate
  split <;> infer_instance

def rotateWrite (r : Running) : Option Running :=
  if MayRotate r.s then
    match allocNext r.s.alloc with
    | none => none
    | some num =>
      some { r with
        disk := r.disk.putManifest num (some (baseline r.s))
        s := { r.s with alloc := num, manMu := .rotating num } }
  else none

def rotateSwitch (r : Running) : Option Running :=
  match r.s.manMu with
  | .rotating num =>
    some ⟨r.disk.setCurrent num,
      { r.s with
        man := some num
        manMu := match r.s.man with
          | none => .free
          | some old => .switched old },
      r.acked ++ r.pending, [], []⟩
  | _ => none

/-- `maybeRotateManifest` when `setCurrent` fails with the new manifest installed:
the old one is kept. `openManifest` gives up there, as in a crash. -/
def rotateAdopt (r : Running) : Option Running :=
  match r.s.manMu, r.s.man with
  | .rotating num, some old =>
    some { r with
      disk := r.disk.setCurrent num
      s := { r.s with man := some num, manMu := .free }
      fallbacks := r.fallbacks ++ [(old, r.acked)] }
  | _, _ => none

def Appending (s : Session) (who : Committer) : Prop :=
  match s.manMu with
  | .appending (.tables who') _ => who' = who
  | _ => False

instance (s : Session) (who : Committer) : Decidable (Appending s who) := by
  unfold Appending
  split <;> infer_instance

/-- A table change that fails. An ingestion that has written nothing returns its
sequence; a failed recovery is not continued. -/
def abort (r : Running) (who : Committer) : Option Running :=
  match who, r.s.jobs who with
  | .engine, some _ =>
    if r.s.ready = true then
      some { r with s := { r.s.setJob .engine none with sealedBlobs := [] } }
    else none
  | .ingest, some job =>
    some { r with
      s := { r.s.setJob .ingest none with
        ingestSeq := none
        walSeq := if job.outputs = [] then r.s.walSeq - 1 else r.s.walSeq } }
  | _, none => none

def build (r : Running) (who : Committer) (t : TableMeta) : Option Running :=
  match r.s.jobs who, allocNext r.s.alloc with
  | some job, some num =>
    if t.num = num ∧ job.lastSeq = none ∧ r.s.MayWrite job t who then
      some { r with
        disk := { r.disk with tables := r.disk.tables ++ [t] }
        s := { r.s.setJob who (some { job with outputs := job.outputs ++ [t] }) with
          alloc := num } }
    else none
  | _, _ => none

def loadSeq (r : Running) (who : Committer) : Option Running :=
  match r.s.jobs who with
  | some job =>
    if job.lastSeq = none ∧ BlobsDone r.s who then
      some { r with s := r.s.setJob who (some { job with lastSeq := some r.s.walSeq }) }
    else none
  | none => none

/-- Recovery only flushes; once the log is open nothing is flushed until `Open`
returns. -/
def MayStart (s : Session) (nums : List Nat) : Prop :=
  (s.jobs .engine).isNone ∧ (s.ready = true ∨ (s.wal = none ∧ nums = []))

instance (s : Session) (nums : List Nat) : Decidable (MayStart s nums) :=
  inferInstanceAs (Decidable (_ ∧ _))

def start (r : Running) (nums : List Nat) : Option Running :=
  if MayStart r.s nums then
    let inputs := r.s.tables.filter fun t => decide (t.num ∈ nums)
    some { r with s := r.s.setJob .engine (some ⟨inputs, [], none⟩) }
  else none

def sealBlob (r : Running) (content : Bytes) : Option Running :=
  match r.s.jobs .engine, allocNext r.s.alloc with
  | some ⟨_, _, none⟩, some num =>
    some { r with
      disk := { r.disk with blobs := r.disk.blobs ++ [(num, content)] }
      s := { r.s with
        alloc := num
        sealedBlobs := r.s.sealedBlobs ++ [⟨num, content.length⟩] } }
  | _, _ => none

/-- The segment of a new session; the baseline to come excludes all earlier ones. -/
def openWAL (r : Running) : Option Running :=
  match r.s.wal, r.s.jobs .engine, allocNext r.s.alloc with
  | none, none, some num =>
    some { r with
      s := { r.s with
        alloc := num
        wal := some num
        replayLogNum := num }
      pending := r.pending ++ [.boundary num] }
  | _, _, _ => none

/-- `load` has switched to its own manifest and removes what that does not name. -/
def Cleaning (s : Session) : Prop := s.man ≠ none ∧ s.ready = false

instance (s : Session) : Decidable (Cleaning s) := inferInstanceAs (Decidable (_ ∧ _))

def step (r : Running) : Action → Option Running
  | .reserve n =>
    if r.s.ready = true ∧ r.s.ingestSeq = none ∧ r.s.walSeq + n ≤ maxIKeySeq then
      some { r with s := { r.s with walSeq := r.s.walSeq + n } }
    else none
  | .apply seq =>
    if r.s.ready = true ∧ r.s.ingestSeq = none ∧ seq ≤ r.s.walSeq then
      some { r with s := { r.s with applied := max r.s.applied seq } }
    else none
  | .replay seq =>
    if r.s.wal = none ∧ seq ≤ maxIKeySeq then
      some { r with s := { r.s with
        walSeq := max r.s.walSeq seq
        applied := max r.s.applied seq } }
    else none
  | .allocate => (allocNext r.s.alloc).map fun num => { r with s := { r.s with alloc := num } }
  | .sealBlob content => r.sealBlob content
  | .start nums => r.start nums
  | .ingestReserve =>
    if r.s.ready = true ∧ r.s.ingestSeq = none ∧ r.s.walSeq + 1 ≤ maxIKeySeq then
      some { r with s := { r.s.setJob .ingest (some ⟨[], [], none⟩) with
        walSeq := r.s.walSeq + 1
        ingestSeq := some (r.s.walSeq + 1) } }
    else none
  | .build who t => r.build who t
  | .loadSeq who => r.loadSeq who
  | .abort who => if Appending r.s who then none else r.abort who
  | .commit who => r.commit who
  | .register => r.register
  | .commitBlobs =>
    match r.s.registering, r.s.man, r.s.manMu with
    | some added, some man, .free => some (r.append man .blobs (.blobs added))
    | _, _, _ => none
  | .rotateWAL =>
    if r.s.ready = true then
      (allocNext r.s.alloc).map fun num =>
        { r with s := { r.s with alloc := num, wal := some num } }
    else none
  | .commitBoundary =>
    match r.s.wal, r.s.man, r.s.manMu with
    | some num, some man, .free =>
      if r.s.ready = true then some (r.append man .checkpoint (.boundary num)) else none
    | _, _, _ => none
  | .sync => r.sync
  | .syncFail =>
    match r.s.manMu with
    | .appending _ _ => some { r with s := { r.s with manMu := .failed } }
    | _ => none
  | .release =>
    match r.s.manMu with
    | .appended => some { r with s := { r.s with manMu := .free } }
    | _ => none
  | .rotateWrite => r.rotateWrite
  | .rotateFail =>
    match r.s.manMu, r.s.man with
    | .rotating num, some _ =>
      some { r with
        disk := r.disk.putManifest num none
        s := { r.s with manMu := .free } }
    | _, _ => none
  | .rotateSwitch => r.rotateSwitch
  | .rotateAdopt => r.rotateAdopt
  | .rotateRemove =>
    match r.s.manMu with
    | .switched old =>
      some { r with
        disk := r.disk.putManifest old none
        s := { r.s with manMu := .free } }
    | _ => none
  | .removeTable num =>
    if num ∈ r.s.retired then
      some { r with disk := { r.disk with
        tables := r.disk.tables.filter fun t => decide (t.num ≠ num) } }
    else none
  | .openWAL => r.openWAL
  | .cleanManifest num =>
    if Cleaning r.s ∧ r.s.man ≠ some num then
      some { r with disk := r.disk.putManifest num none }
    else none
  | .cleanTable num =>
    if Cleaning r.s ∧ ∀ t ∈ r.s.tables, t.num ≠ num then
      some { r with disk := { r.disk with
        tables := r.disk.tables.filter fun t => decide (t.num ≠ num) } }
    else none
  | .cleanBlob num =>
    if Cleaning r.s ∧ ∀ b ∈ r.s.liveBlobs, b.num ≠ num then
      some { r with disk := { r.disk with
        blobs := r.disk.blobs.filter fun b => decide (b.1 ≠ num) } }
    else none
  | .opened => if r.s.man ≠ none then some { r with s := { r.s with ready := true } } else none
  | .crash _ | .fallBack _ _ | .load _ => none

def survivors (r : Running) (kept : Bool) : List Commit :=
  match r.disk.unsynced with
  | some _ => if kept then r.acked ++ r.pending else r.acked
  | none => r.acked

end Running

/-- The session `load` starts, before it replays the log. -/
def Disk.newSession (d : Disk) (st : ManifestState) (logs : List Nat) (tables : List TableMeta) :
    Session where
  alloc := d.highestFileNum st logs
  walSeq := st.lastSeq
  applied := 0
  ingestSeq := none
  man := none
  wal := none
  replayLogNum := st.replayLogNum
  ready := false
  tables := tables
  liveBlobs := st.blobs
  sealedBlobs := []
  registering := none
  jobs := fun _ => none
  retired := []
  manMu := .free

def load (d : Disk) (logs : List Nat) : Except Err Session := do
  let st ← d.readState
  let tables ← d.restoreTables st
  pure (d.newSession st logs tables)

def step : World → Action → Option World
  | .up r, .crash kept => some (.down (r.disk.crash kept) (r.survivors kept))
  | .up r, .fallBack kept num =>
    (r.fallbacks.lookup num).map fun cs => .down ((r.disk.crash kept).setCurrent num) cs
  | .up r, a => (r.step a).map .up
  | .down d acked, .load logs =>
    match load d logs with
    | .ok s => some (.up ⟨d, s, acked, [], []⟩)
    | .error _ => none
  | .down _ _, _ => none

def init : World := .down .empty []

end Catalog

end LevisDB
