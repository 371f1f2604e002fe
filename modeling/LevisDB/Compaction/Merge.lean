import LevisDB.Compaction.Scope
import LevisDB.Engine.Read
import LevisDB.Lib.KMerge

/-!
# Merging tables

`writeMerged` walks the merged input in internal-key order and decides for each
entry whether it is a duplicate, too old to be seen, hidden by a carried range
tombstone, a tombstone nothing needs any more, or to be written. Written entries
go to output tables that roll at user-key boundaries; carried range tombstones
are attached to the first output.
-/

namespace LevisDB

/-- The filter may judge this entry: it is set and the entry's WAL is retired. -/
def filterSafe (cc : CompactionConfig) (seq : Nat) : Bool :=
  decide (cc.filterThrough = 0) || decide (seq ≤ cc.filterThrough)

def Entry.asTombstone (e : Entry) : Entry := ⟨⟨e.user, e.seq, .delete⟩, []⟩

/-- The value bytes and deadline an entry shows to a filter, none when it expired
at the cutoff. -/
def filterView (resolve : BlobPointer → Except Err Bytes) (cc : CompactionConfig) (e : Entry)
    (now : Time) : Except Err (Option (Bytes × Time)) :=
  match e.kind with
  | .blobRef =>
    match decodeBlobPointer e.value with
    | .error err => .error (.wrapped "compaction" err)
    | .ok ptr =>
      if ptr.expiresAt ≠ 0 ∧ ptr.expiresAt ≤ now then .ok none
      else if cc.filter.isSome ∧ filterSafe cc e.seq = true then
        (resolve ptr).map fun value => some (value, ptr.expiresAt)
      else .ok (some (e.value, ptr.expiresAt))
  | .setTTL =>
    match decodeExpiringValue e.value with
    | .error err => .error (.wrapped "compaction" err)
    | .ok (value, expiresAt) =>
      if expiresAt ≤ now then .ok none else .ok (some (value, expiresAt))
  | _ => .ok (some (e.value, 0))

/-- Applies expiry and the filter: the entry to write, a tombstone when the value
expired or the filter discards it. -/
def resolveCompactionEntry (resolve : BlobPointer → Except Err Bytes) (cc : CompactionConfig)
    (e : Entry) (now : Time) : Except Err Entry := do
  match ← filterView resolve cc e now with
  | none => pure e.asTombstone
  | some (value, expiresAt) =>
    match cc.filter with
    | none => pure e
    | some filter =>
      if e.kind ≠ .delete ∧ filterSafe cc e.seq = true then
        let keep ← filter e.user value expiresAt
        pure (if keep then e else e.asTombstone)
      else pure e

/-- The configuration the duplicate check resolves under: no filter. -/
def noFilterConfig : CompactionConfig :=
  ⟨0, 0, 0, 0, 0, 0, none, 0, 0, false, false, false⟩

/-- Accepts a second entry at the key and sequence of `last`: the same record, or
the tombstone the expired value of `last` was compacted into. -/
def checkSameSeqDuplicate (last e : Entry) (now : Time) : Except Err Unit :=
  if e.kind ≠ last.kind then
    match resolveCompactionEntry (fun _ => .error .nilBlobPath) noFilterConfig last now with
    | .ok expired =>
      if e.kind = expired.kind ∧ e.value = expired.value then .ok ()
      else .error (.compactionConflictingKinds e.seq)
    | .error _ => .error (.compactionConflictingKinds e.seq)
  else if e.value ≠ last.value then .error (.compactionConflictingValues e.seq)
  else .ok ()

/-- The cutoff a merge judges deadlines by: `ExpireBefore`, or the clock when it is unset. -/
def CompactionConfig.expiry (cc : CompactionConfig) (now : Time) : Time :=
  if cc.expireBefore = 0 then now else cc.expireBefore

/-- What a merge is told: the output tier, what it may reclaim, and the range
tombstones of its inputs. -/
structure MergeWrite where
  depth : Nat
  dropTombstones : Bool
  noDeeperTier : Option (Key → Bool)
  retainSeq : Nat
  cc : CompactionConfig
  now : Time
  rangeDels : List RangeTombstone

namespace MergeWrite

/-- Tombstones and dead versions of this key can be dropped here. -/
def reclaims (mw : MergeWrite) (user : Key) : Bool :=
  match mw.noDeeperTier with
  | some p => p user
  | none => mw.dropTombstones

def expiry (mw : MergeWrite) : Time := mw.cc.expiry mw.now

end MergeWrite

/-- The loop state: the last entry that was not skipped, and whether a version of
its key at or below the watermark is already decided. -/
structure KeyState where
  last : Option Entry
  droppedBelow : Bool
  deriving DecidableEq

/-- The decision on a version that is neither a duplicate nor superseded. -/
def decideVersion (resolve : BlobPointer → Except Err Bytes) (mw : MergeWrite)
    (droppedBelow : Bool) (e : Entry) : Except Err (KeyState × Option Entry) :=
  if mw.reclaims e.user = true ∧
      e.seq < maxCoveringRangeDelSeqLE mw.rangeDels e.user mw.retainSeq then
    .ok (⟨some e, true⟩, none)
  else do
    let w ← resolveCompactionEntry resolve mw.cc e mw.expiry
    if mw.reclaims e.user = true ∧ w.kind = .delete ∧ e.seq ≤ mw.retainSeq then
      pure (⟨some e, true⟩, none)
    else
      pure (⟨some e, if e.seq ≤ mw.retainSeq then true else droppedBelow⟩, some w)

/-- One round of the merge loop: the next loop state and the entry to write. -/
def mergeStep (resolve : BlobPointer → Except Err Bytes) (mw : MergeWrite) (ks : KeyState)
    (e : Entry) : Except Err (KeyState × Option Entry) :=
  match ks.last with
  | none => decideVersion resolve mw false e
  | some last =>
    if last.user ≠ e.user then decideVersion resolve mw false e
    else if e.seq = last.seq then
      (checkSameSeqDuplicate last e mw.expiry).map fun _ => (ks, none)
    else if e.seq < mw.retainSeq ∧ ks.droppedBelow = true then .ok (ks, none)
    else decideVersion resolve mw ks.droppedBelow e

def collapse (resolve : BlobPointer → Except Err Bytes) (mw : MergeWrite) :
    KeyState → List Entry → Except Err (List Entry)
  | _, [] => .ok []
  | ks, e :: es => do
      let (ks', w) ← mergeStep resolve mw ks e
      let rest ← collapse resolve mw ks' es
      pure (w.toList ++ rest)

def rangeDelsToPersist (rts : List RangeTombstone) (dropAtBottom : Bool) (retainSeq : Nat) :
    List RangeTombstone :=
  if dropAtBottom = false then rts else rts.filter fun rt => decide (retainSeq < rt.seq)

/-- Where written entries go: the open output, the finished tables, and the range
tombstones not yet attached to one. -/
structure CompactionSink where
  alloc : Nat
  out : Option (Nat × TableWriter)
  metas : List TableMeta
  pendingRangeDels : List RangeTombstone

namespace CompactionSink

variable (fmt : TableFormat) (mw : MergeWrite)

def start (s : CompactionSink) : Except Err CompactionSink :=
  match allocNext s.alloc with
  | none => .error .fileNumberExhausted
  | some num => .ok { s with alloc := num, out := some (num, .new) }

/-- Closes the open output, attaching the pending range tombstones to it. -/
def finish (s : CompactionSink) : CompactionSink :=
  match s.out with
  | none => s
  | some (num, w) =>
    { s with
      out := none
      metas := s.metas ++ [finishTable fmt mw.cc.bloomBits num mw.depth w s.pendingRangeDels]
      pendingRangeDels := [] }

def rollIfNeeded (s : CompactionSink) : CompactionSink :=
  match s.out with
  | some (_, w) =>
    if mw.cc.targetFileSize mw.depth ≤ fmt.projected w.added then s.finish fmt mw else s
  | none => s

def add (s : CompactionSink) (e : Entry) : Except Err CompactionSink := do
  let s ← match s.out with
    | none => s.start
    | some _ => pure s
  match s.out with
  | none => pure s
  | some (num, w) =>
    let w ← w.add e
    pure { s with out := some (num, w) }

def write (s : CompactionSink) : Option Entry → Except Err CompactionSink
  | none => .ok s
  | some e => s.add e

/-- Carried range tombstones need an output even when no point was written. -/
def startCarrier (s : CompactionSink) : Except Err CompactionSink :=
  if s.pendingRangeDels ≠ [] ∧ s.out.isNone then s.start else .ok s

end CompactionSink

/-- The merge loop: roll at a new user key, decide, write. -/
def mergeLoop (fmt : TableFormat) (resolve : BlobPointer → Except Err Bytes) (mw : MergeWrite) :
    KeyState → CompactionSink → List Entry → Except Err CompactionSink
  | _, sink, [] => .ok sink
  | ks, sink, e :: es => do
      let sink := if ks.last.map (·.user) = some e.user then sink else sink.rollIfNeeded fmt mw
      let (ks', w) ← mergeStep resolve mw ks e
      let sink ← sink.write w
      mergeLoop fmt resolve mw ks' sink es

/-- Writes the merged input; the finished tables and the last file number used. -/
def writeMerged (fmt : TableFormat) (resolve : BlobPointer → Except Err Bytes) (mw : MergeWrite)
    (alloc : Nat) (merged : List Entry × Option Err) : Except Err (List TableMeta × Nat) := do
  let pending := rangeDelsToPersist mw.rangeDels (mw.dropTombstones && mw.noDeeperTier.isNone)
    mw.retainSeq
  let sink ← mergeLoop fmt resolve mw ⟨none, false⟩ ⟨alloc, none, [], pending⟩ merged.1
  match merged.2 with
  | some err => .error err
  | none =>
    let sink ← sink.startCarrier
    let sink := sink.finish fmt mw
    pure (sink.metas, sink.alloc)

end LevisDB
