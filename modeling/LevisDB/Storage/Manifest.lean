import LevisDB.Storage.Table

/-!
# The manifest

The manifest is an append-only log of edits to the live table set. Replaying it
rebuilds the tables, the blob files, the sequence watermark and the first log
still needed for recovery; an edit that reuses a file number, deletes something
unknown or moves the recovery boundary back is rejected. An edit that fits the
state it is appended to replays to exactly the change it records.
-/

namespace LevisDB

open List LevisDB.Except

structure TableInfo where
  num : Nat
  depth : Nat
  size : Nat
  minKey : Option Key
  maxKey : Option Key
  entries : Nat
  tombstones : Nat
  deriving DecidableEq

structure BlobInfo where
  num : Nat
  size : Nat
  deriving DecidableEq

/-- One atomic change. A zero `replayLogNum` leaves the recovery boundary alone. -/
structure ManifestEdit where
  hasIdentity : Bool
  lastSeq : Option Nat
  replayLogNum : Nat
  added : List TableInfo
  deleted : List Nat
  addedBlobs : List BlobInfo
  deletedBlobs : List Nat
  deriving DecidableEq

/-- What a replay knows after some edits. Every number ever seen is remembered,
not only those still live. -/
structure ManifestState where
  haveIdentity : Bool
  replayLogNum : Nat
  lastSeq : Nat
  tables : List TableInfo
  blobs : List BlobInfo
  seenTableNums : List Nat
  seenBlobNums : List Nat
  deriving DecidableEq

namespace ManifestState

def empty : ManifestState := ⟨false, 0, 0, [], [], [], []⟩

def checkIdentity (st : ManifestState) (e : ManifestEdit) : Except Err ManifestState :=
  if e.hasIdentity = true ∧ st.haveIdentity = true then .error .manifestRepeatedIdentity
  else if e.hasIdentity = false ∧ st.haveIdentity = false then .error .manifestMissingIdentity
  else .ok { st with haveIdentity := true }

def recordLastSeq (st : ManifestState) (e : ManifestEdit) : ManifestState :=
  { st with lastSeq := max st.lastSeq (e.lastSeq.getD 0) }

def recordReplayLog (st : ManifestState) (e : ManifestEdit) : Except Err ManifestState :=
  if e.replayLogNum = 0 then .ok st
  else if e.replayLogNum < st.replayLogNum then .error .manifestRegressingLog
  else .ok { st with replayLogNum := e.replayLogNum }

def addTable (st : ManifestState) (t : TableInfo) : Except Err ManifestState :=
  if t.num = 0 then .error .manifestTableZero
  else if t.num ∈ st.seenTableNums then .error (.manifestTableReused t.num)
  else .ok { st with tables := st.tables ++ [t], seenTableNums := st.seenTableNums ++ [t.num] }

def deleteTable (st : ManifestState) (num : Nat) : Except Err ManifestState :=
  if ∃ t ∈ st.tables, t.num = num then
    .ok { st with tables := st.tables.filter fun t => decide (t.num ≠ num) }
  else .error (.manifestUnknownTable num)

def addBlob (st : ManifestState) (b : BlobInfo) : Except Err ManifestState :=
  if b.num ∈ st.seenBlobNums then .error (.manifestBlobReused b.num)
  else .ok { st with blobs := st.blobs ++ [b], seenBlobNums := st.seenBlobNums ++ [b.num] }

def deleteBlob (st : ManifestState) (num : Nat) : Except Err ManifestState :=
  if ∃ b ∈ st.blobs, b.num = num then
    .ok { st with blobs := st.blobs.filter fun b => decide (b.num ≠ num) }
  else .error (.manifestUnknownBlob num)

def applyEdit (st : ManifestState) (e : ManifestEdit) : Except Err ManifestState := do
  let st ← st.checkIdentity e
  let st ← (st.recordLastSeq e).recordReplayLog e
  let st ← e.added.foldlM addTable st
  let st ← e.deleted.foldlM deleteTable st
  let st ← e.addedBlobs.foldlM addBlob st
  e.deletedBlobs.foldlM deleteBlob st

end ManifestState

def replayManifestFile (edits : List ManifestEdit) : Except Err ManifestState := do
  let st ← edits.foldlM ManifestState.applyEdit .empty
  if st.haveIdentity = true then pure st else .error .manifestMissingIdentity

/-- A bound as it survives the record: an empty one reads back as unknown. -/
def recordedBound : Option Key → Option Key
  | some [] => none
  | bound => bound

def TableMeta.info (t : TableMeta) : TableInfo :=
  ⟨t.num, t.depth, t.size, recordedBound t.minKey, recordedBound t.maxKey, t.entries, t.tombstones⟩

namespace ManifestEdit

def identity : ManifestEdit := ⟨true, none, 0, [], [], [], []⟩

def tableChange (walSeq : Nat) (inputs outputs : List TableMeta) : ManifestEdit :=
  ⟨false, some walSeq, 0, outputs.map (·.info), inputs.map (·.num), [], []⟩

def blobAdd (added : List BlobInfo) : ManifestEdit := ⟨false, none, 0, [], [], added, []⟩

def replayLog (num : Nat) : ManifestEdit := ⟨false, none, num, [], [], [], []⟩

def baseline (walSeq replayLogNum : Nat) (tables : List TableMeta) (blobs : List BlobInfo) :
    ManifestEdit :=
  ⟨false, some walSeq, replayLogNum, tables.map (·.info), [], blobs, []⟩

end ManifestEdit

namespace ManifestState

variable {st : ManifestState}

theorem foldlM_addTable {ts : List TableInfo} (hpos : ∀ t ∈ ts, t.num ≠ 0)
    (hnodup : (ts.map (·.num)).Nodup) (hfresh : ∀ t ∈ ts, t.num ∉ st.seenTableNums) :
    ts.foldlM addTable st = .ok { st with
      tables := st.tables ++ ts
      seenTableNums := st.seenTableNums ++ ts.map (·.num) } := by
  induction ts generalizing st with
  | nil => simp [pure, Except.pure]
  | cons t ts ih =>
    have hnum := hpos t mem_cons_self
    have hseen := hfresh t mem_cons_self
    rw [map_cons, nodup_cons] at hnodup
    rw [foldlM_cons, addTable, if_neg hnum, if_neg hseen, ok_bind,
      ih (fun u hu => hpos u (mem_cons_of_mem t hu)) hnodup.2]
    · simp
    · intro u hu hmem
      rcases mem_append.1 hmem with hmem | hmem
      · exact hfresh u (mem_cons_of_mem t hu) hmem
      · exact hnodup.1 (mem_singleton.1 hmem ▸ mem_map.2 ⟨u, hu, rfl⟩)

theorem foldlM_deleteTable {nums : List Nat} (hnodup : nums.Nodup)
    (hlive : ∀ n ∈ nums, ∃ t ∈ st.tables, t.num = n) :
    nums.foldlM deleteTable st = .ok { st with
      tables := st.tables.filter fun t => decide (t.num ∉ nums) } := by
  induction nums generalizing st with
  | nil => simp [pure, Except.pure]
  | cons n nums ih =>
    rw [nodup_cons] at hnodup
    rw [foldlM_cons, deleteTable, if_pos (hlive n mem_cons_self), ok_bind,
      ih hnodup.2]
    · simp only [filter_filter, mem_cons, not_or, ne_eq, Bool.decide_and]
      congr 2
      exact filter_congr fun t _ => Bool.and_comm _ _
    · intro m hm
      obtain ⟨t, ht, htm⟩ := hlive m (mem_cons_of_mem n hm)
      refine ⟨t, mem_filter.2 ⟨ht, ?_⟩, htm⟩
      rw [decide_eq_true_iff]
      rintro rfl
      exact hnodup.1 (htm ▸ hm)

theorem foldlM_addBlob {bs : List BlobInfo} (hnodup : (bs.map (·.num)).Nodup)
    (hfresh : ∀ b ∈ bs, b.num ∉ st.seenBlobNums) :
    bs.foldlM addBlob st = .ok { st with
      blobs := st.blobs ++ bs
      seenBlobNums := st.seenBlobNums ++ bs.map (·.num) } := by
  induction bs generalizing st with
  | nil => simp [pure, Except.pure]
  | cons b bs ih =>
    have hseen := hfresh b mem_cons_self
    rw [map_cons, nodup_cons] at hnodup
    rw [foldlM_cons, addBlob, if_neg hseen, ok_bind, ih hnodup.2]
    · simp
    · intro u hu hmem
      rcases mem_append.1 hmem with hmem | hmem
      · exact hfresh u (mem_cons_of_mem b hu) hmem
      · exact hnodup.1 (mem_singleton.1 hmem ▸ mem_map.2 ⟨u, hu, rfl⟩)

/-- An edit that may follow the edits replayed so far. -/
structure Fits (st : ManifestState) (e : ManifestEdit) : Prop where
  identity : e.hasIdentity = !st.haveIdentity
  replayLog : e.replayLogNum = 0 ∨ st.replayLogNum ≤ e.replayLogNum
  addedPos : ∀ t ∈ e.added, t.num ≠ 0
  addedNodup : (e.added.map (·.num)).Nodup
  addedFresh : ∀ t ∈ e.added, t.num ∉ st.seenTableNums
  deletedNodup : e.deleted.Nodup
  deletedLive : ∀ n ∈ e.deleted, ∃ t ∈ st.tables ++ e.added, t.num = n
  blobsNodup : (e.addedBlobs.map (·.num)).Nodup
  blobsFresh : ∀ b ∈ e.addedBlobs, b.num ∉ st.seenBlobNums
  noDeletedBlobs : e.deletedBlobs = []

theorem Fits.of_noTables {st : ManifestState} {e : ManifestEdit}
    (hidentity : e.hasIdentity = !st.haveIdentity)
    (hlog : e.replayLogNum = 0 ∨ st.replayLogNum ≤ e.replayLogNum) (hadded : e.added = [])
    (hdeleted : e.deleted = []) (hnodup : (e.addedBlobs.map (·.num)).Nodup)
    (hfresh : ∀ b ∈ e.addedBlobs, b.num ∉ st.seenBlobNums) (hblobs : e.deletedBlobs = []) :
    st.Fits e :=
  ⟨hidentity, hlog, by simp [hadded], by simp [hadded], by simp [hadded], by simp [hdeleted],
    by simp [hdeleted], hnodup, hfresh, hblobs⟩

def nextReplayLog (cur num : Nat) : Nat := if num = 0 then cur else num

theorem nextReplayLog_zero_left (num : Nat) : nextReplayLog 0 num = num :=
  ite_eq_right_iff.2 fun hzero => hzero.symm

def after (st : ManifestState) (e : ManifestEdit) : ManifestState where
  haveIdentity := true
  replayLogNum := nextReplayLog st.replayLogNum e.replayLogNum
  lastSeq := max st.lastSeq (e.lastSeq.getD 0)
  tables := (st.tables ++ e.added).filter fun t => decide (t.num ∉ e.deleted)
  blobs := st.blobs ++ e.addedBlobs
  seenTableNums := st.seenTableNums ++ e.added.map (·.num)
  seenBlobNums := st.seenBlobNums ++ e.addedBlobs.map (·.num)

theorem applyEdit_eq_after {e : ManifestEdit} (h : st.Fits e) :
    st.applyEdit e = .ok (st.after e) := by
  have hid : st.checkIdentity e = .ok { st with haveIdentity := true } := by
    unfold checkIdentity
    rw [h.identity]
    cases st.haveIdentity <;> simp
  have hlog : (recordLastSeq { st with haveIdentity := true } e).recordReplayLog e = .ok
      { st with
        haveIdentity := true
        lastSeq := max st.lastSeq (e.lastSeq.getD 0)
        replayLogNum := nextReplayLog st.replayLogNum e.replayLogNum } := by
    unfold recordReplayLog recordLastSeq nextReplayLog
    rcases h.replayLog with hzero | hle
    · simp [hzero]
    · simp only
      split_ifs with hzero hlt
      · rfl
      · omega
      · rfl
  unfold applyEdit
  rw [hid, ok_bind, hlog, ok_bind,
    foldlM_addTable h.addedPos h.addedNodup (by exact h.addedFresh), ok_bind,
    foldlM_deleteTable h.deletedNodup (by exact h.deletedLive), ok_bind,
    foldlM_addBlob h.blobsNodup (by exact h.blobsFresh), ok_bind, h.noDeletedBlobs]
  rfl

end ManifestState

theorem replayManifestFile_concat {edits : List ManifestEdit} {st : ManifestState}
    (hst : replayManifestFile edits = .ok st) {e : ManifestEdit} (hfits : st.Fits e) :
    replayManifestFile (edits ++ [e]) = .ok (st.after e) := by
  unfold replayManifestFile at hst ⊢
  obtain ⟨st', hfold, hst⟩ := bind_eq_ok.1 hst
  split_ifs at hst with hid
  cases hst
  rw [foldlM_append, hfold, ok_bind, foldlM_cons,
    ManifestState.applyEdit_eq_after hfits, ok_bind]
  rfl

theorem replayManifestFile_haveIdentity {edits : List ManifestEdit} {st : ManifestState}
    (hst : replayManifestFile edits = .ok st) : st.haveIdentity = true := by
  unfold replayManifestFile at hst
  obtain ⟨st', _, hst⟩ := bind_eq_ok.1 hst
  split_ifs at hst with hid
  cases hst
  exact hid

theorem replayManifestFile_baseline {walSeq replayLogNum : Nat} {tables : List TableMeta}
    {blobs : List BlobInfo} (hpos : ∀ t ∈ tables, t.num ≠ 0) (hnodup : (tables.map (·.num)).Nodup)
    (hblobs : (blobs.map (·.num)).Nodup) :
    replayManifestFile [.identity, .baseline walSeq replayLogNum tables blobs] =
      .ok ⟨true, replayLogNum, walSeq, tables.map (·.info), blobs, tables.map (·.num),
        blobs.map (·.num)⟩ := by
  have hid : replayManifestFile [.identity] = .ok ⟨true, 0, 0, [], [], [], []⟩ := rfl
  have hnums : (tables.map (·.info)).map (·.num) = tables.map (·.num) := by
    rw [map_map]
    rfl
  have hfits : ManifestState.Fits ⟨true, 0, 0, [], [], [], []⟩
      (.baseline walSeq replayLogNum tables blobs) := by
    constructor
    · rfl
    · exact Or.inr (Nat.zero_le _)
    · intro t ht
      obtain ⟨u, hu, rfl⟩ := mem_map.1 ht
      exact hpos u hu
    · change ((tables.map (·.info)).map (·.num)).Nodup
      rwa [hnums]
    · simp
    · simp [ManifestEdit.baseline]
    · simp [ManifestEdit.baseline]
    · exact hblobs
    · simp
    · rfl
  rw [show [ManifestEdit.identity, .baseline walSeq replayLogNum tables blobs] =
    [.identity] ++ [.baseline walSeq replayLogNum tables blobs] from rfl,
    replayManifestFile_concat hid hfits]
  simp [ManifestState.after, ManifestState.nextReplayLog_zero_left, ManifestEdit.baseline, hnums]

end LevisDB
