import LevisDB.Db.Recovery
import LevisDB.Db.WalRecord
import LevisDB.Storage.JournalDamage
import Mathlib.Data.List.Flatten

/-!
# Replaying damaged log files

Recovery reads the bytes of the log files from the boundary on. A chunk that
fails its checksum ends a lenient replay for good and fails a strict one.
-/

namespace LevisDB

open List LevisDB.Except

structure WalFile where
  num : Nat
  bytes : Bytes

structure Applying where
  replay : Replay
  applied : List (List WalEntry)

section Bytes

variable (fmt : TableFormat) (mode : ReplayMode)

/-- A record that cannot be used: a lenient replay ends, a strict one fails. -/
def stopOrFail (a : Applying) (err : Err) : Except Err (Applying × Bool) :=
  if mode.lenient then .ok (a, true) else .error err

def visitBatch (a : Applying) (e : WalEntry) (es : List WalEntry) : Except Err (Applying × Bool) :=
    do
  let rs := { a.replay with
    maxSeq := (e :: es).foldl (fun n x => max n x.seq) a.replay.maxSeq }
  let r ← visitEntries fmt mode rs (e :: es)
  pure (⟨r.1, if r.2 then a.applied else a.applied ++ [e :: es]⟩, r.2)

def visitBytes (tail : Journal.ReadErr) :
    Applying → Nat → List Bytes → Except Err (Applying × Bool)
  | a, _, [] =>
    match tail with
    | .eof => .ok (a, false)
    | .corrupt => stopOrFail mode a .journalCorrupt
  | a, lastRecordSeq, rec :: recs =>
    match decodeBatch rec with
    | .error err => stopOrFail mode a err
    | .ok [] => stopOrFail mode a .walEmptyBatch
    | .ok (e :: es) =>
      if e.seq ≤ lastRecordSeq then stopOrFail mode a (.walNonIncreasing e.seq lastRecordSeq)
      else do
        let r ← visitBatch fmt mode a e es
        if r.2 then pure r else visitBytes tail r.1 (lastSeq (e :: es)) recs

def recoverFiles (replayLogNum : Nat) : Applying → List WalFile → Except Err Applying
  | a, [] => .ok a
  | a, f :: files =>
    if f.num < replayLogNum then recoverFiles replayLogNum a files
    else do
      let found := Journal.readFile false f.bytes
      let r ← visitBytes fmt mode found.2 a 0 found.1
      if r.2 then pure r.1 else recoverFiles replayLogNum r.1 files

/-- `recoverWALMode` over the bytes on disk; also the batches it applied. -/
def recoverWALBytes (eng : Engine) (replayLogNum startSeq : Nat) (files : List WalFile) :
    Except Err ((Engine × Nat) × List (List WalEntry)) := do
  let a ← recoverFiles fmt mode replayLogNum ⟨⟨eng, 0, startSeq⟩, []⟩ files
  let eng ← a.replay.eng.drainRecovered fmt mode.flush
  pure ((eng, a.replay.maxSeq), a.applied)

end Bytes

structure Follows (last : Nat) (batches : List (List WalEntry)) : Prop where
  ascending : Ascending batches.flatten
  above : ∀ e ∈ batches.flatten, last < e.seq

theorem lastSeq_mem {b : List WalEntry} (h : b ≠ []) : ∃ e ∈ b, lastSeq b = e.seq := by
  refine ⟨b.getLast h, getLast_mem h, ?_⟩
  rw [lastSeq, List.getLast?_eq_getLast_of_ne_nil h]
  rfl

theorem Follows.tail {last : Nat} {b : List WalEntry} {batches : List (List WalEntry)}
    (h : Follows last (b :: batches)) (hb : b ≠ []) : Follows (lastSeq b) batches := by
  obtain ⟨_, hrest, hcross⟩ := pairwise_append.1 h.ascending
  obtain ⟨x, hx, hlast⟩ := lastSeq_mem hb
  exact ⟨hrest, fun e he => hlast ▸ hcross x hx e he⟩

theorem Follows.mono {last last' : Nat} {batches : List (List WalEntry)}
    (h : Follows last batches) (hle : last' ≤ last) : Follows last' batches :=
  ⟨h.ascending, fun e he => Nat.lt_of_le_of_lt hle (h.above e he)⟩

section Decoded

variable {fmt : TableFormat} {mode : ReplayMode}

theorem visitEntries_ascending {es : List WalEntry} {rs : Replay} {r : Replay × Bool}
    (hr : visitEntries fmt mode rs es = .ok r) (hasc : Ascending es)
    (habove : ∀ e ∈ es, rs.lastWALSeq < e.seq) :
    r.2 = false ∧ r.1.lastWALSeq = if es = [] then rs.lastWALSeq else lastSeq es := by
  induction es generalizing rs with
  | nil =>
    cases hr
    exact ⟨rfl, rfl⟩
  | cons e es ih =>
    obtain ⟨hhead, htail⟩ := pairwise_cons.1 hasc
    unfold visitEntries at hr
    obtain ⟨r₁, hfirst, hr⟩ := bind_eq_ok.1 hr
    unfold visitEntry at hfirst
    rw [if_neg (Nat.not_le.2 (habove e (by simp)))] at hfirst
    obtain ⟨_, _, hfirst⟩ := bind_eq_ok.1 hfirst
    obtain ⟨eng, _, hfirst⟩ := bind_eq_ok.1 hfirst
    cases hfirst
    obtain ⟨hstop, hlast⟩ := ih hr htail hhead
    refine ⟨hstop, hlast.trans ?_⟩
    rw [if_neg (cons_ne_nil e es)]
    cases es with
    | nil => rfl
    | cons e' es => rfl

/-- What follows the last record of a file. -/
def endFile (mode : ReplayMode) (tail : Journal.ReadErr) (a : Applying) :
    Except Err (Applying × Bool) :=
  match tail with
  | .eof => .ok (a, false)
  | .corrupt => stopOrFail mode a .journalCorrupt

theorem visitBytes_records {tail : Journal.ReadErr} {batches : List (List WalEntry)}
    {a : Applying} {last : Nat} (hlogged : ∀ b ∈ batches, Logged b)
    (hlast : Follows last batches) (hwal : Follows a.replay.lastWALSeq batches) :
    visitBytes fmt mode tail a last (batches.map record) = (do
      let r ← replayWALFileVisit fmt mode a.replay last batches
      endFile mode tail ⟨r.1, a.applied ++ batches⟩) := by
  induction batches generalizing a last with
  | nil => simp [visitBytes, replayWALFileVisit, endFile]
  | cons b batches ih =>
    have hb := hlogged b (by simp)
    obtain ⟨e, es, rfl⟩ := exists_cons_of_ne_nil hb.ne
    have hfirst : ¬e.seq ≤ last := Nat.not_le.2 (hlast.above e (by simp))
    rw [map_cons, visitBytes, decodeBatch_record hb, replayWALFileVisit]
    simp only [if_neg hfirst, visitBatch]
    cases hvisit : visitEntries fmt mode
        { a.replay with
          maxSeq := (e :: es).foldl (fun n x => max n x.seq) a.replay.maxSeq } (e :: es) with
    | error err => rfl
    | ok r =>
      obtain ⟨hstop, hseq⟩ := visitEntries_ascending hvisit
        (pairwise_append.1 hwal.ascending).1
        (fun x hx => hwal.above x (mem_append_left _ hx))
      rw [if_neg (cons_ne_nil e es)] at hseq
      have hih := ih (a := ⟨r.1, a.applied ++ [e :: es]⟩)
        (fun b hb => hlogged b (by simp [hb])) (hlast.tail hb.ne)
        (hseq.symm ▸ hwal.tail hb.ne)
      simp only [ok_bind, hstop, Bool.false_eq_true, if_false, pure, Except.pure]
      rw [hih]
      simp

theorem replayWALFileVisit_ascending {batches rest : List (List WalEntry)} {rs : Replay}
    {last : Nat} {r : Replay × Bool} (hr : replayWALFileVisit fmt mode rs last batches = .ok r)
    (hne : ∀ b ∈ batches, b ≠ []) (hlast : Follows last batches)
    (hwal : Follows rs.lastWALSeq (batches ++ rest)) :
    r.2 = false ∧ Follows r.1.lastWALSeq rest := by
  induction batches generalizing rs last with
  | nil =>
    cases hr
    exact ⟨rfl, hwal⟩
  | cons b batches ih =>
    obtain ⟨e, es, rfl⟩ := exists_cons_of_ne_nil (hne b (by simp))
    have hfirst : ¬e.seq ≤ last := Nat.not_le.2 (hlast.above e (by simp))
    rw [replayWALFileVisit, if_neg hfirst] at hr
    obtain ⟨r₁, hvisit, hr⟩ := bind_eq_ok.1 hr
    obtain ⟨hstop, hseq⟩ := visitEntries_ascending hvisit
      (pairwise_append.1 hlast.ascending).1
      (fun x hx => hwal.above x (mem_append_left _ hx))
    rw [if_neg (cons_ne_nil e es)] at hseq
    rw [hstop] at hr
    exact ih hr (fun b hb => hne b (by simp [hb])) (hlast.tail (cons_ne_nil e es))
      (hseq.symm ▸ Follows.tail hwal (cons_ne_nil e es))

theorem Follows.left {last : Nat} {batches rest : List (List WalEntry)}
    (h : Follows last (batches ++ rest)) : Follows last batches := by
  obtain ⟨hasc, habove⟩ := h
  rw [flatten_append] at hasc habove
  exact ⟨(pairwise_append.1 hasc).1, fun e he => habove e (mem_append_left _ he)⟩

structure Reads (tail : Journal.ReadErr) (f : WalFile) (l : LogFile) : Prop where
  num : f.num = l.num
  found : Journal.readFile false f.bytes = (l.batches.map record, tail)
  logged : ∀ b ∈ l.batches, Logged b

section Files

variable {n : Nat} {files : List WalFile} {logs : List LogFile}

theorem recoverFiles_cons {tail : Journal.ReadErr} {f : WalFile} {l : LogFile} {a : Applying}
    {rest : List (List WalEntry)} (h : Reads tail f l) (hnum : n ≤ l.num)
    (hwal : Follows a.replay.lastWALSeq (l.batches ++ rest)) :
    recoverFiles fmt mode n a (f :: files) = (do
      let r ← replayWALFileVisit fmt mode a.replay 0 l.batches
      let r ← endFile mode tail ⟨r.1, a.applied ++ l.batches⟩
      if r.2 then pure r.1 else recoverFiles fmt mode n r.1 files) := by
  rw [recoverFiles, if_neg (by rw [h.num]; omega), h.found]
  dsimp only
  rw [visitBytes_records h.logged (hwal.left.mono (Nat.zero_le _)) hwal.left]
  cases replayWALFileVisit fmt mode a.replay 0 l.batches <;> rfl

theorem recoverFiles_reads {a : Applying} (h : List.Forall₂ (Reads .eof) files logs)
    (hnum : ∀ l ∈ logs, n ≤ l.num) (hwal : Follows a.replay.lastWALSeq (batchesFrom n logs)) :
    recoverFiles fmt mode n a files = (do
      let rs ← recoverLogs fmt mode n a.replay logs
      pure ⟨rs, a.applied ++ batchesFrom n logs⟩) := by
  induction h generalizing a with
  | nil => simp [recoverFiles, recoverLogs, batchesFrom]
  | @cons f l files logs hfile htail ih =>
    rw [batchesFrom_cons, if_pos (hnum l (by simp))] at hwal ⊢
    rw [recoverFiles_cons hfile (hnum l (by simp)) hwal, recoverLogs,
      if_neg (Nat.not_lt.2 (hnum l (by simp)))]
    cases hreplay : replayWALFileVisit fmt mode a.replay 0 l.batches with
    | error err => rfl
    | ok r =>
      obtain ⟨hstop, hnext⟩ := replayWALFileVisit_ascending hreplay
        (fun b hb => (hfile.logged b hb).ne) (hwal.left.mono (Nat.zero_le _)) hwal
      have hrest := ih (a := ⟨r.1, a.applied ++ l.batches⟩)
        (fun l' hl' => hnum l' (by simp [hl'])) hnext
      simp only [ok_bind, endFile, hstop, Bool.false_eq_true, if_false]
      rw [hrest]
      simp

theorem recoverFiles_stop {a : Applying} {bad : WalFile} {l : LogFile} (more : List WalFile)
    (h : List.Forall₂ (Reads .eof) files logs) (hbad : Reads .corrupt bad l)
    (hnum : ∀ x ∈ logs ++ [l], n ≤ x.num)
    (hwal : Follows a.replay.lastWALSeq (batchesFrom n (logs ++ [l]))) :
    (mode.lenient = true →
      recoverFiles fmt mode n a (files ++ bad :: more) = (do
        let rs ← recoverLogs fmt mode n a.replay (logs ++ [l])
        pure ⟨rs, a.applied ++ batchesFrom n (logs ++ [l])⟩)) ∧
    (mode.lenient = false →
      ∃ err, recoverFiles fmt mode n a (files ++ bad :: more) = .error err) := by
  induction h generalizing a with
  | nil =>
    have hl := hnum l (by simp)
    simp only [nil_append] at hwal ⊢
    rw [batchesFrom_cons, if_pos hl] at hwal ⊢
    rw [recoverFiles_cons hbad hl hwal, recoverLogs, if_neg (Nat.not_lt.2 hl)]
    cases replayWALFileVisit fmt mode a.replay 0 l.batches with
    | error err => exact ⟨fun _ => rfl, fun _ => ⟨err, rfl⟩⟩
    | ok r =>
      refine ⟨fun hlenient => ?_, fun hstrict => ⟨.journalCorrupt, ?_⟩⟩
      · have hsame : (if r.2 = true then pure r.1 else Except.ok r.1 : Except Err Replay) =
            .ok r.1 := by
          cases r.2 <;> rfl
        simp [endFile, stopOrFail, hlenient, recoverLogs, batchesFrom, hsame]
      · simp [endFile, stopOrFail, hstrict]
  | @cons f l' files logs hfile htail ih =>
    have hl := hnum l' (by simp)
    simp only [cons_append] at hwal ⊢
    rw [batchesFrom_cons, if_pos hl] at hwal ⊢
    rw [recoverFiles_cons hfile hl hwal, recoverLogs, if_neg (Nat.not_lt.2 hl)]
    cases hreplay : replayWALFileVisit fmt mode a.replay 0 l'.batches with
    | error err => exact ⟨fun _ => rfl, fun _ => ⟨err, rfl⟩⟩
    | ok r =>
      obtain ⟨hstop, hnext⟩ := replayWALFileVisit_ascending hreplay
        (fun b hb => (hfile.logged b hb).ne) (hwal.left.mono (Nat.zero_le _)) hwal
      obtain ⟨hlenient, hstrict⟩ := ih (a := ⟨r.1, a.applied ++ l'.batches⟩)
        (fun x hx => hnum x (mem_cons_of_mem _ hx)) hnext
      simp only [ok_bind, endFile, hstop, Bool.false_eq_true, if_false]
      refine ⟨fun hm => ?_, hstrict⟩
      rw [hlenient hm]
      simp

end Files

end Decoded

/-- A log file as the engine wrote it: batches, and flushes between them. -/
structure WalSegment where
  num : Nat
  ops : List (Option (List WalEntry))

namespace WalSegment

def batches (s : WalSegment) : List (List WalEntry) := s.ops.filterMap id

def journalOps (s : WalSegment) : List Journal.Op :=
  s.ops.map fun op => match op with
    | some b => .write (record b)
    | none => .flush

def bytes (s : WalSegment) : Bytes := (Journal.Writer.new.run s.journalOps).flush.out

def file (s : WalSegment) : WalFile := ⟨s.num, s.bytes⟩

def log (s : WalSegment) : LogFile := ⟨s.num, s.batches, []⟩

theorem records_journalOps (s : WalSegment) :
    Journal.records s.journalOps = s.batches.map record := by
  rw [Journal.records, journalOps, batches, filterMap_map, map_filterMap]
  refine congrArg (filterMap · s.ops) (funext fun op => ?_)
  cases op <;> rfl

theorem bytes_eq (s : WalSegment) :
    s.bytes = (Journal.frames Journal.blockSize (s.batches.map record)).1 := by
  rw [bytes, Journal.Writer.flush_out, (Journal.Writer.new_run s.journalOps).1,
    records_journalOps]

end WalSegment

/-- Damage of one file: cut after a number of bytes, or other bytes from the start of
a chunk on. -/
inductive Damage where
  | cut (len : Nat)
  | rot (chunk : Nat × Nat) (tail : Bytes)

namespace Damage

def intact : Damage → Nat
  | cut len => len
  | rot chunk _ => chunk.1

def bytes (s : WalSegment) : Damage → Bytes
  | cut len => s.bytes.take len
  | rot chunk tail => s.bytes.take chunk.1 ++ tail

/-- A cut takes something away; what rots is a chunk, and its checksum tells. -/
def Real (s : WalSegment) : Damage → Prop
  | cut len => len < s.bytes.length
  | rot chunk tail =>
    chunk ∈ Journal.fileChunks Journal.blockSize (s.batches.map record) ∧
      Journal.BadChunk (tail.take (Journal.blockSize - chunk.2))

def tail : Damage → Journal.ReadErr
  | cut _ => .eof
  | rot _ _ => .corrupt

def kept (s : WalSegment) (d : Damage) : List (List WalEntry) :=
  s.batches.take (((Journal.Writer.new.ends s.journalOps).filter (fun p => p.2 ≤ d.intact)).length)

end Damage

theorem Damage.intact_lt {s : WalSegment} {d : Damage} (h : d.Real s) :
    d.intact < (Journal.frames Journal.blockSize (s.batches.map record)).1.length := by
  cases d with
  | cut len =>
    rw [← s.bytes_eq]
    exact h
  | rot chunk tail => exact Journal.fileChunks_lt (Nat.le_refl _) h.1

theorem Damage.kept_spec {s : WalSegment} {d : Damage} (h : d.Real s) :
    Journal.readFile false (d.bytes s) = ((d.kept s).map record, d.tail) ∧
      (d.kept s).length < s.batches.length := by
  have hintact := d.intact_lt h
  have hends : Journal.Writer.new.ends s.journalOps =
      Journal.framedEnds 0 Journal.blockSize (s.batches.map record) := by
    rw [(Journal.Writer.new_run s.journalOps).2, s.records_journalOps]
  have hoff := Nat.le_refl Journal.blockSize
  obtain ⟨j, htake, hlt, _⟩ :=
    Journal.framedEnds_filter 0 d.intact (s.batches.map record) hoff
  rw [Nat.zero_add, ← map_take] at htake
  rw [length_map] at hlt
  have hkept : d.kept s = s.batches.take j := by
    have hlen := congrArg List.length htake
    rw [length_map, length_map, length_take,
      Nat.min_eq_left (Nat.le_of_lt (hlt hintact))] at hlen
    rw [kept, hends, hlen]
  rw [hkept, ← htake, length_take, Nat.min_eq_left (Nat.le_of_lt (hlt hintact))]
  refine ⟨?_, hlt hintact⟩
  cases d with
  | cut len =>
    have hread := Journal.readFile_take false _ (Nat.le_of_lt hintact)
    rw [← s.bytes_eq] at hread
    exact hread.trans (by simp [tail, intact])
  | rot chunk bad =>
    have hlen : (s.bytes.take chunk.1).length = chunk.1 := by
      rw [length_take, s.bytes_eq]
      exact Nat.min_eq_left (Nat.le_of_lt hintact)
    refine Journal.readFile_bad false _ h.1 ?_ ?_
    · rw [bytes, take_append_of_le_length (Nat.le_of_eq hlen.symm), take_take,
        Nat.min_self, s.bytes_eq]
    · rw [bytes, drop_left' hlen]
      exact h.2

theorem Damage.kept_initial (s : WalSegment) (d : Damage) : d.kept s <+: s.batches :=
  take_prefix _ _

theorem WalSegment.reads {s : WalSegment} (h : ∀ b ∈ s.batches, Logged b) :
    Reads .eof s.file s.log := by
  have hbatches : s.log.batches = s.batches := append_nil _
  refine ⟨rfl, ?_, hbatches ▸ h⟩
  have hoff := Nat.le_refl Journal.blockSize
  obtain ⟨j, htake, _, hall⟩ := Journal.framedEnds_filter 0
    (Journal.frames Journal.blockSize (s.batches.map record)).1.length (s.batches.map record) hoff
  rw [hall (Nat.le_refl _), Nat.zero_add, take_length] at htake
  have hread := Journal.readFile_take false (s.batches.map record) (Nat.le_refl _)
  rw [take_length, ← s.bytes_eq] at hread
  rw [hbatches]
  refine hread.trans ?_
  rw [s.bytes_eq, htake]
  simp

/-- The log a replay of the damaged files amounts to: a cut file is followed by the
later ones, behind a bad chunk nothing is replayed. -/
def survivors (pre : List WalSegment) (s : WalSegment) (d : Damage) (post : List WalSegment) :
    List LogFile :=
  pre.map WalSegment.log ++ ⟨s.num, d.kept s, []⟩ ::
    match d with
    | .cut _ => post.map WalSegment.log
    | .rot _ _ => []

def damagedFiles (pre : List WalSegment) (s : WalSegment) (d : Damage) (post : List WalSegment) :
    List WalFile :=
  pre.map WalSegment.file ++ ⟨s.num, d.bytes s⟩ :: post.map WalSegment.file

def loggedBatches (segs : List WalSegment) : List (List WalEntry) := segs.flatMap WalSegment.batches

/-- Something was cut off a file that is not the last to hold records. -/
def Damage.LeavesHole (d : Damage) (post : List WalSegment) : Prop :=
  (∃ len, d = .cut len) ∧ ∃ s ∈ post, s.batches ≠ []

section Survivors

variable {n : Nat} {pre post : List WalSegment} {s : WalSegment} {d : Damage}

theorem batchesFrom_logs {segs : List WalSegment} (h : ∀ x ∈ segs, n ≤ x.num) :
    batchesFrom n (segs.map WalSegment.log) = loggedBatches segs := by
  induction segs with
  | nil => rfl
  | cons x segs ih =>
    have hx : n ≤ x.log.num := h x (by simp)
    rw [map_cons, batchesFrom_cons, ih fun y hy => h y (by simp [hy]), if_pos hx]
    simp [loggedBatches, LogFile.batches, WalSegment.log]

def Damage.later (d : Damage) (post : List WalSegment) : List (List WalEntry) :=
  match d with
  | .cut _ => loggedBatches post
  | .rot _ _ => []

theorem batchesFrom_survivors (hnum : ∀ x ∈ pre ++ s :: post, n ≤ x.num) :
    batchesFrom n (survivors pre s d post) =
      loggedBatches pre ++ (d.kept s ++ d.later post) := by
  have hs : n ≤ s.num := hnum s (by simp)
  have hpost : batchesFrom n (post.map WalSegment.log) = loggedBatches post :=
    batchesFrom_logs fun x hx => hnum x (by simp [hx])
  unfold survivors
  rw [batchesFrom_append, batchesFrom_logs fun x hx => hnum x (by simp [hx]), batchesFrom_cons,
    if_pos hs]
  cases d with
  | cut len => simp [Damage.later, hpost, LogFile.batches]
  | rot chunk tail => simp [Damage.later, LogFile.batches, batchesFrom]

theorem loggedBatches_split :
    loggedBatches (pre ++ s :: post) = loggedBatches pre ++ (s.batches ++ loggedBatches post) := by
  simp [loggedBatches]

theorem survivors_sublist (hnum : ∀ x ∈ pre ++ s :: post, n ≤ x.num) :
    (batchesFrom n (survivors pre s d post)).Sublist (loggedBatches (pre ++ s :: post)) := by
  rw [batchesFrom_survivors hnum, loggedBatches_split]
  refine (List.Sublist.refl _).append ((d.kept_initial s).sublist.append ?_)
  cases d with
  | cut len => exact List.Sublist.refl _
  | rot chunk tail => exact nil_sublist _

theorem survivors_prefix_iff (hnum : ∀ x ∈ pre ++ s :: post, n ≤ x.num)
    (hne : ∀ b ∈ s.batches, b ≠ [])
    (hasc : Ascending (loggedBatches (pre ++ s :: post)).flatten) (hreal : d.Real s) :
    batchesFrom n (survivors pre s d post) <+: loggedBatches (pre ++ s :: post) ↔
      ¬d.LeavesHole post := by
  rw [batchesFrom_survivors hnum]
  rw [loggedBatches_split] at hasc ⊢
  rw [prefix_append_right_inj]
  obtain ⟨lost, hlost⟩ := d.kept_initial s
  have hshort := (d.kept_spec hreal).2
  rw [← hlost] at hasc hne hshort ⊢
  rw [append_assoc, prefix_append_right_inj]
  constructor
  · -- the first batch behind the hole would have to be the one that was lost
    rintro hinit ⟨⟨len, rfl⟩, x, hx, hbatches⟩
    have hlater : loggedBatches post ≠ [] := fun hnil =>
      hbatches (flatMap_eq_nil_iff.1 hnil x hx)
    have hgone : lost ≠ [] := by
      rintro rfl
      simp at hshort
    obtain ⟨b, bs, hb⟩ := exists_cons_of_ne_nil hlater
    obtain ⟨c, cs, rfl⟩ := exists_cons_of_ne_nil hgone
    rw [Damage.later, hb, cons_append, cons_prefix_cons] at hinit
    obtain ⟨rfl, _⟩ := hinit
    obtain ⟨e, he⟩ := exists_mem_of_ne_nil b (hne b (by simp))
    rw [hb] at hasc
    simp only [flatten_append, flatten_cons] at hasc
    have hcross := (pairwise_append.1 (pairwise_append.1 hasc).2.1).2.2
    exact Nat.lt_irrefl _ (hcross e (by simp [he]) e (by simp [he]))
  · intro hole
    cases d with
    | rot chunk tail => exact nil_prefix
    | cut len =>
      have hnil : loggedBatches post = [] := by
        refine flatMap_eq_nil_iff.2 fun x hx => ?_
        by_contra hbatches
        exact hole ⟨⟨len, rfl⟩, x, hx, hbatches⟩
      rw [Damage.later, hnil]
      exact nil_prefix

theorem segments_read {segs : List WalSegment} (h : ∀ x ∈ segs, ∀ b ∈ x.batches, Logged b) :
    List.Forall₂ (Reads .eof) (segs.map WalSegment.file) (segs.map WalSegment.log) := by
  rw [forall₂_map_left_iff, forall₂_map_right_iff, forall₂_same]
  exact fun x hx => WalSegment.reads (h x hx)

theorem damaged_reads (hreal : d.Real s) (h : ∀ b ∈ s.batches, Logged b) :
    Reads d.tail ⟨s.num, d.bytes s⟩ ⟨s.num, d.kept s, []⟩ := by
  have hbatches : (LogFile.mk s.num (d.kept s) []).batches = d.kept s := append_nil _
  refine ⟨rfl, ?_, ?_⟩
  · rw [hbatches]
    exact (d.kept_spec hreal).1
  · rw [hbatches]
    exact fun b hb => h b ((d.kept_initial s).subset hb)

theorem follows_survivors (hnum : ∀ x ∈ pre ++ s :: post, n ≤ x.num)
    (hlogged : ∀ x ∈ pre ++ s :: post, ∀ b ∈ x.batches, Logged b)
    (hasc : Ascending (loggedBatches (pre ++ s :: post)).flatten) :
    Follows 0 (batchesFrom n (survivors pre s d post)) := by
  have hsub := (survivors_sublist (d := d) hnum).flatten
  refine ⟨hasc.sublist hsub, fun e he => ?_⟩
  obtain ⟨b, hb, he⟩ := mem_flatten.1 (hsub.subset he)
  obtain ⟨x, hx, hb⟩ := mem_flatMap.1 hb
  exact ((hlogged x hx b hb).valid e he).seqPos

theorem survivors_num (hnum : ∀ x ∈ pre ++ s :: post, n ≤ x.num) :
    ∀ l ∈ survivors pre s d post, n ≤ l.num := by
  have hseg : ∀ segs : List WalSegment, (∀ x ∈ segs, n ≤ x.num) →
      ∀ l ∈ segs.map WalSegment.log, n ≤ l.num := by
    intro segs h l hl
    obtain ⟨x, hx, rfl⟩ := mem_map.1 hl
    exact h x hx
  intro l hl
  rcases mem_append.1 hl with hl | hl
  · exact hseg pre (fun x hx => hnum x (by simp [hx])) l hl
  · rcases mem_cons.1 hl with rfl | hl
    · exact hnum s (by simp)
    · cases d with
      | cut len => exact hseg post (fun x hx => hnum x (by simp [hx])) l hl
      | rot chunk tail => cases hl

end Survivors

section Recovery

variable {fmt : TableFormat} {mode : ReplayMode} {eng : Engine} {startSeq n : Nat}

theorem recoverWALBytes_of_files {files : List WalFile} {logs : List LogFile}
    {applied : List (List WalEntry)}
    (h : recoverFiles fmt mode n ⟨⟨eng, 0, startSeq⟩, []⟩ files = (do
      let rs ← recoverLogs fmt mode n ⟨eng, 0, startSeq⟩ logs
      pure ⟨rs, [] ++ applied⟩)) :
    recoverWALBytes fmt mode eng n startSeq files =
      (recoverWALMode fmt mode eng n startSeq logs).map fun r => (r, applied) := by
  unfold recoverWALBytes recoverWALMode
  rw [h]
  cases recoverLogs fmt mode n ⟨eng, 0, startSeq⟩ logs with
  | error err => rfl
  | ok rs =>
    simp only [ok_bind, pure, Except.pure, nil_append]
    cases rs.eng.drainRecovered fmt mode.flush <;> rfl

variable {pre post : List WalSegment} {s : WalSegment} {d : Damage}

theorem recoverWALBytes_damaged (hnum : ∀ x ∈ pre ++ s :: post, n ≤ x.num)
    (hlogged : ∀ x ∈ pre ++ s :: post, ∀ b ∈ x.batches, Logged b)
    (hasc : Ascending (loggedBatches (pre ++ s :: post)).flatten) (hreal : d.Real s)
    (hmode : mode.lenient = true ∨ ∃ len, d = .cut len) :
    recoverWALBytes fmt mode eng n startSeq (damagedFiles pre s d post) =
      (recoverWALMode fmt mode eng n startSeq (survivors pre s d post)).map
        fun r => (r, batchesFrom n (survivors pre s d post)) := by
  have hfollows := follows_survivors (d := d) hnum hlogged hasc
  have hnums := survivors_num (d := d) hnum
  have hpre := segments_read fun x hx => hlogged x (mem_append_left (s :: post) hx)
  have hpost := segments_read fun x (hx : x ∈ post) => hlogged x (by simp [hx])
  have hdamaged := damaged_reads hreal (hlogged s (by simp))
  refine recoverWALBytes_of_files ?_
  cases d with
  | cut len =>
    exact recoverFiles_reads (rel_append hpre (.cons hdamaged hpost)) hnums hfollows
  | rot chunk tail =>
    have hlenient : mode.lenient = true := hmode.resolve_right (by rintro ⟨len, h⟩; cases h)
    exact (recoverFiles_stop (post.map WalSegment.file) hpre hdamaged hnums hfollows).1 hlenient

end Recovery

/-- Recovery of log files one of which is damaged. Lenient recovery applies what
survives, which is a prefix of what was logged unless something was cut off a
file before the last one with records; in that case strict recovery does not
notice either. Otherwise strict recovery fails if records follow the damage. -/
theorem damaged_recovery_keeps_prefix_iff (fmt : TableFormat) (eng : Engine) (startSeq n : Nat)
    (flush : Bool) (pre post : List WalSegment) (s : WalSegment) (d : Damage)
    (hnum : ∀ x ∈ pre ++ s :: post, n ≤ x.num)
    (hlogged : ∀ x ∈ pre ++ s :: post, ∀ b ∈ x.batches, Logged b)
    (hasc : Ascending (loggedBatches (pre ++ s :: post)).flatten) (hreal : d.Real s) :
    (recoverWALBytes fmt ⟨true, flush⟩ eng n startSeq (damagedFiles pre s d post) =
        (recoverWALMode fmt ⟨true, flush⟩ eng n startSeq (survivors pre s d post)).map
          (fun r => (r, batchesFrom n (survivors pre s d post))) ∧
      (batchesFrom n (survivors pre s d post) <+: loggedBatches (pre ++ s :: post) ↔
        ¬d.LeavesHole post)) ∧
    (¬d.LeavesHole post → (∃ x ∈ post, x.batches ≠ []) →
      ∃ err, recoverWALBytes fmt ⟨false, flush⟩ eng n startSeq (damagedFiles pre s d post) =
        .error err) ∧
    (d.LeavesHole post →
      recoverWALBytes fmt ⟨false, flush⟩ eng n startSeq (damagedFiles pre s d post) =
        (recoverWALMode fmt ⟨false, flush⟩ eng n startSeq (survivors pre s d post)).map
          fun r => (r, batchesFrom n (survivors pre s d post))) := by
  refine ⟨⟨?_, ?_⟩, ?_, ?_⟩
  · exact recoverWALBytes_damaged hnum hlogged hasc hreal (.inl rfl)
  · exact survivors_prefix_iff hnum (fun b hb => (hlogged s (by simp) b hb).ne) hasc hreal
  · intro hole hlater
    cases d with
    | cut len => exact absurd ⟨⟨len, rfl⟩, hlater⟩ hole
    | rot chunk tail =>
      have hpre := segments_read fun x hx => hlogged x (mem_append_left (s :: post) hx)
      have hstart : Follows (Applying.mk ⟨eng, 0, startSeq⟩ []).replay.lastWALSeq
          (batchesFrom n (survivors pre s (.rot chunk tail) post)) :=
        follows_survivors hnum hlogged hasc
      obtain ⟨err, herr⟩ := (recoverFiles_stop (post.map WalSegment.file) hpre
        (damaged_reads hreal (hlogged s (by simp))) (survivors_num hnum) hstart).2
          (rfl : (ReplayMode.mk false flush).lenient = false)
      refine ⟨err, ?_⟩
      unfold recoverWALBytes damagedFiles
      rw [herr]
      rfl
  · rintro ⟨hcut, _⟩
    exact recoverWALBytes_damaged hnum hlogged hasc hreal (.inr hcut)

def putLog : List WalEntry := [⟨1, .put, [97], [1], 0⟩]

def deleteLog : List WalEntry := [⟨2, .delete, [97], [], 0⟩]

def laterLog : List WalEntry := [⟨3, .put, [98], [2], 0⟩]

def olderSegment : WalSegment := ⟨1, [some putLog, none, some deleteLog, none]⟩

def newerSegment : WalSegment := ⟨2, [some laterLog, none]⟩

def blankEngine : Engine where
  cfg := ⟨4096, 10, 7, 0, 0, false⟩
  alloc := 2
  mem := newMemtable
  imm := none
  recoveryMems := []
  tables := []
  blobs := []
  lastCompactionDone := false

def countFormat : TableFormat := ⟨fun es rts => es.length + rts.length, fun es => es.length⟩

/-- The older segment is cut inside its second record. -/
theorem cut_segment_leaves_hole :
    (Damage.cut 30).Real olderSegment ∧
      (∀ lenient, (recoverWALBytes countFormat ⟨lenient, true⟩ blankEngine 1 0
        (damagedFiles [] olderSegment (.cut 30) [newerSegment])).toOption.map Prod.snd =
          some [putLog, laterLog]) ∧
      ¬[putLog, laterLog] <+: loggedBatches [olderSegment, newerSegment] := by
  refine ⟨?_, ?_, by decide⟩
  · change 30 < olderSegment.bytes.length
    decide +kernel
  · decide +kernel

def rottenDelete : Damage :=
  .rot (21, 21) ((record deleteLog |> Journal.chunk Journal.chunkFull).set 18 96)

theorem rottenDelete_real : rottenDelete.Real olderSegment := by
  refine ⟨?_, ?_⟩
  · decide +kernel
  · decide +kernel

theorem olderSegment_newerSegment_logged :
    ∀ x ∈ [olderSegment, newerSegment], ∀ b ∈ x.batches, Logged b := by
  have hput : Logged putLog := logged_singleton
    ⟨by decide, by decide, by decide, by decide, by decide, by decide⟩ ⟨by decide, by decide⟩
  have hdelete : Logged deleteLog := logged_singleton
    ⟨by decide, by decide, by decide, by decide, by decide, by decide⟩ ⟨by decide, by decide⟩
  have hlater : Logged laterLog := logged_singleton
    ⟨by decide, by decide, by decide, by decide, by decide, by decide⟩ ⟨by decide, by decide⟩
  intro x hx b hb
  rcases mem_cons.1 hx with rfl | hx
  · have hmem : b ∈ [putLog, deleteLog] := hb
    rcases mem_cons.1 hmem with rfl | hmem
    · exact hput
    · rw [mem_singleton.1 hmem]
      exact hdelete
  · rw [mem_singleton.1 hx] at hb
    have hmem : b ∈ [laterLog] := hb
    rw [mem_singleton.1 hmem]
    exact hlater

theorem damaged_recovery_keeps_prefix_iff_rottenDelete :
    batchesFrom 1 (survivors [] olderSegment rottenDelete [newerSegment]) <+:
        loggedBatches [olderSegment, newerSegment] ∧
      ∃ err, recoverWALBytes countFormat ⟨false, true⟩ blankEngine 1 0
        (damagedFiles [] olderSegment rottenDelete [newerSegment]) = .error err := by
  have hole : ¬rottenDelete.LeavesHole [newerSegment] := by
    rintro ⟨⟨len, h⟩, _⟩
    cases h
  obtain ⟨⟨_, hinit⟩, hstrict, _⟩ := damaged_recovery_keeps_prefix_iff countFormat blankEngine
    0 1 true [] [newerSegment] olderSegment rottenDelete (by decide)
    olderSegment_newerSegment_logged (by unfold Ascending; decide) rottenDelete_real
  exact ⟨hinit.2 hole, hstrict hole ⟨newerSegment, by simp, by decide⟩⟩

end LevisDB
