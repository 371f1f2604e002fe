import LevisDB.Db.Log

/-!
# Replaying the log

The write-ahead log is a sequence of files with ascending numbers. A reopen replays the
batches of every log file from the recovery boundary on into the memtable, flushing whenever
it fills up and once more at the end. A record that cannot follow the ones before it ends a
lenient replay and fails a strict one.
-/

namespace LevisDB

/-- One log file: the records that were synced, and those written since. -/
structure LogFile where
  num : Nat
  synced : List (List WalEntry)
  unsynced : List (List WalEntry)
  deriving DecidableEq

def LogFile.batches (l : LogFile) : List (List WalEntry) := l.synced ++ l.unsynced

def batchesFrom (n : Nat) (logs : List LogFile) : List (List WalEntry) :=
  (logs.filter fun l => decide (n ≤ l.num)).flatMap (·.batches)

theorem batchesFrom_append (n : Nat) (logs logs' : List LogFile) :
    batchesFrom n (logs ++ logs') = batchesFrom n logs ++ batchesFrom n logs' := by
  simp [batchesFrom]

theorem batchesFrom_cons (n : Nat) (l : LogFile) (logs : List LogFile) :
    batchesFrom n (l :: logs) = (if n ≤ l.num then l.batches else []) ++ batchesFrom n logs := by
  unfold batchesFrom
  by_cases h : n ≤ l.num
  · simp [h]
  · simp [h]

/-- Checks on the contents of a record that passed its checksum; they fail the open
in either mode. -/
def checkWalEntry (e : WalEntry) : Except Err Unit :=
  if e.key = [] then .error .walEmptyKey
  else if e.kind = .rangeDelete ∧ (e.value = [] ∨ e.value ≤ e.key) then .error .walInvalidRange
  else if maxIKeySeq < e.seq then .error (.walSequenceLimit e.seq)
  else if maxEntrySize < e.size then .error (.walEntrySize e.size maxEntrySize)
  else .ok ()

/-- A read-only replay keeps full memtables in memory. -/
def Engine.sealReadOnlyRecoveryMemtable (s : Engine) : Engine :=
  if s.mem.empty then s else { s with recoveryMems := s.recoveryMems ++ [s.mem], mem :=
    newMemtable }

/-- Bounds the memtable while replaying. -/
def Engine.relieve (fmt : TableFormat) (flush : Bool) (s : Engine) : Except Err Engine :=
  if s.needFlush = false then .ok s
  else if flush then s.flush fmt
  else .ok s.sealReadOnlyRecoveryMemtable

/-- The flush at the end of a replay that may write tables. -/
def Engine.drainRecovered (fmt : TableFormat) (flush : Bool) (s : Engine) : Except Err Engine :=
  if flush && !s.mem.empty then s.flush fmt else .ok s

def lastSeq (batch : List WalEntry) : Nat := (batch.getLast?.map (·.seq)).getD 0

/-- The replay so far: the engine, the last sequence applied, and the largest one
any record mentioned. -/
structure Replay where
  eng : Engine
  lastWALSeq : Nat
  maxSeq : Nat

structure ReplayMode where
  lenient : Bool
  flush : Bool

section Replay

variable (fmt : TableFormat) (mode : ReplayMode)

def visitEntry (rs : Replay) (e : WalEntry) : Except Err (Replay × Bool) :=
  if e.seq ≤ rs.lastWALSeq then
    if mode.lenient then .ok (rs, true) else .error (.walNonIncreasing e.seq rs.lastWALSeq)
  else do
    checkWalEntry e
    let eng ← (rs.eng.applyEntries [e]).relieve fmt mode.flush
    pure ({ rs with eng := eng, lastWALSeq := e.seq }, false)

def visitEntries : Replay → List WalEntry → Except Err (Replay × Bool)
  | rs, [] => .ok (rs, false)
  | rs, e :: es => do
      let r ← visitEntry fmt mode rs e
      if r.2 then pure r else visitEntries r.1 es

def replayWALFileVisit : Replay → Nat → List (List WalEntry) → Except Err (Replay × Bool)
  | rs, _, [] => .ok (rs, false)
  | rs, _, [] :: _ => if mode.lenient then .ok (rs, true) else .error .walEmptyBatch
  | rs, lastRecordSeq, (e :: es) :: batches =>
    if e.seq ≤ lastRecordSeq then
      if mode.lenient then .ok (rs, true) else .error (.walNonIncreasing e.seq lastRecordSeq)
    else do
      let rs := { rs with maxSeq := (e :: es).foldl (fun n x => max n x.seq) rs.maxSeq }
      let r ← visitEntries fmt mode rs (e :: es)
      if r.2 then pure r else replayWALFileVisit r.1 (lastSeq (e :: es)) batches

/-- The files from the boundary on, ascending, until one of them stops the replay. -/
def recoverLogs (replayLogNum : Nat) : Replay → List LogFile → Except Err Replay
  | rs, [] => .ok rs
  | rs, l :: logs =>
    if l.num < replayLogNum then recoverLogs replayLogNum rs logs
    else do
      let r ← replayWALFileVisit fmt mode rs 0 l.batches
      if r.2 then pure r.1 else recoverLogs replayLogNum r.1 logs

/-- Replays the logs and flushes what is left in the memtable; the engine and the
sequence the session starts from. -/
def recoverWALMode (eng : Engine) (replayLogNum startSeq : Nat) (logs : List LogFile) :
    Except Err (Engine × Nat) := do
  let rs ← recoverLogs fmt mode replayLogNum ⟨eng, 0, startSeq⟩ logs
  let eng ← rs.eng.drainRecovered fmt mode.flush
  pure (eng, rs.maxSeq)

end Replay

end LevisDB
