import LevisDB.Db.Log

/-!
# Writing a batch

`Write` validates the operations of a batch in order, turns them into log entries
with consecutive sequences, journals them and applies them to the active memtable.
With deduplication on, a put whose value and deadline equal what the committed
state holds for its key is left out.
-/

namespace LevisDB

open List LevisDB.Except

variable {ops : List BatchOp} {total total' : Nat} {now : Time}

inductive BatchOp where
  | put (key : Key) (value : Bytes) (expiresAt : Time)
  | delete (key : Key)
  | deleteRange (start stop : Key)
  deriving DecidableEq

namespace BatchOp

def key : BatchOp → Key
  | put key _ _ => key
  | delete key => key
  | deleteRange start _ => start

def entry : BatchOp → WalEntry
  | put key value expiresAt =>
    ⟨0, if expiresAt = 0 then .put else .putTTL, key, value, expiresAt⟩
  | delete key => ⟨0, .delete, key, [], 0⟩
  | deleteRange start stop => ⟨0, .rangeDelete, start, stop, 0⟩

end BatchOp

def validateExpiresAt (now expiresAt : Time) : Except Err Unit :=
  if expiresAt = 0 then .ok ()
  else if expiresAt ≤ now then .error .invalidTTL
  else .ok ()

/-- Counts an entry toward its own limit and the limit of the batch. -/
def chargeEntry (total size : Nat) : Except Err Nat :=
  if maxEntrySize < size then .error .entryTooLarge
  else if maxEntrySize < total + size then .error .batchTooLarge
  else .ok (total + size)

/-- The checks one operation passes before it is logged; the bytes of the batch
so far. -/
def validateOp (now : Time) (total : Nat) : BatchOp → Except Err Nat
  | .deleteRange start stop =>
    if start = [] then .error .emptyKey
    else if stop = [] ∨ stop ≤ start then .error .invalidRange
    else chargeEntry total (start.length + stop.length)
  | .delete key =>
    if key = [] then .error .emptyKey
    else chargeEntry total key.length
  | .put key value expiresAt =>
    if key = [] then .error .emptyKey
    else do
      let total ← chargeEntry total
        (key.length + value.length + if expiresAt ≠ 0 then expiryPrefixLen else 0)
      validateExpiresAt now expiresAt
      pure total

/-- Whether the committed state already holds the value and deadline of a put. A
failed lookup counts as not; a nil path function panics. -/
def isDuplicatePut (s : Engine) (readSeq : Nat) (now : Time) : BatchOp → Except Err Bool
  | .put key value expiresAt =>
    match getWithExpiry s readSeq key now with
    | .ok (some (cur, curExpiresAt)) => .ok (decide (curExpiresAt = expiresAt ∧ cur = value))
    | .ok none => .ok false
    | .error .nilBlobPath => .error .nilBlobPath
    | .error _ => .ok false
  | _ => .ok false

/-- Only puts are left out, and only with deduplication on. -/
def leavesOut (s : Engine) (readSeq : Nat) (dedup : Bool) (now : Time) (op : BatchOp) :
    Except Err Bool :=
  if dedup then isDuplicatePut s readSeq now op else .ok false

/-- The loop of `writeBatch`: the entries to log, in order. -/
def batchEntries (s : Engine) (readSeq : Nat) (dedup : Bool) (now : Time) :
    Nat → List BatchOp → Except Err (List WalEntry)
  | _, [] => .ok []
  | total, op :: ops => do
      let total ← validateOp now total op
      let skip ← leavesOut s readSeq dedup now op
      let rest ← batchEntries s readSeq dedup now total ops
      pure (if skip then rest else op.entry :: rest)

def validateOps (now : Time) : Nat → List BatchOp → Except Err Unit
  | _, [] => .ok ()
  | total, op :: ops => do
      let total ← validateOp now total op
      validateOps now total ops

/-- The operations that pass their checks before the first that does not. -/
def checked (now : Time) : Nat → List BatchOp → List BatchOp
  | _, [] => []
  | total, op :: ops =>
    match validateOp now total op with
    | .error _ => []
    | .ok total => op :: checked now total ops

def assignSeqs (base : Nat) : List WalEntry → List WalEntry
  | [] => []
  | e :: es => { e with seq := base } :: assignSeqs (base + 1) es

/-- Reserves `n` sequences; the first of them. -/
def reserveSeq (walSeq n : Nat) : Except Err Nat :=
  if maxIKeySeq < walSeq ∨ maxIKeySeq - walSeq < n then .error .sequenceExhausted
  else .ok (walSeq + 1)

/-- A database between two writes: the engine, the last sequence handed out and
the last one published to readers. -/
structure Quiescent where
  eng : Engine
  walSeq : Nat
  readSeq : Nat

namespace Quiescent

/-- Applies a durable batch and publishes its last sequence. -/
def applyCommitted (s : Quiescent) (entries : List WalEntry) : Quiescent :=
  { eng := s.eng.applyEntries entries
    walSeq := s.walSeq + entries.length
    readSeq := s.walSeq + entries.length }

/-- `Write` of a batch whose journal write succeeds. -/
def write (s : Quiescent) (dedup : Bool) (now : Time) (ops : List BatchOp) :
    Except Err Quiescent :=
  if ops = [] then .ok s
  else if ∃ op ∈ ops, op.key = [] then .error .emptyKey
  else do
    let entries ← batchEntries s.eng s.readSeq dedup now 0 ops
    if entries = [] then pure s
    else do
      let base ← reserveSeq s.walSeq entries.length
      pure (s.applyCommitted (assignSeqs base entries))

end Quiescent

theorem chargeEntry_eq_ok {size : Nat} (h : chargeEntry total size = .ok total') :
    size ≤ maxEntrySize ∧ total' = total + size ∧ total + size ≤ maxEntrySize := by
  unfold chargeEntry at h
  split_ifs at h with h₁ h₂
  cases h
  exact ⟨Nat.not_lt.1 h₁, rfl, Nat.not_lt.1 h₂⟩

/-- What the checks establish about the entry that will be logged. -/
structure BatchOp.Accepted (op : BatchOp) : Prop where
  key : op.entry.key ≠ []
  range : op.entry.kind = .rangeDelete → op.entry.value ≠ [] ∧ op.entry.key < op.entry.value
  ttl : op.entry.kind = .putTTL → 0 < op.entry.expiresAt
  size : op.entry.size ≤ maxEntrySize

theorem validateOp_put_future {k : Key} {v : Bytes} {e : Time}
    (h : validateOp now total (.put k v e) = .ok total') (hne : e ≠ 0) : now < e := by
  rw [validateOp] at h
  by_cases hkey : k = []
  · rw [if_pos hkey] at h
    cases h
  · rw [if_neg hkey] at h
    obtain ⟨total₁, _, h⟩ := bind_eq_ok.1 h
    obtain ⟨_, hexp, _⟩ := bind_eq_ok.1 h
    unfold validateExpiresAt at hexp
    rw [if_neg hne] at hexp
    split_ifs at hexp with hle
    exact lt_of_not_ge hle

theorem validateOp_eq_ok (hnow : 0 ≤ now) {op : BatchOp}
    (h : validateOp now total op = .ok total') : op.Accepted := by
  cases op with
  | deleteRange start stop =>
    rw [validateOp] at h
    split_ifs at h with hkey hrange
    obtain ⟨hsize, _, _⟩ := chargeEntry_eq_ok h
    push Not at hrange
    exact ⟨hkey, fun _ => hrange, by simp [BatchOp.entry], by
      simpa [BatchOp.entry, WalEntry.size] using hsize⟩
  | delete key =>
    rw [validateOp] at h
    split_ifs at h with hkey
    obtain ⟨hsize, _, _⟩ := chargeEntry_eq_ok h
    exact ⟨hkey, by simp [BatchOp.entry], by simp [BatchOp.entry], by
      simpa [BatchOp.entry, WalEntry.size] using hsize⟩
  | put key value expiresAt =>
    have hfuture : expiresAt ≠ 0 → now < expiresAt := validateOp_put_future h
    rw [validateOp] at h
    by_cases hkey : key = []
    · rw [if_pos hkey] at h
      cases h
    · rw [if_neg hkey] at h
      obtain ⟨total₁, hcharge, _⟩ := bind_eq_ok.1 h
      obtain ⟨hsize, _, _⟩ := chargeEntry_eq_ok hcharge
      by_cases hzero : expiresAt = 0
      · exact ⟨hkey, by simp [BatchOp.entry, hzero], by simp [BatchOp.entry, hzero], by
          simpa [BatchOp.entry, WalEntry.size, hzero] using hsize⟩
      · exact ⟨hkey, by simp [BatchOp.entry, hzero], fun _ => lt_of_le_of_lt hnow (hfuture hzero),
          by simpa [BatchOp.entry, WalEntry.size, hzero] using hsize⟩

theorem batchEntries_eq {s : Engine} {readSeq : Nat} {dedup : Bool}
    (skip : BatchOp → Bool) (total : Nat)
    (hskip : ∀ op ∈ checked now total ops, leavesOut s readSeq dedup now op = .ok (skip op)) :
    batchEntries s readSeq dedup now total ops =
      (validateOps now total ops).map fun _ =>
        (ops.filter fun op => !skip op).map BatchOp.entry := by
  induction ops generalizing total with
  | nil => rfl
  | cons op ops ih =>
    unfold batchEntries validateOps
    rw [checked] at hskip
    cases hop : validateOp now total op with
    | error err => rfl
    | ok total' =>
      rw [hop] at hskip
      rw [ok_bind, hskip op (by simp), ok_bind,
        ih total' (fun o ho => hskip o (mem_cons_of_mem _ ho)), ok_bind]
      cases validateOps now total' ops with
      | error err => rfl
      | ok u => cases hs : skip op <;> simp [Except.map, hs, pure, Except.pure]

theorem batchEntries_error {s : Engine} {readSeq : Nat} {dedup : Bool} {err : Err}
    (htest : ∀ op, (∃ skip, leavesOut s readSeq dedup now op = .ok skip) ∨
      leavesOut s readSeq dedup now op = .error err) {total : Nat}
    (h : ∃ op ∈ checked now total ops, leavesOut s readSeq dedup now op = .error err) :
    batchEntries s readSeq dedup now total ops = .error err := by
  induction ops generalizing total with
  | nil => simp [checked] at h
  | cons op ops ih =>
    unfold batchEntries
    rw [checked] at h
    cases hop : validateOp now total op with
    | error err' => simp [hop] at h
    | ok total' =>
      rw [hop, exists_mem_cons_iff] at h
      rw [ok_bind]
      rcases htest op with ⟨skip, hskip⟩ | herr
      · rw [hskip, ok_bind, ih (h.resolve_left fun herr => by rw [hskip] at herr; cases herr)]
        rfl
      · rw [herr]
        rfl

theorem validateOps_eq_ok (hnow : 0 ≤ now)
    (h : validateOps now total ops = .ok ()) : ∀ op ∈ ops, op.Accepted := by
  induction ops generalizing total with
  | nil => simp
  | cons op ops ih =>
    unfold validateOps at h
    obtain ⟨total', hop, h⟩ := bind_eq_ok.1 h
    intro o ho
    rcases mem_cons.1 ho with rfl | ho
    · exact validateOp_eq_ok hnow hop
    · exact ih h o ho

theorem batchEntries_accepted {s : Engine} {readSeq : Nat} {dedup : Bool}
    (hnow : 0 ≤ now) {entries : List WalEntry}
    (h : batchEntries s readSeq dedup now total ops = .ok entries) :
    ∃ kept : List BatchOp, (∀ op ∈ kept, op.Accepted) ∧ entries = kept.map BatchOp.entry := by
  induction ops generalizing total entries with
  | nil =>
    cases h
    exact ⟨[], by simp, rfl⟩
  | cons op ops ih =>
    unfold batchEntries at h
    obtain ⟨total', hop, h⟩ := bind_eq_ok.1 h
    obtain ⟨skip, _, h⟩ := bind_eq_ok.1 h
    obtain ⟨rest, hrest, h⟩ := bind_eq_ok.1 h
    cases h
    obtain ⟨kept, hacc, rfl⟩ := ih hrest
    cases skip with
    | true => exact ⟨kept, hacc, rfl⟩
    | false =>
      refine ⟨op :: kept, fun o ho => ?_, rfl⟩
      rcases mem_cons.1 ho with rfl | ho
      · exact validateOp_eq_ok hnow hop
      · exact hacc o ho

theorem validateOps_future (h : validateOps now total ops = .ok ()) {k : Key} {v : Bytes} {e : Time}
    (hop : .put k v e ∈ ops) (hne : e ≠ 0) : now < e := by
  induction ops generalizing total with
  | nil => cases hop
  | cons op ops ih =>
    unfold validateOps at h
    obtain ⟨total', hcheck, h⟩ := bind_eq_ok.1 h
    rcases mem_cons.1 hop with rfl | hop
    · exact validateOp_put_future hcheck hne
    · exact ih h hop

theorem mem_assignSeqs {base : Nat} {es : List WalEntry} {e : WalEntry}
    (h : e ∈ assignSeqs base es) :
    base ≤ e.seq ∧ e.seq < base + es.length ∧ ∃ e₀ ∈ es, e = { e₀ with seq := e.seq } := by
  induction es generalizing base with
  | nil => cases h
  | cons a es ih =>
    rcases mem_cons.1 h with rfl | h
    · exact ⟨Nat.le_refl _, by simp, a, by simp, rfl⟩
    · obtain ⟨hlo, hhi, e₀, he₀, heq⟩ := ih h
      rw [length_cons]
      exact ⟨by omega, by omega, e₀, by simp [he₀], heq⟩

theorem assignSeqs_ascending (base : Nat) (es : List WalEntry) :
    Ascending (assignSeqs base es) := by
  induction es generalizing base with
  | nil => exact List.Pairwise.nil
  | cons a es ih =>
    refine pairwise_cons.2 ⟨?_, ih (base + 1)⟩
    intro e he
    exact (mem_assignSeqs he).1

theorem assignSeqs_length (base : Nat) (es : List WalEntry) :
    (assignSeqs base es).length = es.length := by
  induction es generalizing base with
  | nil => rfl
  | cons a es ih => simp [assignSeqs, ih]

theorem foldl_effect_assignSeqs (now : Time) (key : Key) (base : Nat) (es : List WalEntry)
    (before : Option (Bytes × Time)) :
    (assignSeqs base es).foldl (WalEntry.effect now key) before =
      es.foldl (WalEntry.effect now key) before := by
  induction es generalizing base before with
  | nil => rfl
  | cons a es ih =>
    rw [assignSeqs, foldl_cons, foldl_cons, ih]
    rfl

theorem reserveSeq_eq_ok {walSeq n base : Nat} (h : reserveSeq walSeq n = .ok base) :
    base = walSeq + 1 ∧ walSeq + n ≤ maxIKeySeq := by
  unfold reserveSeq at h
  split_ifs at h with hfull
  cases h
  push Not at hfull
  exact ⟨rfl, by omega⟩

theorem assignSeqs_valid {walSeq : Nat} {kept : List BatchOp} (hacc : ∀ op ∈ kept, op.Accepted)
    (hmax : walSeq + kept.length ≤ maxIKeySeq) :
    ∀ e ∈ assignSeqs (walSeq + 1) (kept.map BatchOp.entry), e.Valid := by
  intro e he
  obtain ⟨hlo, hhi, e₀, he₀, heq⟩ := mem_assignSeqs he
  obtain ⟨op, hop, rfl⟩ := mem_map.1 he₀
  obtain ⟨hkey, hrange, httl, hsize⟩ := hacc op hop
  rw [length_map] at hhi
  rw [heq]
  exact ⟨hkey, hrange, httl, hsize, by simp only; omega, by simp only; omega⟩

namespace Quiescent

def view (s : Quiescent) (now : Time) (key : Key) : Option (Bytes × Time) :=
  s.eng.reference s.readSeq now key

/-- Every stored mutation is published, the blobs are on disk, and stored copies of
one mutation agree from `T₀` on. -/
structure Consistent (T₀ : Time) (s : Quiescent) : Prop where
  readable : s.eng.Readable
  blobsPresent : s.eng.BlobsPresent
  copies : ∀ t, T₀ ≤ t → CopiesAgreeAt t s.eng.entries
  points : ∀ e ∈ s.eng.entries, e.seq ≤ s.readSeq
  rangeDels : ∀ rt ∈ s.eng.rangeDels, rt.seq ≤ s.readSeq
  published : s.readSeq ≤ s.walSeq

/-- Moreover the session has a path for its blobs, so that every read succeeds. -/
structure Settled (T₀ : Time) (s : Quiescent) : Prop extends Consistent T₀ s where
  resolvesBlobs : s.eng.ResolvesBlobs

section Apply

variable {s : Quiescent} {T₀ : Time} {es : List WalEntry}

theorem Consistent.later (hs : s.Consistent T₀) {T₁ : Time} (hT : T₀ ≤ T₁) : s.Consistent T₁ :=
  { hs with copies := fun t ht => hs.copies t (le_trans hT ht) }

theorem Settled.later (hs : s.Settled T₀) {T₁ : Time} (hT : T₀ ≤ T₁) : s.Settled T₁ :=
  ⟨hs.toConsistent.later hT, hs.resolvesBlobs⟩

structure Follows (s : Quiescent) (es : List WalEntry) : Prop where
  valid : ∀ e ∈ es, e.Valid
  ascending : Ascending es
  newer : ∀ e ∈ es, s.walSeq < e.seq
  last : ∀ e ∈ es, e.seq ≤ s.walSeq + es.length

theorem applyCommitted_copies (hs : s.Consistent T₀) (hes : s.Follows es) {t : Time} (ht : T₀ ≤ t) :
    CopiesAgreeAt t (s.applyCommitted es).eng.entries := by
  intro e he e' he' huser hseq
  have hbelow : ∀ p ∈ s.eng.entries, ∀ q ∈ logPoints es, p.seq < q.seq := by
    intro p hp q hq
    obtain ⟨x, hx, hxq⟩ := mem_logPoints.1 hq
    have h₁ := hs.points p hp
    have h₂ := hs.published
    have h₃ := hes.newer x hx
    rw [WalEntry.seq_of_point? hxq]
    omega
  rcases Engine.mem_entries_applyEntries.1 he with he | he <;>
    rcases Engine.mem_entries_applyEntries.1 he' with he' | he'
  · exact hs.copies t ht e he e' he' huser hseq
  · have := hbelow e he e' he'
    omega
  · have := hbelow e' he' e he
    omega
  · obtain ⟨x, hx, hxe⟩ := mem_logPoints.1 he
    obtain ⟨y, hy, hye⟩ := mem_logPoints.1 he'
    have hxy : x = y := hes.ascending.eq_of_seq hx hy (by
      rw [← WalEntry.seq_of_point? hxe, ← WalEntry.seq_of_point? hye, hseq])
    subst hxy
    rw [hxe] at hye
    rw [Option.some.inj hye]

theorem applyCommitted_view (hs : s.Consistent T₀) (hes : s.Follows es) {t : Time} (ht : T₀ ≤ t)
    (key : Key) :
    (s.applyCommitted es).view t key = es.foldl (WalEntry.effect t key) (s.view t key) := by
  have hv : ∀ v ∈ s.eng.store.versions, v.seq ≤ s.readSeq := by
    rintro _ ⟨e, he, rfl⟩
    exact hs.points e he
  apply Option.ext
  intro x
  have hafter : (s.applyCommitted es).view t key = some x ↔
      (s.applyCommitted es).eng.store.Sees (Payload.bytesAt s.eng.blobs) key
        (s.walSeq + es.length) t x :=
    Engine.reference_eq_some_iff (applyCommitted_copies hs hes ht)
  have hpub := hs.published
  rw [hafter, applyCommitted, Engine.store_applyEntries]
  exact sees_union_logStore_iff hv hs.rangeDels
    (fun y => (Engine.reference_eq_some_iff (hs.copies t ht)).symm) hes.valid hes.ascending
    (fun e he => by have := hes.newer e he; omega) (by omega) hes.last x

theorem applyCommitted_consistent (hs : s.Consistent T₀) (hes : s.Follows es) :
    (s.applyCommitted es).Consistent T₀ where
  readable := by
    refine ⟨?_, hs.readable.healthy, hs.readable.decodes, hs.readable.bounded⟩
    intro m hm e he
    have hold : ∀ m' ∈ s.eng.memtables, e ∈ m'.points → e.kind ≠ .blobRef :=
      fun m' hm' => hs.readable.memKinds m' hm' e
    rcases mem_cons.1 hm with rfl | hm
    · rcases mem_append.1 ((foldl_applyEntry_points_perm s.eng.mem es).mem_iff.1 he) with h | h
      · exact hold _ (mem_cons_self) h
      · obtain ⟨x, _, hx⟩ := mem_logPoints.1 h
        exact WalEntry.kind_of_point? hx
    · exact hold m (mem_cons_of_mem _ hm) he
  blobsPresent := hs.blobsPresent
  copies t ht := applyCommitted_copies hs hes ht
  points := by
    intro e he
    have hpub := hs.published
    change e.seq ≤ s.walSeq + es.length
    rcases Engine.mem_entries_applyEntries.1 he with he | he
    · have := hs.points e he
      omega
    · obtain ⟨x, hx, hxe⟩ := mem_logPoints.1 he
      rw [WalEntry.seq_of_point? hxe]
      exact hes.last x hx
  rangeDels := by
    intro rt hrt
    have hpub := hs.published
    change rt.seq ≤ s.walSeq + es.length
    rcases Engine.mem_rangeDels_applyEntries.1 hrt with hrt | hrt
    · have := hs.rangeDels rt hrt
      omega
    · obtain ⟨x, hx, hxe⟩ := mem_logRangeDels.1 hrt
      rw [WalEntry.seq_of_span? hxe]
      exact hes.last x hx
  published := Nat.le_refl _

end Apply

end Quiescent

end LevisDB
