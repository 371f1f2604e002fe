import LevisDB.Engine.Flush

/-!
# Log entries and what a log means

A batch is journaled as a list of log entries with consecutive sequences, and
applied to the active memtable one entry at a time. Read in order, a log is a map
with deadlines: every entry overwrites, deletes or range-deletes what came before
it. `logView` is that reading, and the multi-version store of a log with ascending
sequences resolves every key to it.
-/

namespace LevisDB

open List

inductive WalKind where
  | put
  | delete
  | putTTL
  | rangeDelete
  deriving DecidableEq

/-- One mutation of a batch. For a range delete, `key` is the start of the range
and `value` its exclusive end. -/
structure WalEntry where
  seq : Nat
  kind : WalKind
  key : Key
  value : Bytes
  expiresAt : Time
  deriving DecidableEq

/-- Caps a single key and value and the cumulative bytes of a batch. -/
def maxEntrySize : Nat := 2 ^ 30

namespace WalEntry

/-- The point entry a mutation buffers, none for a range delete. -/
def point? (e : WalEntry) : Option Entry :=
  match e.kind with
  | .put => some ⟨⟨e.key, e.seq, .set⟩, e.value⟩
  | .putTTL => some ⟨⟨e.key, e.seq, .setTTL⟩, encodeExpiringValue e.value e.expiresAt⟩
  | .delete => some ⟨⟨e.key, e.seq, .delete⟩, []⟩
  | .rangeDelete => none

def span? (e : WalEntry) : Option RangeTombstone :=
  match e.kind with
  | .rangeDelete => some ⟨e.key, e.value, e.seq⟩
  | _ => none

/-- The bytes an entry counts toward the size limit. -/
def size (e : WalEntry) : Nat :=
  e.key.length + e.value.length + if e.kind = .putTTL then expiryPrefixLen else 0

/-- What an accepted batch puts into the log. -/
structure Valid (e : WalEntry) : Prop where
  key : e.key ≠ []
  range : e.kind = .rangeDelete → e.value ≠ [] ∧ e.key < e.value
  ttl : e.kind = .putTTL → 0 < e.expiresAt
  size : e.size ≤ maxEntrySize
  seqPos : 0 < e.seq
  seqMax : e.seq ≤ maxIKeySeq

theorem seq_of_point? {e : WalEntry} {p : Entry} (h : e.point? = some p) : p.seq = e.seq := by
  unfold point? at h
  cases hk : e.kind <;> simp only [hk] at h <;> cases h <;> rfl

theorem seq_of_span? {e : WalEntry} {rt : RangeTombstone} (h : e.span? = some rt) :
    rt.seq = e.seq := by
  unfold span? at h
  cases hk : e.kind <;> simp only [hk] at h <;> cases h
  rfl

theorem kind_of_point? {e : WalEntry} {p : Entry} (h : e.point? = some p) : p.kind ≠ .blobRef := by
  unfold point? at h
  cases hk : e.kind <;> simp only [hk] at h <;> cases h <;> simp

theorem decodes_of_point? {e : WalEntry} (he : e.Valid) {p : Entry} (h : e.point? = some p) :
    p.payload.Decodes := by
  unfold point? at h
  cases hk : e.kind <;> simp only [hk] at h <;> cases h
  · trivial
  · trivial
  · exact ⟨_, decodeExpiringValue_encode (he.ttl hk)⟩

theorem length_of_point? {e : WalEntry} (he : e.Valid) {p : Entry} (h : e.point? = some p) :
    p.value.length < 2 ^ 32 := by
  have hsize := he.size
  unfold size maxEntrySize at hsize
  unfold point? at h
  cases hk : e.kind <;> simp only [hk] at h hsize <;> cases h
  · simp only
    omega
  · simp
  · have hlen : (encodeExpiringValue e.value e.expiresAt).length =
        expiryPrefixLen + e.value.length := by simp [encodeExpiringValue]
    simp only [if_true] at hsize
    simp only [hlen]
    omega

/-- What is left of a key's value and deadline at `now` once the mutation applied. -/
def effect (now : Time) (key : Key) (before : Option (Bytes × Time)) (e : WalEntry) :
    Option (Bytes × Time) :=
  match e.kind with
  | .put => if key = e.key then some (e.value, 0) else before
  | .putTTL =>
    if key = e.key then if e.expiresAt ≤ now then none else some (e.value, e.expiresAt)
    else before
  | .delete => if key = e.key then none else before
  | .rangeDelete => if e.key ≤ key ∧ key < e.value then none else before

end WalEntry

/-- The value and deadline of `key` after the mutations, in order. -/
def logView (now : Time) (es : List WalEntry) (key : Key) : Option (Bytes × Time) :=
  es.foldl (WalEntry.effect now key) none

/-- `applyCommitted` and the replay, for one entry. -/
def applyEntry (m : Memtable) (e : WalEntry) : Memtable :=
  match e.kind with
  | .delete => m.del e.seq e.key
  | .rangeDelete => m.delRange e.seq e.key e.value
  | .putTTL => m.putTTL e.seq e.key e.value e.expiresAt
  | .put => m.put e.seq e.key e.value

def logPoints (es : List WalEntry) : List Entry := es.filterMap WalEntry.point?

def logRangeDels (es : List WalEntry) : List RangeTombstone := es.filterMap WalEntry.span?

def logStore (es : List WalEntry) : Mvcc.Store Key Payload :=
    storeOf (logPoints es) (logRangeDels es)

theorem logPoints_append (es es' : List WalEntry) :
    logPoints (es ++ es') = logPoints es ++ logPoints es' := filterMap_append

theorem logRangeDels_append (es es' : List WalEntry) :
    logRangeDels (es ++ es') = logRangeDels es ++ logRangeDels es' := filterMap_append

theorem logStore_append (es es' : List WalEntry) :
    logStore (es ++ es') = logStore es ∪ logStore es' := by
  rw [logStore, logPoints_append, logRangeDels_append, storeOf_append]
  rfl

theorem applyEntry_points_perm (m : Memtable) (e : WalEntry) :
    (applyEntry m e).points.Perm (e.point?.toList ++ m.points) := by
  unfold applyEntry WalEntry.point?
  cases e.kind with
  | rangeDelete => exact List.Perm.refl _
  | put => exact perm_orderedInsert _ _ _
  | delete => exact perm_orderedInsert _ _ _
  | putTTL => exact perm_orderedInsert _ _ _

theorem applyEntry_rts (m : Memtable) (e : WalEntry) :
    (applyEntry m e).rts = m.rts ++ e.span?.toList := by
  unfold applyEntry WalEntry.span?
  cases e.kind with
  | rangeDelete => rfl
  | put => simp [Memtable.put]
  | delete => simp [Memtable.del]
  | putTTL => simp [Memtable.putTTL]

theorem foldl_applyEntry_points_perm (m : Memtable) (es : List WalEntry) :
    (es.foldl applyEntry m).points.Perm (m.points ++ logPoints es) := by
  induction es generalizing m with
  | nil => simp [logPoints]
  | cons e es ih =>
    have hcons : logPoints (e :: es) = e.point?.toList ++ logPoints es := by
      cases h : e.point? <;> simp [logPoints, h]
    rw [foldl_cons, hcons, ← append_assoc]
    exact (ih _).trans (((applyEntry_points_perm m e).trans perm_append_comm).append_right _)

theorem foldl_applyEntry_rts (m : Memtable) (es : List WalEntry) :
    (es.foldl applyEntry m).rts = m.rts ++ logRangeDels es := by
  induction es generalizing m with
  | nil => simp [logRangeDels]
  | cons e es ih =>
    have hcons : logRangeDels (e :: es) = e.span?.toList ++ logRangeDels es := by
      cases h : e.span? <;> simp [logRangeDels, h]
    rw [foldl_cons, ih, applyEntry_rts, hcons, append_assoc]

theorem mem_logPoints {es : List WalEntry} {p : Entry} :
    p ∈ logPoints es ↔ ∃ e ∈ es, e.point? = some p := mem_filterMap

theorem mem_logRangeDels {es : List WalEntry} {rt : RangeTombstone} :
    rt ∈ logRangeDels es ↔ ∃ e ∈ es, e.span? = some rt := mem_filterMap

def Engine.applyEntries (s : Engine) (es : List WalEntry) : Engine :=
  { s with mem := es.foldl applyEntry s.mem }

theorem Engine.mem_entries_applyEntries {s : Engine} {es : List WalEntry} {p : Entry} :
    p ∈ (s.applyEntries es).entries ↔ p ∈ s.entries ∨ p ∈ logPoints es := by
  simp only [entries, memtables, applyEntries, memPoints, flatMap_cons, mem_append,
    (foldl_applyEntry_points_perm s.mem es).mem_iff]
  tauto

theorem Engine.mem_rangeDels_applyEntries {s : Engine} {es : List WalEntry} {rt : RangeTombstone} :
    rt ∈ (s.applyEntries es).rangeDels ↔ rt ∈ s.rangeDels ∨ rt ∈ logRangeDels es := by
  simp only [rangeDels, memtables, applyEntries, memRangeDels, flatMap_cons, mem_append,
    foldl_applyEntry_rts]
  tauto

theorem Engine.store_applyEntries (s : Engine) (es : List WalEntry) :
    (s.applyEntries es).store = s.store ∪ logStore es := by
  unfold store logStore
  rw [← storeOf_append]
  exact storeOf_congr (fun p => by rw [mem_entries_applyEntries, mem_append])
    fun rt => by rw [mem_rangeDels_applyEntries, mem_append]

def Ascending (es : List WalEntry) : Prop := es.Pairwise fun a b => a.seq < b.seq

theorem Ascending.eq_of_seq {es : List WalEntry} (h : Ascending es) {a b : WalEntry} (ha : a ∈ es)
    (hb : b ∈ es) (hseq : a.seq = b.seq) : a = b := by
  have hnodup : (es.map WalEntry.seq).Nodup :=
    pairwise_map.2 (h.imp fun hlt => Nat.ne_of_lt hlt)
  exact inj_on_of_nodup_map hnodup ha hb hseq

section View

variable {blobs : List (Nat × Bytes)} {now : Time} {key : Key}

theorem bytesAt_of_point? {e : WalEntry} (he : e.Valid) {p : Entry} (h : e.point? = some p)
    (before : Option (Bytes × Time)) :
    p.payload.bytesAt blobs now = e.effect now p.user before := by
  unfold WalEntry.point? at h
  unfold WalEntry.effect
  cases hk : e.kind <;> simp only [hk] at h <;> cases h
  · simp [Payload.bytesAt, Payload.liveAt, Entry.payload, liveReference]
  · simp [Payload.bytesAt, Payload.liveAt, Entry.payload]
  · simp only [Payload.bytesAt, Payload.liveAt, Entry.payload,
      decodeExpiringValue_encode (he.ttl hk)]
    split_ifs <;> rfl

theorem effect_of_point?_ne {e : WalEntry} {p : Entry} (h : e.point? = some p)
    (hne : key ≠ p.user) (before : Option (Bytes × Time)) : e.effect now key before = before := by
  unfold WalEntry.point? at h
  unfold WalEntry.effect
  cases hk : e.kind <;> simp only [hk] at h <;> cases h <;> exact if_neg hne

theorem effect_of_span? {e : WalEntry} {rt : RangeTombstone} (h : e.span? = some rt)
    (before : Option (Bytes × Time)) :
    e.effect now key before = if rt.Contains key then none else before := by
  unfold WalEntry.span? at h
  unfold WalEntry.effect
  cases hk : e.kind <;> simp only [hk] at h <;> cases h
  exact if_congr Iff.rfl rfl rfl

theorem point?_or_span? (e : WalEntry) :
    (∃ p, e.point? = some p ∧ e.span? = none) ∨ ∃ rt, e.span? = some rt ∧ e.point? = none := by
  unfold WalEntry.point? WalEntry.span?
  cases e.kind <;> simp

theorem sees_union_entry_iff {S : Mvcc.Store Key Payload} {n : Nat}
    (hv : ∀ v ∈ S.versions, v.seq ≤ n) (hs : ∀ s ∈ S.spans, s.seq ≤ n)
    {before : Option (Bytes × Time)}
    (hbefore : ∀ x, S.Sees (Payload.bytesAt blobs) key n now x ↔ before = some x)
    {e : WalEntry} (he : e.Valid) (hnew : n < e.seq) (x : Bytes × Time) :
    (S ∪ logStore [e]).Sees (Payload.bytesAt blobs) key e.seq now x ↔
      e.effect now key before = some x := by
  rcases point?_or_span? e with ⟨p, hp, hspan⟩ | ⟨rt, hspan, hp⟩
  · have hstore : logStore [e] = ⟨{p.version}, ∅⟩ := by
      ext v
      · simp [logStore, logPoints, hp, mem_storeOf_versions, eq_comm]
      · simp [logStore, logRangeDels, hspan]
    have hseq := WalEntry.seq_of_point? hp
    rw [hstore, Mvcc.Store.sees_newer_version hv hs (q := p.version) (by simpa [hseq] using hnew)
      (by simp [hseq]) (Nat.le_refl n)]
    by_cases hkey : key = p.user
    · subst hkey
      simp [bytesAt_of_point? he hp before]
    · simp [hkey, hbefore, effect_of_point?_ne hp hkey]
  · have hstore : logStore [e] = ⟨∅, {rt}⟩ := by
      ext v
      · simp [logStore, logPoints, hp, mem_storeOf_versions]
      · simp [logStore, logRangeDels, hspan, eq_comm]
    have hseq := WalEntry.seq_of_span? hspan
    rw [hstore, Mvcc.Store.sees_newer_span hv hs (by omega) (by omega) (Nat.le_refl n),
      effect_of_span? hspan, hbefore]
    split_ifs with hcon <;> simp [hcon]

theorem logStore_bounded {es : List WalEntry} {n : Nat} (h : ∀ e ∈ es, e.seq ≤ n) :
    (∀ v ∈ (logStore es).versions, v.seq ≤ n) ∧ ∀ s ∈ (logStore es).spans, s.seq ≤ n := by
  constructor
  · rintro _ ⟨p, hp, rfl⟩
    obtain ⟨e, he, hpe⟩ := mem_logPoints.1 hp
    rw [Entry.version_seq, WalEntry.seq_of_point? hpe]
    exact h e he
  · intro rt hrt
    obtain ⟨e, he, hre⟩ := mem_logRangeDels.1 hrt
    rw [WalEntry.seq_of_span? hre]
    exact h e he

theorem sees_union_logStore_iff {S : Mvcc.Store Key Payload} {n : Nat}
    (hv : ∀ v ∈ S.versions, v.seq ≤ n) (hs : ∀ s ∈ S.spans, s.seq ≤ n)
    {before : Option (Bytes × Time)}
    (hbefore : ∀ x, S.Sees (Payload.bytesAt blobs) key n now x ↔ before = some x)
    {es : List WalEntry} (hvalid : ∀ e ∈ es, e.Valid) (hasc : Ascending es)
    (hnew : ∀ e ∈ es, n < e.seq) {r : Nat} (hnr : n ≤ r) (hr : ∀ e ∈ es, e.seq ≤ r)
    (x : Bytes × Time) :
    (S ∪ logStore es).Sees (Payload.bytesAt blobs) key r now x ↔
      es.foldl (WalEntry.effect now key) before = some x := by
  induction es generalizing S n before with
  | nil =>
    have hempty : S ∪ logStore [] = S := by
      ext v
      · simp [logStore, logPoints, mem_storeOf_versions]
      · simp [logStore, logRangeDels]
    rw [hempty, foldl_nil, ← hbefore]
    exact ⟨Mvcc.Store.sees_of_bounded hv hs hnr (Nat.le_refl n),
      Mvcc.Store.sees_of_bounded hv hs (Nat.le_refl n) hnr⟩
  | cons e es ih =>
    have hone : (∀ v ∈ (logStore [e]).versions, v.seq ≤ e.seq) ∧
        ∀ s ∈ (logStore [e]).spans, s.seq ≤ e.seq := logStore_bounded (by simp)
    have hn := hnew e (by simp)
    obtain ⟨hlt, hasc⟩ := pairwise_cons.1 hasc
    have hsplit : S ∪ logStore (e :: es) = (S ∪ logStore [e]) ∪ logStore es := by
      rw [Mvcc.Store.union_assoc, ← logStore_append]
      rfl
    rw [hsplit, foldl_cons]
    refine ih ?_ ?_ (sees_union_entry_iff hv hs hbefore (hvalid e (by simp)) hn)
      (fun e' he' => hvalid e' (by simp [he'])) hasc hlt (hr e (by simp))
      (fun e' he' => hr e' (by simp [he']))
    · rintro v (hvS | hve)
      · exact Nat.le_of_lt (Nat.lt_of_le_of_lt (hv v hvS) hn)
      · exact hone.1 v hve
    · rintro s (hsS | hse)
      · exact Nat.le_of_lt (Nat.lt_of_le_of_lt (hs s hsS) hn)
      · exact hone.2 s hse

theorem sees_logStore_iff {es : List WalEntry} (hvalid : ∀ e ∈ es, e.Valid) (hasc : Ascending es)
    {r : Nat} (hr : ∀ e ∈ es, e.seq ≤ r) (x : Bytes × Time) :
    (logStore es).Sees (Payload.bytesAt blobs) key r now x ↔ logView now es key = some x := by
  have hempty : logStore es = logStore [] ∪ logStore es := by
    rw [← logStore_append]
    rfl
  rw [hempty]
  refine sees_union_logStore_iff (n := 0) ?_ ?_ ?_ hvalid hasc (fun e he => (hvalid e he).seqPos)
    (Nat.zero_le r) hr x
  · rintro v ⟨e, he, _⟩
    simp [logPoints] at he
  · intro s hs
    simp [logStore, logRangeDels] at hs
  · intro y
    constructor
    · rintro ⟨v, ⟨⟨e, he, _⟩, _⟩, _⟩
      simp [logPoints] at he
    · intro h
      cases h

end View

end LevisDB
