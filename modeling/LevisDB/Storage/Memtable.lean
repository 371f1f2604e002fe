import LevisDB.Core.Versions

/-!
# Memtable

The in-memory write buffer: point entries in internal-key order, as the base
level of the skiplist holds them, and the buffered range tombstones in insertion
order. The structure carries the order, so no operation can lose it.
-/

namespace LevisDB

structure Memtable where
  points : List Entry
  rts : List RangeTombstone
  size : Nat
  count : Nat
  sorted : points.Pairwise IKeyOrder

def newMemtable : Memtable := ⟨[], [], 0, 0, List.Pairwise.nil⟩

namespace Memtable

def empty (m : Memtable) : Bool := m.points.isEmpty && m.rts.isEmpty

/-- Links the entry in front of the first node that is not below it. -/
def add (m : Memtable) (seq : Nat) (kind : IKeyKind) (key : Key) (value : Bytes) : Memtable where
  points := m.points.orderedInsert IKeyOrder ⟨⟨key, seq, kind⟩, value⟩
  rts := m.rts
  size := m.size + (key.length + 8 + value.length)
  count := m.count + 1
  sorted := m.sorted.orderedInsert _ _

def put (m : Memtable) (seq : Nat) (key : Key) (value : Bytes) : Memtable :=
  m.add seq .set key value

def putTTL (m : Memtable) (seq : Nat) (key : Key) (value : Bytes) (expiresAt : Time) : Memtable :=
  m.add seq .setTTL key (encodeExpiringValue value expiresAt)

def del (m : Memtable) (seq : Nat) (key : Key) : Memtable := m.add seq .delete key []

def delRange (m : Memtable) (seq : Nat) (start stop : Key) : Memtable where
  points := m.points
  rts := m.rts ++ [⟨start, stop, seq⟩]
  size := m.size + (start.length + stop.length)
  count := m.count + 1
  sorted := m.sorted

/-- The first node at or after the lookup key. -/
def seek (m : Memtable) (target : IKey) : Option Entry :=
  m.points.find? fun e => decide (target ≤ e.toIKey)

/-- How the memtable reads the node it found. A TTL value that does not decode
reads as deleted; no other kind is decoded. -/
def nodeVersion (e : Entry) (now : Time) : VersionAt :=
  match e.kind with
  | .delete => .tombstone e.seq
  | .setTTL =>
    match decodeExpiringValue e.value with
    | .ok (value, expiresAt) =>
      if expiresAt ≤ now then .tombstone e.seq else ⟨value, e.seq, false, expiresAt, none⟩
    | .error _ => .tombstone e.seq
  | _ => ⟨e.value, e.seq, false, 0, none⟩

def getVersionAt (m : Memtable) (seq : Nat) (key : Key) (now : Time) : Option VersionAt :=
  match m.seek (ikeyLookupKey key seq) with
  | none => none
  | some n =>
    if n.user ≠ key then none
    else if seq < n.seq then none
    else some (nodeVersion n now)

/-- Whether a buffered point lies in `[minKey, maxKey]`, for ingestion. -/
def overlapsUserRange (m : Memtable) (minKey maxKey : Key) : Bool :=
  match m.seek ⟨minKey, maxIKeySeq, .setTTL⟩ with
  | none => false
  | some n => decide (n.user ≤ maxKey)

@[simp] theorem mem_points_add {m : Memtable} {seq : Nat} {kind : IKeyKind} {key : Key}
    {value : Bytes} {e : Entry} :
    e ∈ (m.add seq kind key value).points ↔ e = ⟨⟨key, seq, kind⟩, value⟩ ∨ e ∈ m.points := by
  simp [add, List.mem_orderedInsert]

@[simp] theorem rts_add (m : Memtable) (seq : Nat) (kind : IKeyKind) (key : Key) (value : Bytes) :
    (m.add seq kind key value).rts = m.rts := rfl

theorem nodeVersion_eq {e : Entry} (h : e.kind ≠ .blobRef) (now : Time) :
    nodeVersion e now = e.versionAt now := by
  unfold nodeVersion Entry.versionAt Payload.liveAt Entry.payload
  cases hk : e.kind with
  | delete => rfl
  | set => rfl
  | blobRef => exact absurd hk h
  | setTTL =>
    dsimp only
    cases decodeExpiringValue e.value with
    | error err => rfl
    | ok r =>
      dsimp only
      split_ifs <;> rfl

theorem getVersionAt_eq (m : Memtable) (hkinds : ∀ e ∈ m.points, e.kind ≠ .blobRef)
    (seq : Nat) (key : Key) (now : Time) :
    m.getVersionAt seq key now =
      (newestVersion key seq m.points).map fun e => e.versionAt now := by
  rw [← find?_lookup_filter_eq m.sorted]
  unfold getVersionAt
  cases hseek : m.seek (ikeyLookupKey key seq) with
  | none =>
    unfold seek at hseek
    rw [hseek]
    rfl
  | some n =>
    have hn : n ∈ m.points := List.mem_of_find?_eq_some hseek
    unfold seek at hseek
    rw [hseek]
    by_cases hu : n.user = key
    · by_cases hs : n.seq ≤ seq
      · simp [hu, hs, Nat.not_lt.2 hs, nodeVersion_eq (hkinds n hn)]
      · simp [hu, Nat.lt_of_not_le hs]
    · simp [hu]

theorem overlapsUserRange_iff {m : Memtable} (hseq : ∀ e ∈ m.points, e.seq ≤ maxIKeySeq)
    {minKey maxKey : Key} :
    m.overlapsUserRange minKey maxKey = true ↔
      ∃ e ∈ m.points, minKey ≤ e.user ∧ e.user ≤ maxKey := by
  have hpast : ∀ e ∈ m.points,
      ((⟨minKey, maxIKeySeq, .setTTL⟩ : IKey) ≤ e.toIKey ↔ minKey ≤ e.user) := by
    intro e he
    have hs := hseq e he
    have hk : e.kind.code ≤ IKeyKind.setTTL.code := by cases e.kind <;> decide
    have htrailer : e.toIKey.trailer ≤ (⟨minKey, maxIKeySeq, .setTTL⟩ : IKey).trailer := by
      unfold IKey.trailer
      dsimp only
      omega
    rw [IKey.le_def, and_iff_left htrailer]
    exact le_iff_lt_or_eq.symm
  unfold overlapsUserRange
  cases hseek : m.seek ⟨minKey, maxIKeySeq, .setTTL⟩ with
  | none =>
    refine ⟨fun h => by simp at h, fun ⟨e, he, hlo, _⟩ => ?_⟩
    have hbelow := List.find?_eq_none.1 hseek e he
    simp [(hpast e he).2 hlo] at hbelow
  | some n =>
    obtain ⟨hmatch, before, after, hsplit, hbefore⟩ := List.find?_eq_some_iff_append.1 hseek
    have hn : n ∈ m.points := List.mem_of_find?_eq_some hseek
    refine ⟨fun h => ⟨n, hn, (hpast n hn).1 (by simpa using hmatch), by simpa using h⟩, ?_⟩
    rintro ⟨e, he, hlo, hhi⟩
    have hle : n.user ≤ e.user := by
      have hsorted := m.sorted
      have hside := he
      rw [hsplit] at hside hsorted
      rcases List.mem_append.1 hside with hside | hside
      · have hbelow := hbefore e hside
        simp [(hpast e he).2 hlo] at hbelow
      · rcases List.mem_cons.1 hside with rfl | hside
        · exact le_refl _
        · rw [List.pairwise_append, List.pairwise_cons] at hsorted
          exact (hsorted.2.1.1 e hside).user_le
    exact decide_eq_true (le_trans hle hhi)

end Memtable

end LevisDB
