import LevisDB.Storage.Memtable
import LevisDB.Storage.SkiplistArena
import Mathlib.Algebra.GroupWithZero.Nat

/-!
# The memtable on its arena

The operations of the memtable as they run on the bytes of the arena, and that they do
what `Memtable` says: the base level holds the encoded entries in internal-key order.
The height of a new node is drawn by the caller. A panic is `none`.
-/

namespace LevisDB

open Skiplist List Option

structure ArenaMemtable where
  list : Backed
  rts : List RangeTombstone
  size : Nat
  count : Nat

namespace ArenaMemtable

def newMemtable : Option ArenaMemtable := do
  let list ← Backed.newSkiplist
  pure ⟨list, [], 0, 0⟩

def add (m : ArenaMemtable) (seq : Nat) (kind : IKeyKind) (key : Key) (value : Bytes) (h : Nat) :
    Option ArenaMemtable := do
  let ik := ikeyEncode ⟨key, seq, kind⟩
  let list ← m.list.insert ik value h
  pure { m with list := list, size := m.size + (ik.length + value.length), count := m.count + 1 }

def arena (m : ArenaMemtable) : Bytes := m.list.arena.bytes

def overlapsUserRange (m : ArenaMemtable) (minKey maxKey : Key) : Option Bool := do
  let off ← m.list.list.seek (ikeyEncode ⟨minKey, maxIKeySeq, .setTTL⟩)
  if off = nilNode then pure false
  else do
    let k ← skiplistKeyAt m.arena off
    let user ← ikeyUserKey k
    pure (decide (user ≤ maxKey))

/-- How a node is read, once its key is known to match. -/
def readNode (m : ArenaMemtable) (n : UInt32) (seq kind : Nat) (now : Time) : Option VersionAt :=
  if kind = IKeyKind.delete.code then pure (.tombstone seq)
  else do
    let value ← skiplistValueAt m.arena n
    if kind = IKeyKind.setTTL.code then
      match decodeExpiringValue value with
      | .ok (value, expiresAt) =>
        pure (if expiresAt ≤ now then .tombstone seq else ⟨value, seq, false, expiresAt, none⟩)
      | .error _ => pure (.tombstone seq)
    else pure ⟨value, seq, false, 0, none⟩

/-- The version a lookup finds, none when there is none. -/
def getVersionAt (m : ArenaMemtable) (seq : Nat) (key : Key) (now : Time) :
    Option (Option VersionAt) := do
  let n ← m.list.list.seek (ikeyEncode (ikeyLookupKey key seq))
  if n = nilNode then pure none
  else do
    let nkey ← skiplistKeyAt m.arena n
    let user ← ikeyUserKey nkey
    if user ≠ key then pure none
    else do
      let (nseq, kind) ← ikeySeqKind nkey
      if seq < nseq then pure none
      else do
        let v ← m.readNode n nseq kind now
        pure (some v)

structure FlushIterator where
  n : UInt32
  started : Bool

def newIterator : FlushIterator := ⟨nilNode, false⟩

def FlushIterator.next (it : FlushIterator) (s : Skiplist) : Option FlushIterator :=
  if it.started = false then (first s).map fun n => ⟨n, true⟩
  else if it.n ≠ nilNode then (Skiplist.next s.arena it.n 0).map fun n => ⟨n, true⟩
  else some it

def FlushIterator.drain (s : Skiplist) : Nat → FlushIterator → Option (List (Bytes × Bytes))
  | 0, _ => none
  | fuel + 1, it => do
      let it ← it.next s
      if it.n = nilNode then pure []
      else do
        let key ← skiplistKeyAt s.arena it.n
        let value ← skiplistValueAt s.arena it.n
        let rest ← it.drain s fuel
        pure ((key, value) :: rest)

def flushEntries (m : ArenaMemtable) : Option (List (Bytes × Bytes)) :=
  newIterator.drain m.list.list (m.arena.length + 1)

structure SnapshotIterator where
  arena : Pinned
  offs : List UInt32

/-- The offsets of the base level from a node on, up to one past the boundary. -/
def offsBelow (arena : Bytes) (boundary : UInt32) : Nat → UInt32 → Option (List UInt32)
  | 0, _ => none
  | fuel + 1, n =>
    if n = nilNode then some []
    else if boundary ≤ n then some []
    else do
      let nxt ← Skiplist.next arena n 0
      let rest ← offsBelow arena boundary fuel nxt
      pure (n :: rest)

def newSnapshotIterator (m : ArenaMemtable) : Option SnapshotIterator := do
  let n ← first m.list.list
  let offs ← offsBelow m.arena (UInt32.ofNat m.arena.length) (m.arena.length + 1) n
  pure ⟨m.list.pin, offs⟩

/-- The key and the value at an offset. -/
def entryAt (arena : Bytes) (off : UInt32) : Option (Bytes × Bytes) := do
  let key ← skiplistKeyAt arena off
  let value ← skiplistValueAt arena off
  pure (key, value)

/-- What a scan of the iterator yields when the arrays are as they are in `m`. -/
def SnapshotIterator.entries (it : SnapshotIterator) (m : ArenaMemtable) :
    Option (List (Bytes × Bytes)) :=
  it.offs.mapM (entryAt (it.arena.bytes m.list.arena))

/-- The base level holds the encoded entries of `m`, in order. -/
structure Refines (am : ArenaMemtable) (m : Memtable) (base : List Node) : Prop where
  holds : am.list.Holds base
  entries : base.map (fun n => (n.key, n.value)) = m.points.map Entry.bytes
  seqs : ∀ e ∈ m.points, e.seq ≤ maxIKeySeq
  rts : am.rts = m.rts
  size : am.size = m.size
  count : am.count = m.count

section Refine

variable {am : ArenaMemtable} {m : Memtable} {base : List Node}

theorem newMemtable_refines :
    ∃ am, newMemtable = some am ∧ Refines am LevisDB.newMemtable [] ∧
      am.list.arena.len = headNode.stop := by
  obtain ⟨l, hnew, hl, hlen⟩ := Backed.newSkiplist_holds
  exact ⟨⟨l, [], 0, 0⟩, by simp [newMemtable, hnew],
    ⟨hl, rfl, fun e he => absurd he not_mem_nil, rfl, rfl, rfl⟩, hlen⟩

theorem Refines.parts (h : Refines am m base) (target : IKey) (hseq : target.seq ≤ maxIKeySeq) :
    ∃ below above lower upper, Parts (ikeyEncode target) base below above ∧
      m.points = lower ++ upper ∧
      below.map (fun n => (n.key, n.value)) = lower.map Entry.bytes ∧
      above.map (fun n => (n.key, n.value)) = upper.map Entry.bytes ∧
      (∀ e ∈ lower, ¬ target ≤ e.toIKey) ∧ ∀ e ∈ upper, target ≤ e.toIKey := by
  obtain ⟨below, above, hparts⟩ := exists_parts h.holds.shape.sorted (ikeyEncode target)
  have hentries := h.entries
  rw [hparts.eq, map_append] at hentries
  obtain ⟨lower, upper, hpoints, hlower, hupper⟩ := map_eq_append_iff.1 hentries.symm
  have hkey : ∀ {ns : List Node} {es : List Entry},
      es.map Entry.bytes = ns.map (fun n => (n.key, n.value)) → ∀ e ∈ es,
        ∃ n ∈ ns, n.key = ikeyEncode e.toIKey := by
    intro ns es heq e he
    have hmem : e.bytes ∈ ns.map (fun n => (n.key, n.value)) := heq ▸ List.mem_map_of_mem he
    obtain ⟨n, hn, hbytes⟩ := List.mem_map.1 hmem
    exact ⟨n, hn, (Prod.mk.inj hbytes).1⟩
  refine ⟨below, above, lower, upper, hparts, hpoints, hlower.symm, hupper.symm, fun e he => ?_,
    fun e he => ?_⟩
  · obtain ⟨n, hn, hnkey⟩ := hkey hlower e he
    have hbelow := hparts.below n hn
    rwa [hnkey, iKeyBytesLe_encode hseq (h.seqs e (hpoints ▸ mem_append_left _ he))] at hbelow
  · obtain ⟨n, hn, hnkey⟩ := hkey hupper e he
    have habove := hparts.above n hn
    rwa [hnkey, iKeyBytesLe_encode hseq (h.seqs e (hpoints ▸ mem_append_right _ he))] at habove

theorem orderedInsert_of_parts {e : Entry} {lower upper : List Entry}
    (hlower : ∀ x ∈ lower, ¬ e.toIKey ≤ x.toIKey) (hupper : ∀ x ∈ upper, e.toIKey ≤ x.toIKey) :
    (lower ++ upper).orderedInsert IKeyOrder e = lower ++ e :: upper := by
  induction lower with
  | nil =>
    cases upper with
    | nil => rfl
    | cons x upper => exact if_pos (hupper x (by simp))
  | cons x lower ih =>
    rw [forall_mem_cons] at hlower
    have hskip : (x :: (lower ++ upper)).orderedInsert IKeyOrder e =
        x :: (lower ++ upper).orderedInsert IKeyOrder e := if_neg hlower.1
    rw [cons_append, hskip, ih hlower.2]
    rfl

section

variable (h : Refines am m base)
include h

theorem Refines.add {seq : Nat} (hseq : seq ≤ maxIKeySeq) (kind : IKeyKind)
    (key : Key) (value : Bytes) {height : Nat} (hpos : 0 < height) (hmax : height ≤ maxHeight)
    (hsmall : am.list.arena.len + nodeSize height (ikeyEncode ⟨key, seq, kind⟩) value < 2 ^ 32) :
    ∃ am' base', am.add seq kind key value height = some am' ∧
      Refines am' (m.add seq kind key value) base' ∧ (∀ n ∈ base, n ∈ base') ∧
      am'.list.arena.len =
        am.list.arena.len + nodeSize height (ikeyEncode ⟨key, seq, kind⟩) value ∧
      am'.list.arena.left = (am.list.arena.grow
        (am.list.arena.len + nodeSize height (ikeyEncode ⟨key, seq, kind⟩) value)).left := by
  obtain ⟨below, above, lower, upper, hparts, hpoints, hbelow, habove, hlower, hupper⟩ :=
    h.parts ⟨key, seq, kind⟩ hseq
  obtain ⟨l', hinsert, hl', hlen, hleft⟩ :=
    h.holds.insert hparts (wholeKey_encode _) hpos hmax hsmall
  refine ⟨⟨l', am.rts, am.size + ((ikeyEncode ⟨key, seq, kind⟩).length + value.length),
    am.count + 1⟩, _, by simp [ArenaMemtable.add, hinsert],
    ⟨hl', ?_, fun e he => ?_, h.rts, ?_, ?_⟩, fun n hn => ?_, hlen, hleft⟩
  · change _ = (m.points.orderedInsert IKeyOrder ⟨⟨key, seq, kind⟩, value⟩).map Entry.bytes
    rw [hpoints, orderedInsert_of_parts hlower hupper, map_append, map_append, hbelow,
      map_cons, map_cons, habove]
    rfl
  · rcases Memtable.mem_points_add.1 he with rfl | he
    · exact hseq
    · exact h.seqs e he
  · change am.size + ((ikeyEncode ⟨key, seq, kind⟩).length + value.length) =
      m.size + (key.length + 8 + value.length)
    rw [h.size, ikeyEncode_length]
    rfl
  · change am.count + 1 = m.count + 1
    rw [h.count]
  · rw [hparts.eq] at hn
    simp only [mem_append, mem_cons] at hn ⊢
    tauto

theorem Refines.seek (target : IKey) (hseq : target.seq ≤ maxIKeySeq) :
    (am.list.list.seek (ikeyEncode target) = some nilNode ∧ m.seek target = none) ∨
      ∃ n ∈ base, ∃ e ∈ m.points, am.list.list.seek (ikeyEncode target) = some n.ptr ∧
        n.key = ikeyEncode e.toIKey ∧ n.value = e.value ∧ m.seek target = some e := by
  obtain ⟨below, above, lower, upper, hparts, hpoints, _, habove, hlower, hupper⟩ :=
    h.parts target hseq
  obtain ⟨prev, hfind, _⟩ := h.holds.shape.findGE hparts (wholeKey_encode target)
  have hseek : am.list.list.seek (ikeyEncode target) = some (firstPtr above) := by
    rw [Skiplist.seek, hfind]
    rfl
  have hskip : m.seek target = upper.head? := by
    rw [Memtable.seek, hpoints, List.find?_append]
    have hnone : lower.find? (fun e => decide (target ≤ e.toIKey)) = none :=
      List.find?_eq_none.2 fun e he => by simpa using hlower e he
    rw [hnone, none_or]
    cases upper with
    | nil => rfl
    | cons e upper => exact List.find?_cons_of_pos (by simpa using hupper e (by simp))
  cases upper with
  | nil =>
    obtain rfl := map_eq_nil_iff.1 habove
    exact .inl ⟨hseek, hskip⟩
  | cons e upper =>
    obtain ⟨n, above, rfl, hbytes, _⟩ := map_eq_cons_iff.1 habove
    obtain ⟨hkey, hvalue⟩ := Prod.mk.inj hbytes
    exact .inr ⟨n, hparts.eq ▸ by simp, e, hpoints ▸ by simp, hseek, hkey, hvalue, hskip⟩

theorem Refines.ptr_ne_nil {n : Node} (hn : n ∈ base) : n.ptr ≠ nilNode :=
  h.holds.shape.packed.ptr_ne_nil (mem_cons_of_mem _ hn)

theorem Refines.keyAt {n : Node} (hn : n ∈ base) :
    skiplistKeyAt am.arena n.ptr = some n.key :=
  (h.holds.stored hn).keyAt h.holds.shape.packed.small

theorem Refines.valueAt {n : Node} (hn : n ∈ base) :
    skiplistValueAt am.arena n.ptr = some n.value :=
  (h.holds.stored hn).valueAt h.holds.shape.packed.small

theorem Refines.overlapsUserRange (minKey maxKey : Key) :
    am.overlapsUserRange minKey maxKey = some (m.overlapsUserRange minKey maxKey) := by
  unfold ArenaMemtable.overlapsUserRange Memtable.overlapsUserRange
  rcases h.seek ⟨minKey, maxIKeySeq, .setTTL⟩ (Nat.le_refl _) with
    ⟨hseek, hnone⟩ | ⟨n, hn, e, he, hseek, hkey, hvalue, hsome⟩
  · simp [hseek, hnone]
  · simp [hseek, h.ptr_ne_nil hn, h.keyAt hn, hkey, hsome]

theorem Refines.readNode {n : Node} (hn : n ∈ base) {e : Entry}
    (hvalue : n.value = e.value) (now : Time) :
    am.readNode n.ptr e.seq e.kind.code now = some (Memtable.nodeVersion e now) := by
  unfold ArenaMemtable.readNode Memtable.nodeVersion
  rw [h.valueAt hn, hvalue]
  cases hk : e.kind with
  | delete => rfl
  | set => rfl
  | blobRef => rfl
  | setTTL =>
    simp only [IKeyKind.code, bind_eq_bind, bind_some]
    rw [if_neg (by decide), if_pos trivial]
    cases decodeExpiringValue e.value with
    | error err => rfl
    | ok r => rfl

theorem Refines.getVersionAt {seq : Nat} (hseq : seq ≤ maxIKeySeq)
    (key : Key) (now : Time) :
    am.getVersionAt seq key now = some (m.getVersionAt seq key now) := by
  unfold ArenaMemtable.getVersionAt Memtable.getVersionAt
  rcases h.seek (ikeyLookupKey key seq) hseq with
    ⟨hseek, hnone⟩ | ⟨n, hn, e, he, hseek, hkey, hvalue, hsome⟩
  · simp [hseek, hnone]
  · simp only [hseek, hsome, h.keyAt hn, hkey, bind_eq_bind, bind_some,
      if_neg (h.ptr_ne_nil hn), ikeyUserKey_encode, ikeySeqKind_encode (h.seqs e he),
      h.readNode hn hvalue]
    split_ifs <;> rfl

end

def nodeEntry (n : Node) : Bytes × Bytes := (n.key, n.value)

theorem mapM_eq_some {α : Type} {f : UInt32 → Option α} {g : Node → α} {ns : List Node}
    (h : ∀ n ∈ ns, f n.ptr = some (g n)) : (ns.map Node.ptr).mapM f = some (ns.map g) := by
  induction ns with
  | nil => rfl
  | cons n ns ih =>
    rw [forall_mem_cons] at h
    rw [map_cons, mapM_cons, h.1, ih h.2]
    rfl

section

variable (h : Refines am m base)
include h

theorem Refines.base_visits :
    LinkedList.Visits (fun n : Node => Skiplist.next am.arena n.ptr 0) (fun n => some n.ptr)
      (some nilNode) headNode base := by
  have hlinked := h.holds.shape.linked 0 (by decide)
  rwa [h.holds.shape.onLevel_zero fun n hn => hn] at hlinked

theorem Refines.first : first am.list.list = some (firstPtr base) := by
  rw [Skiplist.first, h.holds.shape.head]
  exact firstPtr_of_visits h.base_visits

theorem Refines.length_lt : base.length < am.arena.length :=
  h.holds.shape.packed.length_lt

theorem Refines.drain {fuel : Nat} {it : FlushIterator} {x : Node}
    {ns : List Node} (hnext : it.next am.list.list = some ⟨firstPtr ns, true⟩)
    (hv : LinkedList.Visits (fun n : Node => Skiplist.next am.arena n.ptr 0) (fun n => some n.ptr)
      (some nilNode) x ns) (hbase : ∀ n ∈ ns, n ∈ base) (hfuel : ns.length < fuel) :
    it.drain am.list.list fuel = some (ns.map nodeEntry) := by
  induction fuel generalizing it x ns with
  | zero => omega
  | succ fuel ih =>
    cases ns with
    | nil => simp [FlushIterator.drain, hnext, firstPtr]
    | cons y ns =>
      rw [forall_mem_cons] at hbase
      have hstep : (FlushIterator.mk y.ptr true).next am.list.list =
          some ⟨firstPtr ns, true⟩ := by
        have hlink := firstPtr_of_visits hv.2
        change Skiplist.next am.list.list.arena y.ptr 0 = _ at hlink
        simp [FlushIterator.next, h.ptr_ne_nil hbase.1, hlink]
      have hrest := ih hstep hv.2 hbase.2 (by rw [length_cons] at hfuel; omega)
      have hkey := h.keyAt hbase.1
      have hvalue := h.valueAt hbase.1
      change skiplistKeyAt am.list.list.arena y.ptr = _ at hkey
      change skiplistValueAt am.list.list.arena y.ptr = _ at hvalue
      have hfirst : firstPtr (y :: ns) = y.ptr := rfl
      simp [FlushIterator.drain, hnext, hfirst, h.ptr_ne_nil hbase.1, hkey, hvalue, hrest,
        nodeEntry]

theorem Refines.flushEntries :
    am.flushEntries = some (m.points.map Entry.bytes) := by
  have hstart : newIterator.next am.list.list = some ⟨firstPtr base, true⟩ := by
    simp [FlushIterator.next, newIterator, h.first]
  have hlen := h.length_lt
  rw [← h.entries]
  exact h.drain hstart h.base_visits (fun n hn => hn) (by omega)

theorem Refines.offsBelow {fuel : Nat} {x : Node} {ns : List Node}
    (hv : LinkedList.Visits (fun n : Node => Skiplist.next am.arena n.ptr 0) (fun n => some n.ptr)
      (some nilNode) x ns) (hbase : ∀ n ∈ ns, n ∈ base) (hfuel : ns.length < fuel) :
    offsBelow am.arena (UInt32.ofNat am.arena.length) fuel (firstPtr ns) =
      some (ns.map Node.ptr) := by
  induction fuel generalizing x ns with
  | zero => omega
  | succ fuel ih =>
    cases ns with
    | nil => simp [ArenaMemtable.offsBelow, firstPtr]
    | cons y ns =>
      rw [forall_mem_cons] at hbase
      have hrest := ih hv.2 hbase.2 (by rw [length_cons] at hfuel; omega)
      have hlink : Skiplist.next am.arena y.ptr 0 = some (firstPtr ns) :=
        firstPtr_of_visits hv.2
      have hinside : ¬ UInt32.ofNat am.arena.length ≤ y.ptr := by
        have hoff := h.holds.shape.packed.off_lt (mem_cons_of_mem _ hbase.1)
        have hsmall := h.holds.shape.packed.small
        change y.off < am.arena.length at hoff
        change am.arena.length < 2 ^ 32 at hsmall
        rw [UInt32.le_iff_toNat_le, Node.ptr, toNat_ofNat_of_lt hsmall,
          toNat_ofNat_of_lt (by omega)]
        omega
      have hfirst : firstPtr (y :: ns) = y.ptr := rfl
      simp [ArenaMemtable.offsBelow, hfirst, h.ptr_ne_nil hbase.1, hinside, hlink, hrest]

theorem Refines.newSnapshotIterator :
    am.newSnapshotIterator = some ⟨am.list.pin, base.map Node.ptr⟩ := by
  have hlen := h.length_lt
  have hoffs := h.offsBelow h.base_visits (fun n hn => hn)
    (show base.length < am.arena.length + 1 by omega)
  simp [ArenaMemtable.newSnapshotIterator, h.first, hoffs]

theorem Refines.snapshot_entries {p : Pinned} {nodes : List Node}
    (hkeeps : p.Keeps am.list base nodes) (hlen : p.len < 2 ^ 32) :
    (SnapshotIterator.mk p (nodes.map Node.ptr)).entries am = some (nodes.map nodeEntry) := by
  have hsmall : (p.bytes am.list.arena).length < 2 ^ 32 := by
    refine Nat.lt_of_le_of_lt ?_ hlen
    rw [Pinned.bytes, length_take]
    omega
  have hread : ∀ n ∈ nodes, entryAt (p.bytes am.list.arena) n.ptr = some (nodeEntry n) := by
    intro n hn
    have hstored := hkeeps.stored h.holds hn
    have hkey := hstored.keyAt hsmall
    have hvalue := hstored.valueAt hsmall
    change skiplistKeyAt _ n.ptr = _ at hkey
    change skiplistValueAt _ n.ptr = _ at hvalue
    simp [entryAt, hkey, hvalue, nodeEntry]
  exact mapM_eq_some hread

end

end Refine

def levelOffs (arena : Bytes) (level : Nat) : Nat → UInt32 → Option (List UInt32)
  | 0, _ => none
  | fuel + 1, x => do
      let n ← Skiplist.next arena x level
      if n = nilNode then pure []
      else do
        let rest ← levelOffs arena level fuel n
        pure (n :: rest)

def level (m : ArenaMemtable) (l : Nat) : Option (List UInt32) :=
  levelOffs m.arena l (m.arena.length + 1) m.list.head

section Levels

variable {am : ArenaMemtable} {m : Memtable} {base : List Node}

theorem Refines.levelOffs (h : Refines am m base) {l fuel : Nat} {x : Node} {ns : List Node}
    (hv : LinkedList.Visits (fun n : Node => Skiplist.next am.arena n.ptr l) (fun n => some n.ptr)
      (some nilNode) x ns) (hbase : ∀ n ∈ ns, n ∈ base) (hfuel : ns.length < fuel) :
    levelOffs am.arena l fuel x.ptr = some (ns.map Node.ptr) := by
  induction fuel generalizing x ns with
  | zero => omega
  | succ fuel ih =>
    cases ns with
    | nil =>
      have hnext : Skiplist.next am.arena x.ptr l = some nilNode := hv
      simp [ArenaMemtable.levelOffs, hnext]
    | cons y ns =>
      have hnext : Skiplist.next am.arena x.ptr l = some y.ptr := hv.1
      rw [forall_mem_cons] at hbase
      have hrest := ih hv.2 hbase.2 (by rw [length_cons] at hfuel; omega)
      simp [ArenaMemtable.levelOffs, hnext, h.ptr_ne_nil hbase.1, hrest]

theorem Refines.level (h : Refines am m base) {l : Nat} (hl : l < maxHeight) :
    am.level l = some ((onLevel l base).map Node.ptr) := by
  have hlen := h.length_lt
  have hle : (onLevel l base).length ≤ base.length := length_filter_le ..
  have hhead : am.list.head = headNode.ptr := h.holds.shape.head
  rw [ArenaMemtable.level, hhead]
  exact h.levelOffs (h.holds.shape.linked l hl) (fun n hn => (mem_filter.1 hn).1) (by omega)

end Levels

inductive Call where
  | put (seq : Nat) (key : Key) (value : Bytes)
  | putTTL (seq : Nat) (key : Key) (value : Bytes) (expiresAt : Time)
  | del (seq : Nat) (key : Key)

namespace Call

def seq : Call → Nat
  | put seq _ _ => seq
  | putTTL seq _ _ _ => seq
  | del seq _ => seq

def key : Call → Key
  | put _ key _ => key
  | putTTL _ key _ _ => key
  | del _ key => key

def kind : Call → IKeyKind
  | put .. => .set
  | putTTL .. => .setTTL
  | del .. => .delete

def stored : Call → Bytes
  | put _ _ value => value
  | putTTL _ _ value expiresAt => encodeExpiringValue value expiresAt
  | del .. => []

def entry (c : Call) : Entry := ⟨⟨c.key, c.seq, c.kind⟩, c.stored⟩

/-- What a lookup reports of the call: a value with its deadline, or a deletion when it
deleted the key or its deadline has passed. -/
def report (c : Call) (now : Time) : VersionAt :=
  match c with
  | put seq _ value => ⟨value, seq, false, 0, none⟩
  | putTTL seq _ value expiresAt =>
    if expiresAt ≤ 0 ∨ expiresAt ≤ now then .tombstone seq else ⟨value, seq, false, expiresAt, none⟩
  | del seq _ => .tombstone seq

theorem nodeVersion_entry (c : Call) (now : Time) :
    Memtable.nodeVersion c.entry now = c.report now := by
  cases c with
  | put seq key value => rfl
  | del seq key => rfl
  | putTTL seq key value expiresAt =>
    have hdecode := decodeExpiringValue_encode_eq value expiresAt
    by_cases hpos : expiresAt ≤ 0
    · simp [Memtable.nodeVersion, entry, kind, stored, report, hdecode, hpos, Call.seq]
    · simp [Memtable.nodeVersion, entry, kind, stored, report, hdecode, hpos, Call.seq]

end Call

def call (m : ArenaMemtable) (c : Call) (h : Nat) : Option ArenaMemtable :=
  m.add c.seq c.kind c.key c.stored h

def run (m : ArenaMemtable) (calls : List (Call × Nat)) : Option ArenaMemtable :=
  calls.foldlM (fun m x => m.call x.1 x.2) m

def need (calls : List (Call × Nat)) : Nat :=
  (calls.map fun x => nodeSize x.2 (ikeyEncode x.1.entry.toIKey) x.1.stored).sum

/-- The heights are those a node can have, and the sequences fit a trailer. -/
def Callable (calls : List (Call × Nat)) : Prop :=
  ∀ x ∈ calls, (0 < x.2 ∧ x.2 ≤ maxHeight) ∧ x.1.seq ≤ maxIKeySeq

def runEntries (m : Memtable) (calls : List (Call × Nat)) : Memtable :=
  calls.foldl (fun m x => m.add x.1.seq x.1.kind x.1.key x.1.stored) m

section Runs

variable {am : ArenaMemtable} {m : Memtable} {base : List Node}

theorem Refines.run (h : Refines am m base) {calls : List (Call × Nat)} (hcalls : Callable calls)
    (hroom : am.list.arena.len + need calls < 2 ^ 32) :
    ∃ am' base', am.run calls = some am' ∧ Refines am' (runEntries m calls) base' ∧
      am'.list.arena.len = am.list.arena.len + need calls ∧
      ∀ (p : Pinned) nodes, p.Keeps am.list base nodes → p.Keeps am'.list base' nodes := by
  induction calls generalizing am m base with
  | nil => exact ⟨am, base, rfl, h, rfl, fun p nodes hkeeps => hkeeps⟩
  | cons x calls ih =>
    obtain ⟨⟨⟨hpos, hmax⟩, hseq⟩, hcalls⟩ := forall_mem_cons.1 hcalls
    have hneed : need (x :: calls) =
        nodeSize x.2 (ikeyEncode x.1.entry.toIKey) x.1.stored + need calls := by simp [need]
    obtain ⟨am₁, base₁, hadd, h₁, hgrows, hlen₁, hleft⟩ :=
      h.add hseq x.1.kind x.1.key x.1.stored hpos hmax (by
        change _ + nodeSize x.2 (ikeyEncode x.1.entry.toIKey) x.1.stored < _
        omega)
    change am₁.list.arena.len =
      am.list.arena.len + nodeSize x.2 (ikeyEncode x.1.entry.toIKey) x.1.stored at hlen₁
    obtain ⟨am', base', hrun, h', hlen', hkeep⟩ := ih h₁ hcalls (by omega)
    refine ⟨am', base', ?_, h', by omega, fun p nodes hkeeps => hkeep p nodes ?_⟩
    · rw [ArenaMemtable.run, foldlM_cons, ArenaMemtable.call, hadd]
      exact hrun
    · exact hkeeps.insert h.holds hgrows (by omega) hleft

theorem points_runEntries (m : Memtable) (calls : List (Call × Nat)) :
    (runEntries m calls).points.Perm (calls.map (fun x => x.1.entry) ++ m.points) := by
  induction calls generalizing m with
  | nil => exact List.Perm.refl _
  | cons x calls ih =>
    refine (ih _).trans ?_
    refine (List.Perm.append_left _ (perm_orderedInsert _ _ _)).trans ?_
    exact perm_middle

end Runs

/-- The entries of these calls, looked up and listed by the bytes of the arena. -/
structure VersionMap (m : ArenaMemtable) (calls : List Call) : Prop where
  /-- Every level can be walked, and is a sublist of the one below. -/
  levels : ∃ offs : Nat → List UInt32, (∀ l, l < maxHeight → m.level l = some (offs l)) ∧
    (∀ l, l + 1 < maxHeight → (offs (l + 1)).Sublist (offs l)) ∧
    ∃ keys, (offs 0).mapM (skiplistKeyAt m.arena) = some keys ∧
      keys.Pairwise fun a b => ikeyCompareBytes a b = some .lt
  /-- A lookup finds the newest visible call of the key. -/
  lookup : ∀ seq, seq ≤ maxIKeySeq → ∀ key now,
    (m.getVersionAt seq key now = some none ∧ ∀ c ∈ calls, c.key = key → seq < c.seq) ∨
      ∃ c ∈ calls, m.getVersionAt seq key now = some (some (c.report now)) ∧ c.key = key ∧
        c.seq ≤ seq ∧ ∀ d ∈ calls, d.key = key → d.seq ≤ seq → d.seq ≤ c.seq
  overlap : ∀ minKey maxKey, m.overlapsUserRange minKey maxKey =
    some (decide (∃ c ∈ calls, minKey ≤ c.key ∧ c.key ≤ maxKey))
  /-- A flush lists every call once, in internal-key order. -/
  flush : ∃ es : List Entry, m.flushEntries = some (es.map Entry.bytes) ∧
    es.Perm (calls.map Call.entry) ∧ es.Pairwise fun a b => a.toIKey < b.toIKey

section Map

variable {am : ArenaMemtable} {m : Memtable} {base : List Node} {calls : List Call}

theorem onLevel_succ_sublist (l : Nat) (ns : List Node) :
    (onLevel (l + 1) ns).Sublist (onLevel l ns) := by
  refine monotone_filter_right ns fun n hn => ?_
  simp only [decide_eq_true_eq] at hn ⊢
  omega

theorem strictly_ascending (m : Memtable) (hperm : m.points.Perm (calls.map Call.entry))
    (hdistinct : (calls.map fun c => (c.key, c.seq)).Nodup) :
    m.points.Pairwise fun a b => a.toIKey < b.toIKey := by
  have hnodup : (m.points.map fun e => (e.user, e.seq)).Nodup := by
    have hmap := hperm.map fun e => (e.user, e.seq)
    rw [List.map_map] at hmap
    exact hmap.nodup_iff.2 hdistinct
  have hne := pairwise_map.1 hnodup
  refine (m.sorted.and hne).imp fun {a b} h => lt_of_le_of_ne h.1 fun heq => h.2 ?_
  rw [heq]

theorem Refines.levels (h : Refines am m base)
    (hascending : m.points.Pairwise fun a b => a.toIKey < b.toIKey) :
    ∃ offs : Nat → List UInt32, (∀ l, l < maxHeight → am.level l = some (offs l)) ∧
      (∀ l, l + 1 < maxHeight → (offs (l + 1)).Sublist (offs l)) ∧
      ∃ keys, (offs 0).mapM (skiplistKeyAt am.arena) = some keys ∧
        keys.Pairwise fun a b => ikeyCompareBytes a b = some .lt := by
  refine ⟨fun l => (onLevel l base).map Node.ptr, fun l hl => h.level hl,
    fun l _ => (onLevel_succ_sublist l base).map _, base.map Node.key, ?_, ?_⟩
  · change ((onLevel 0 base).map Node.ptr).mapM _ = _
    rw [h.holds.shape.onLevel_zero fun n hn => hn]
    exact mapM_eq_some fun n hn => h.keyAt hn
  · have hkeys : base.map Node.key = m.points.map fun e => ikeyEncode e.toIKey := by
      have hfst := congrArg (List.map Prod.fst) h.entries
      rwa [List.map_map, List.map_map] at hfst
    rw [hkeys, pairwise_map]
    refine hascending.imp_of_mem fun {a b} ha hb hlt => ?_
    rw [ikeyCompareBytes_encode (h.seqs a ha) (h.seqs b hb), ikeyCompare_eq_lt_iff.2 hlt]

theorem Refines.lookup (h : Refines am m base) (hperm : m.points.Perm (calls.map Call.entry))
    {seq : Nat} (hseq : seq ≤ maxIKeySeq) (key : Key) (now : Time) :
    (am.getVersionAt seq key now = some none ∧ ∀ c ∈ calls, c.key = key → seq < c.seq) ∨
      ∃ c ∈ calls, am.getVersionAt seq key now = some (some (c.report now)) ∧ c.key = key ∧
        c.seq ≤ seq ∧ ∀ d ∈ calls, d.key = key → d.seq ≤ seq → d.seq ≤ c.seq := by
  have hmem : ∀ {c}, c ∈ calls → c.entry ∈ m.points := fun hc =>
    hperm.mem_iff.2 (List.mem_map_of_mem hc)
  have hkinds : ∀ e ∈ m.points, e.kind ≠ .blobRef := by
    intro e he
    obtain ⟨c, _, rfl⟩ := List.mem_map.1 (hperm.mem_iff.1 he)
    cases c <;> simp [Call.entry, Call.kind]
  have hnewest := newestVersion_isNewestIn m.sorted key seq
  rw [h.getVersionAt hseq, m.getVersionAt_eq hkinds]
  cases hbest : newestVersion key seq m.points with
  | none =>
    rw [hbest] at hnewest
    exact .inl ⟨rfl, fun c hc hkey => not_le.1 (hnewest c.entry (hmem hc) hkey)⟩
  | some b =>
    rw [hbest] at hnewest
    obtain ⟨hb, huser, hle, hmax⟩ := hnewest
    obtain ⟨c, hc, rfl⟩ := List.mem_map.1 (hperm.mem_iff.1 hb)
    refine .inr ⟨c, hc, ?_, huser, hle, fun d hd hkey hvis => hmax d.entry (hmem hd) hkey hvis⟩
    rw [map_some, ← Memtable.nodeVersion_eq (hkinds _ hb), Call.nodeVersion_entry]

theorem Refines.versionMap (h : Refines am m base) (hperm : m.points.Perm (calls.map Call.entry))
    (hdistinct : (calls.map fun c => (c.key, c.seq)).Nodup) : VersionMap am calls where
  levels := h.levels (strictly_ascending m hperm hdistinct)
  lookup := fun _ hseq key now => h.lookup hperm hseq key now
  overlap := by
    intro minKey maxKey
    rw [h.overlapsUserRange, some_inj, Bool.eq_iff_iff, decide_eq_true_iff,
      Memtable.overlapsUserRange_iff h.seqs]
    refine ⟨?_, ?_⟩
    · rintro ⟨e, he, hin⟩
      obtain ⟨c, hc, rfl⟩ := List.mem_map.1 (hperm.mem_iff.1 he)
      exact ⟨c, hc, hin⟩
    · rintro ⟨c, hc, hin⟩
      exact ⟨c.entry, hperm.mem_iff.2 (List.mem_map_of_mem hc), hin⟩
  flush := ⟨m.points, h.flushEntries, hperm, strictly_ascending m hperm hdistinct⟩

end Map

end ArenaMemtable

open ArenaMemtable in
/-- The arena is the sorted multi-version map of what was inserted, and a snapshot taken
of it lists what the flush would have listed then, whatever is inserted later. -/
theorem arenaMemtable_versionMap {calls more : List (Call × Nat)}
    (hcalls : Callable (calls ++ more))
    (hdistinct : ((calls ++ more).map fun x => (x.1.key, x.1.seq)).Nodup)
    (hroom : headNode.stop + need (calls ++ more) < 2 ^ 32) :
    ∃ start m later : ArenaMemtable, ArenaMemtable.newMemtable = some start ∧
      start.run calls = some m ∧ m.run more = some later ∧
      VersionMap m (calls.map Prod.fst) ∧
      ∃ it, m.newSnapshotIterator = some it ∧ it.entries later = m.flushEntries := by
  obtain ⟨start, hnew, hstart, hlen⟩ := newMemtable_refines
  have hsum : need (calls ++ more) = need calls + need more := by simp [need]
  obtain ⟨m, base, hrun, hm, hmlen, -⟩ :=
    hstart.run (fun x hx => hcalls x (mem_append_left _ hx)) (by omega)
  obtain ⟨later, base', hmore, hlater, hlaterlen, hkeep⟩ :=
    hm.run (fun x hx => hcalls x (mem_append_right _ hx)) (by omega)
  have hperm : (runEntries LevisDB.newMemtable calls).points.Perm
      ((calls.map Prod.fst).map Call.entry) := by
    have hpoints := points_runEntries LevisDB.newMemtable calls
    rw [show LevisDB.newMemtable.points = [] from rfl, append_nil] at hpoints
    rwa [List.map_map]
  refine ⟨start, m, later, hnew, hrun, hmore, hm.versionMap hperm ?_, _, hm.newSnapshotIterator, ?_⟩
  · rw [map_append] at hdistinct
    rw [List.map_map]
    exact hdistinct.of_append_left
  · have hpinned : m.list.pin.len < 2 ^ 32 := by
      change m.list.arena.len < _
      omega
    rw [hlater.snapshot_entries (hkeep _ _ hm.holds.keeps_pin) hpinned, hm.flushEntries,
      ← hm.entries]
    rfl

open ArenaMemtable in
theorem arenaMemtable_versionMap_overwrite :
    ∃ start m later : ArenaMemtable, ArenaMemtable.newMemtable = some start ∧
      start.run [(.put 1 [107] [1], 2), (.putTTL 2 [107] [2] 9, 12)] = some m ∧
      m.run [(.del 3 [107], 1)] = some later ∧
      VersionMap m [.put 1 [107] [1], .putTTL 2 [107] [2] 9] ∧
      ∃ it, m.newSnapshotIterator = some it ∧ it.entries later = m.flushEntries :=
  arenaMemtable_versionMap
    (show Callable ([(.put 1 [107] [1], 2), (.putTTL 2 [107] [2] 9, 12)] ++ [(.del 3 [107], 1)]) by
      unfold Callable
      decide)
    (by decide) (by decide)

end LevisDB
