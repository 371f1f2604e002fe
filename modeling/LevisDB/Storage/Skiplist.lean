import LevisDB.Core.InternalKey
import LevisDB.Lib.ByteMemory
import LevisDB.Lib.LinkedList

/-!
# The skiplist arena

The memtable keeps every node, its key and its value packed in one byte arena and
refers to nodes by 32-bit offsets:

    keyLen u32 | valLen u32 | height u16 | pad u16 | height links, u32 each | key | value

Offset zero is the end mark, so the arena begins with one pad byte. Offsets are
computed in 32 bits whatever the length of the arena; a slice expression out of
bounds panics, which is `none` here, as is a walk that never ends. The height of a
new node is drawn by the caller.
-/

namespace LevisDB

open List Option

def maxHeight : Nat := 12

/-- Key length, value length, height and pad. -/
def nodeHeaderLen : Nat := 4 + 4 + 2 + 2

def nilNode : UInt32 := 0

structure Skiplist where
  arena : Bytes
  head : UInt32
  height : Nat

namespace Skiplist

def uint32At (arena : Bytes) (off : UInt32) : Option UInt32 :=
  (ByteMemory.read arena off.toNat 4).map fun b => UInt32.ofNat (LittleEndian.get b)

def uint16At (arena : Bytes) (off : UInt32) : Option UInt32 :=
  (ByteMemory.read arena off.toNat 2).map fun b => UInt32.ofNat (LittleEndian.get b)

def sliceAt (arena : Bytes) (lo hi : UInt32) : Option Bytes :=
  if lo ≤ hi then ByteMemory.read arena lo.toNat (hi.toNat - lo.toNat) else none

/-- Where the links of a node start. -/
def linkOff (off : UInt32) (level : Nat) : UInt32 :=
  off + UInt32.ofNat nodeHeaderLen + UInt32.ofNat level * 4

def skiplistKeyAt (arena : Bytes) (off : UInt32) : Option Bytes := do
  let h ← uint16At arena (off + 8)
  let kl ← uint32At arena off
  let dataOff := off + UInt32.ofNat nodeHeaderLen + h * 4
  sliceAt arena dataOff (dataOff + kl)

def skiplistValueAt (arena : Bytes) (off : UInt32) : Option Bytes := do
  let h ← uint16At arena (off + 8)
  let kl ← uint32At arena off
  let vl ← uint32At arena (off + 4)
  let dataOff := off + UInt32.ofNat nodeHeaderLen + h * 4 + kl
  sliceAt arena dataOff (dataOff + vl)

def next (arena : Bytes) (off : UInt32) (level : Nat) : Option UInt32 :=
  uint32At arena (linkOff off level)

def setNext (arena : Bytes) (off : UInt32) (level : Nat) (target : UInt32) : Option Bytes :=
  ByteMemory.write arena (linkOff off level).toNat (LittleEndian.put 4 target.toNat)

def nodeSize (height : Nat) (key value : Bytes) : Nat :=
  nodeHeaderLen + height * 4 + key.length + value.length

/-- Fills in the header and the data of a node. -/
def fillNode (arena : Bytes) (off : UInt32) (key value : Bytes) (height : Nat) : Option Bytes := do
  let arena ← ByteMemory.write arena off.toNat (LittleEndian.put 4 key.length)
  let arena ← ByteMemory.write arena (off + 4).toNat (LittleEndian.put 4 value.length)
  let arena ← ByteMemory.write arena (off + 8).toNat (LittleEndian.put 2 height)
  let dataOff := linkOff off height
  let arena ← ByteMemory.copy arena dataOff.toNat key
  ByteMemory.copy arena (dataOff + UInt32.ofNat key.length).toNat value

/-- Extends the arena by a zeroed node and fills it in; the arena and the offset of the
node. -/
def allocNode (arena key value : Bytes) (height : Nat) : Option (Bytes × UInt32) := do
  let off := UInt32.ofNat arena.length
  let arena ← fillNode (arena ++ replicate (nodeSize height key value) 0) off key value height
  pure (arena, off)

def newSkiplist : Option Skiplist := do
  let (arena, head) ← allocNode [0] [] [] maxHeight
  pure ⟨arena, head, 1⟩

/-- Advances on one level while the next node is below the key. -/
def advance (s : Skiplist) (key : Bytes) (level : Nat) : Nat → UInt32 → Option UInt32
  | 0, _ => none
  | fuel + 1, x => do
      let nxt ← next s.arena x level
      if nxt = nilNode then pure x
      else do
        let k ← skiplistKeyAt s.arena nxt
        let c ← ikeyCompareBytes k key
        if c = .lt then s.advance key level fuel nxt else pure x

/-- The levels below `level`, from the top; records the node each level stops at. -/
def descend (s : Skiplist) (key : Bytes) : Nat → UInt32 → List UInt32 →
    Option (UInt32 × List UInt32)
  | 0, x, prev => some (x, prev)
  | level + 1, x, prev => do
      let y ← s.advance key level s.arena.length x
      s.descend key level y (prev.set level y)

/-- The first node not below the key, and the node before it on every level. -/
def findGE (s : Skiplist) (key : Bytes) : Option (UInt32 × List UInt32) := do
  let (x, prev) ← s.descend key s.height s.head (replicate maxHeight 0)
  let n ← next s.arena x 0
  pure (n, prev)

/-- The levels a tall node opens start at the head. -/
def raiseTo (head : UInt32) (height h : Nat) (prev : List UInt32) : List UInt32 :=
  (range' height (h - height)).foldl (fun prev i => prev.set i head) prev

/-- Links node `n` behind its predecessors on `count` levels from `level` up. -/
def linkLevels (prev : List UInt32) (n : UInt32) : Nat → Nat → Bytes → Option Bytes
  | _, 0, arena => some arena
  | level, count + 1, arena => do
      let p ← prev[level]?
      let nxt ← next arena p level
      let arena ← setNext arena n level nxt
      let arena ← setNext arena p level n
      linkLevels prev n (level + 1) count arena

/-- `insert` with the height the random source gave. -/
def insert (s : Skiplist) (key value : Bytes) (h : Nat) : Option Skiplist := do
  let (_, prev) ← s.findGE key
  let prev := raiseTo s.head s.height h prev
  let (arena, n) ← allocNode s.arena key value h
  let arena ← linkLevels prev n 0 h arena
  pure ⟨arena, s.head, max s.height h⟩

def seek (s : Skiplist) (target : Bytes) : Option UInt32 := (s.findGE target).map Prod.fst

def first (s : Skiplist) : Option UInt32 := next s.arena s.head 0

theorem toNat_ofNat_of_lt {n : Nat} (h : n < 2 ^ 32) : (UInt32.ofNat n).toNat = n := by
  rw [UInt32.toNat_ofNat', Nat.mod_eq_of_lt h]

theorem toNat_add_ofNat {off n : Nat} (h : off + n < 2 ^ 32) :
    (UInt32.ofNat off + UInt32.ofNat n).toNat = off + n := by
  rw [UInt32.toNat_add, toNat_ofNat_of_lt (by omega), toNat_ofNat_of_lt (by omega),
    Nat.mod_eq_of_lt h]

theorem linkOff_toNat {off level : Nat} (h : off + nodeHeaderLen + level * 4 < 2 ^ 32) :
    (linkOff (UInt32.ofNat off) level).toNat = off + nodeHeaderLen + level * 4 := by
  have hmul : UInt32.ofNat level * 4 = UInt32.ofNat (level * 4) := by
    rw [UInt32.ofNat_mul]
    rfl
  have hadd : UInt32.ofNat off + UInt32.ofNat nodeHeaderLen = UInt32.ofNat (off + nodeHeaderLen) :=
    (UInt32.ofNat_add _ _).symm
  rw [linkOff, hmul, hadd, toNat_add_ofNat h]

structure Node where
  off : Nat
  height : Nat
  key : Bytes
  value : Bytes

namespace Node

def size (n : Node) : Nat := nodeSize n.height n.key n.value

def stop (n : Node) : Nat := n.off + n.size

def header (n : Node) : Bytes :=
  LittleEndian.put 4 n.key.length ++ (LittleEndian.put 4 n.value.length ++
    (LittleEndian.put 2 n.height ++ replicate 2 0))

/-- The arena holds the node at its offset, whatever its links are. -/
structure StoredIn (n : Node) (arena : Bytes) : Prop where
  inside : n.stop ≤ arena.length
  height : n.height ≤ maxHeight
  header : ByteMemory.read arena n.off nodeHeaderLen = some n.header
  data : ByteMemory.read arena (n.off + nodeHeaderLen + n.height * 4)
    (n.key.length + n.value.length) = some (n.key ++ n.value)

theorem StoredIn.append {n : Node} {arena : Bytes} (h : n.StoredIn arena) (rest : Bytes) :
    n.StoredIn (arena ++ rest) :=
  ⟨Nat.le_trans h.inside (by simp), h.height, ByteMemory.read_append h.header rest,
    ByteMemory.read_append h.data rest⟩

section

variable {n : Node} {arena : Bytes} (h : n.StoredIn arena) (hlen : arena.length < 2 ^ 32)
include h hlen

theorem StoredIn.keyLen : uint32At arena (UInt32.ofNat n.off) = some (UInt32.ofNat n.key.length) :=
    by
  have hin := h.inside
  unfold stop size nodeSize at hin
  have hread := ByteMemory.read_sub h.header (show 0 + 4 ≤ nodeHeaderLen by decide)
  rw [uint32At, toNat_ofNat_of_lt (by omega)]
  rw [Nat.add_zero] at hread
  rw [hread]
  have hkl : n.key.length < 256 ^ 4 := by omega
  simp [Node.header, LittleEndian.get_put_of_lt hkl]

theorem StoredIn.valueLen :
    uint32At arena (UInt32.ofNat n.off + 4) = some (UInt32.ofNat n.value.length) := by
  have hin := h.inside
  unfold stop size nodeSize nodeHeaderLen at hin
  have hread := ByteMemory.read_sub h.header (show 4 + 4 ≤ nodeHeaderLen by decide)
  have hoff : (UInt32.ofNat n.off + 4).toNat = n.off + 4 := toNat_add_ofNat (n := 4) (by omega)
  rw [uint32At, hoff, hread]
  have hvl : n.value.length < 256 ^ 4 := by omega
  simp [Node.header, LittleEndian.get_put_of_lt hvl]

theorem StoredIn.heightAt :
    uint16At arena (UInt32.ofNat n.off + 8) = some (UInt32.ofNat n.height) := by
  have hin := h.inside
  have hmax := h.height
  unfold stop size nodeSize nodeHeaderLen at hin
  have hread := ByteMemory.read_sub h.header (show 8 + 2 ≤ nodeHeaderLen by decide)
  have hoff : (UInt32.ofNat n.off + 8).toNat = n.off + 8 := toNat_add_ofNat (n := 8) (by omega)
  rw [uint16At, hoff, hread]
  have hh : n.height < 256 ^ 2 := by
    unfold maxHeight at hmax
    omega
  have hdrop : n.header.drop 8 = LittleEndian.put 2 n.height ++ replicate 2 0 := by
    rw [Node.header, ← append_assoc, drop_left' (by simp)]
  rw [hdrop, map_some, LittleEndian.get_take_put_append hh]

theorem StoredIn.dataOff :
    (linkOff (UInt32.ofNat n.off) n.height).toNat = n.off + nodeHeaderLen + n.height * 4 := by
  have hin := h.inside
  unfold stop size nodeSize at hin
  exact linkOff_toNat (by omega)

theorem StoredIn.keyAt : skiplistKeyAt arena (UInt32.ofNat n.off) = some n.key := by
  have hin := h.inside
  have hdata := h.dataOff hlen
  unfold stop size nodeSize at hin
  have hend : (linkOff (UInt32.ofNat n.off) n.height + UInt32.ofNat n.key.length).toNat =
      n.off + nodeHeaderLen + n.height * 4 + n.key.length := by
    rw [UInt32.toNat_add, hdata, toNat_ofNat_of_lt (by omega), Nat.mod_eq_of_lt (by omega)]
  have hread := ByteMemory.read_sub h.data (show 0 + n.key.length ≤ _ by omega)
  simp only [skiplistKeyAt, h.heightAt hlen, h.keyLen hlen, bind_eq_bind, bind_some]
  change sliceAt arena (linkOff _ n.height) (linkOff _ n.height + _) = _
  rw [sliceAt, if_pos (by rw [UInt32.le_iff_toNat_le]; omega), hend, hdata,
    Nat.add_sub_cancel_left]
  simpa using hread

theorem StoredIn.valueAt : skiplistValueAt arena (UInt32.ofNat n.off) = some n.value := by
  have hin := h.inside
  have hdata := h.dataOff hlen
  unfold stop size nodeSize at hin
  have hstart : (linkOff (UInt32.ofNat n.off) n.height + UInt32.ofNat n.key.length).toNat =
      n.off + nodeHeaderLen + n.height * 4 + n.key.length := by
    rw [UInt32.toNat_add, hdata, toNat_ofNat_of_lt (by omega), Nat.mod_eq_of_lt (by omega)]
  have hend : (linkOff (UInt32.ofNat n.off) n.height + UInt32.ofNat n.key.length +
      UInt32.ofNat n.value.length).toNat =
      n.off + nodeHeaderLen + n.height * 4 + n.key.length + n.value.length := by
    rw [UInt32.toNat_add, hstart, toNat_ofNat_of_lt (by omega), Nat.mod_eq_of_lt (by omega)]
  have hread := ByteMemory.read_sub h.data (show n.key.length + n.value.length ≤ _ by omega)
  simp only [skiplistValueAt, h.heightAt hlen, h.keyLen hlen, h.valueLen hlen,
    bind_eq_bind, bind_some]
  change sliceAt arena (linkOff _ n.height + _) (linkOff _ n.height + _ + _) = _
  rw [sliceAt, if_pos (by rw [UInt32.le_iff_toNat_le]; omega), hend, hstart,
    Nat.add_sub_cancel_left]
  simpa using hread

theorem StoredIn.linkAt {level : Nat} (hlevel : level < n.height) :
    (linkOff (UInt32.ofNat n.off) level).toNat = n.off + nodeHeaderLen + level * 4 := by
  have hin := h.inside
  unfold stop size nodeSize at hin
  exact linkOff_toNat (by omega)

end

end Node

def Node.bytes (n : Node) : Bytes :=
  n.header ++ (replicate (n.height * 4) 0 ++ (n.key ++ n.value))

theorem allocNode_eq {arena key value : Bytes} {h : Nat}
    (hlen : arena.length + nodeSize h key value < 2 ^ 32) :
    allocNode arena key value h =
      some (arena ++ (Node.mk arena.length h key value).bytes, UInt32.ofNat arena.length) := by
  have hsize : nodeSize h key value = 4 + (4 + (2 + (2 + h * 4 + (key.length + value.length)))) :=
    by
    unfold nodeSize nodeHeaderLen
    omega
  have hfour : (UInt32.ofNat arena.length + 4).toNat = arena.length + 4 :=
    toNat_add_ofNat (n := 4) (by omega)
  have height : (UInt32.ofNat arena.length + 8).toNat = arena.length + 8 :=
    toNat_add_ofNat (n := 8) (by omega)
  have hlink : (linkOff (UInt32.ofNat arena.length) h).toNat =
    arena.length + nodeHeaderLen + h * 4 :=
    linkOff_toNat (by unfold nodeHeaderLen; omega)
  unfold nodeHeaderLen at hlink
  have hdata : (linkOff (UInt32.ofNat arena.length) h + UInt32.ofNat key.length).toNat =
      arena.length + (4 + 4 + 2 + 2) + h * 4 + key.length := by
    rw [UInt32.toNat_add, hlink, toNat_ofNat_of_lt (by omega), Nat.mod_eq_of_lt (by omega)]
  -- each write fills the front of the zeros that are left
  have h₁ := ByteMemory.write_zeros arena (LittleEndian.put 4 key.length)
    (toNat_ofNat_of_lt (n := arena.length) (by omega))
    (4 + (2 + (2 + h * 4 + (key.length + value.length))))
  have h₂ := ByteMemory.write_zeros (arena ++ LittleEndian.put 4 key.length)
    (LittleEndian.put 4 value.length) (hfour.trans (by simp))
    (2 + (2 + h * 4 + (key.length + value.length)))
  have h₃ := ByteMemory.write_zeros
    (arena ++ LittleEndian.put 4 key.length ++ LittleEndian.put 4 value.length)
    (LittleEndian.put 2 h) (height.trans (by simp)) (2 + h * 4 + (key.length + value.length))
  have h₄ := ByteMemory.copy_zeros (arena ++ LittleEndian.put 4 key.length ++
    LittleEndian.put 4 value.length ++ LittleEndian.put 2 h ++ replicate (2 + h * 4) 0) key
    (hlink.trans (by simp; omega)) value.length
  have h₅ := ByteMemory.copy_zeros (arena ++ LittleEndian.put 4 key.length ++
    LittleEndian.put 4 value.length ++ LittleEndian.put 2 h ++ replicate (2 + h * 4) 0 ++ key)
    value (hdata.trans (by simp; omega)) 0
  rw [append_assoc _ (replicate (2 + h * 4) 0), replicate_append_replicate] at h₄
  simp only [LittleEndian.put_length] at h₁ h₂ h₃
  rw [Nat.add_zero] at h₅
  simp only [allocNode, fillNode, hsize, h₁, h₂, h₃, h₄, h₅, bind_eq_bind,
    bind_some, Option.pure_def]
  simp [Node.bytes, Node.header, ← replicate_append_replicate]

@[simp] theorem Node.bytes_length (n : Node) : n.bytes.length = n.size := by
  simp [Node.bytes, Node.header, Node.size, nodeSize, nodeHeaderLen]
  omega

theorem Node.storedIn_fresh {n : Node} {arena : Bytes} (hoff : n.off = arena.length)
    (hheight : n.height ≤ maxHeight) : n.StoredIn (arena ++ n.bytes) where
  inside := by simp [Node.stop, hoff]
  height := hheight
  header := by
    have hlen : nodeHeaderLen = n.header.length := by simp [Node.header, nodeHeaderLen]
    rw [hoff, Node.bytes, hlen]
    exact ByteMemory.read_block _ _ _
  data := by
    have hread := ByteMemory.read_block
      (arena ++ (n.header ++ replicate (n.height * 4) 0)) (n.key ++ n.value) []
    have hlen : (arena ++ (n.header ++ replicate (n.height * 4) (0 : UInt8))).length =
        n.off + nodeHeaderLen + n.height * 4 := by
      simp [Node.header, nodeHeaderLen, hoff]
      omega
    rw [hlen, length_append, append_nil] at hread
    simpa [Node.bytes, append_assoc] using hread

theorem Node.next_fresh {n : Node} {arena : Bytes} (hoff : n.off = arena.length)
    (hlen : arena.length + n.size < 2 ^ 32) {level : Nat} (hlevel : level < n.height) :
    next (arena ++ n.bytes) (UInt32.ofNat n.off) level = some nilNode := by
  unfold Node.size nodeSize at hlen
  have hread := ByteMemory.read_block (arena ++ n.header) (replicate (n.height * 4) 0)
    (n.key ++ n.value)
  have hstart : (arena ++ n.header).length = n.off + nodeHeaderLen := by
    simp [Node.header, nodeHeaderLen, hoff]
  rw [hstart, length_replicate] at hread
  have hsub := ByteMemory.read_sub hread (show level * 4 + 4 ≤ n.height * 4 by omega)
  rw [next, uint32At, linkOff_toNat (by omega)]
  rw [append_assoc] at hsub
  rw [Node.bytes, hsub, drop_replicate, take_replicate, Nat.min_eq_left (by omega)]
  rfl

def Node.Apart (m n : Node) : Prop := m.stop ≤ n.off ∨ n.stop ≤ m.off

theorem next_setNext_self {n : Node} {arena arena' : Bytes} {level : Nat} {target : UInt32}
    (hw : setNext arena (UInt32.ofNat n.off) level target = some arena') :
    next arena' (UInt32.ofNat n.off) level = some target := by
  have hread := ByteMemory.read_write_self hw
  rw [LittleEndian.put_length] at hread
  have hget : LittleEndian.get (LittleEndian.put 4 target.toNat) = target.toNat :=
    LittleEndian.get_put_of_lt target.toNat_lt
  rw [next, uint32At, hread, map_some, hget, UInt32.ofNat_toNat]

section

variable {n m : Node} {arena arena' : Bytes} {level : Nat} {target : UInt32}
  (hn : n.StoredIn arena) (hlen : arena.length < 2 ^ 32) (hlevel : level < n.height)
include hn hlen hlevel

theorem setNext_inside (target : UInt32) :
    ∃ arena', setNext arena (UInt32.ofNat n.off) level target = some arena' ∧
      arena'.length = arena.length := by
  have hin := hn.inside
  unfold Node.stop Node.size nodeSize at hin
  refine ByteMemory.write_inside _ _ _ ?_
  rw [hn.linkAt hlen hlevel, LittleEndian.put_length]
  omega

variable (hw : setNext arena (UInt32.ofNat n.off) level target = some arena')
include hw

theorem storedIn_setNext (hm : m.StoredIn arena) (hapart : m = n ∨ m.Apart n) :
    m.StoredIn arena' := by
  have hin := hn.inside
  have hin' := hm.inside
  unfold setNext at hw
  rw [hn.linkAt hlen hlevel] at hw
  unfold Node.Apart at hapart
  unfold Node.stop Node.size nodeSize at hin hin' hapart
  refine ⟨?_, hm.height, ?_, ?_⟩
  · rw [ByteMemory.write_length hw]
    exact hm.inside
  · rw [ByteMemory.read_write_apart hw, hm.header]
    rw [LittleEndian.put_length]
    rcases hapart with rfl | hapart <;> omega
  · rw [ByteMemory.read_write_apart hw, hm.data]
    rw [LittleEndian.put_length]
    rcases hapart with rfl | hapart <;> omega

theorem next_setNext_other (hm : m.StoredIn arena) {level' : Nat} (hlevel' : level' < m.height)
    (hother : (m = n ∧ level' ≠ level) ∨ m.Apart n) :
    next arena' (UInt32.ofNat m.off) level' = next arena (UInt32.ofNat m.off) level' := by
  have hin := hn.inside
  have hin' := hm.inside
  unfold setNext at hw
  rw [hn.linkAt hlen hlevel] at hw
  unfold Node.Apart at hother
  unfold Node.stop Node.size nodeSize at hin hin' hother
  rw [next, next, uint32At, uint32At, hm.linkAt hlen hlevel', ByteMemory.read_write_apart hw]
  rw [LittleEndian.put_length]
  rcases hother with ⟨rfl, hne⟩ | hapart <;> omega

end

end Skiplist

end LevisDB
