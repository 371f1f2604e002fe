import LevisDB.Storage.SkiplistShape

/-!
# Arena growth and pinned arrays

The arena is a slice of an array with room to spare. A node is added in that
room while it lasts, and in a larger copy of the array when it does not.
-/

namespace LevisDB

open List

/-- The arrays that growths left behind, the current array up to its capacity, and the
length of the slice in use. -/
structure Arena where
  left : List Bytes
  cells : Bytes
  len : Nat

namespace Arena

/-- `make([]byte, len, cap)`. -/
def make (len cap : Nat) : Arena := ⟨[], replicate cap 0, len⟩

def bytes (a : Arena) : Bytes := a.cells.take a.len

def grow (a : Arena) (need : Nat) : Arena :=
  if a.cells.length < need then
    ⟨a.left ++ [a.cells],
      a.cells.take a.len ++ replicate (max (a.cells.length * 2) need - a.len) 0, a.len⟩
  else a

def extend (a : Arena) (need : Nat) : Arena := { a.grow need with len := need }

def store (a : Arena) (f : Bytes → Option Bytes) : Option Arena :=
  (f a.bytes).map fun b => { a with cells := b ++ a.cells.drop a.len }

/-- The slice is inside its array, and the room behind it is still zeroed. -/
structure Sound (a : Arena) : Prop where
  inside : a.len ≤ a.cells.length
  zeroed : a.cells.drop a.len = replicate (a.cells.length - a.len) 0

theorem make_sound {len cap : Nat} (h : len ≤ cap) : (make len cap).Sound := by
  refine ⟨?_, ?_⟩
  · rw [make, length_replicate]
    exact h
  · rw [make, drop_replicate, length_replicate]

variable {a a' : Arena} {need : Nat}

theorem Sound.bytes_length (h : a.Sound) : a.bytes.length = a.len := by
  rw [bytes, length_take, Nat.min_eq_left h.inside]

theorem Sound.grow (h : a.Sound) (hneed : a.len ≤ need) :
    (a.grow need).Sound ∧ (a.grow need).bytes = a.bytes ∧ (a.grow need).len = a.len ∧
      need ≤ (a.grow need).cells.length := by
  have hlen := h.bytes_length
  unfold bytes at hlen
  unfold Arena.grow
  split_ifs with hfull
  · refine ⟨⟨?_, ?_⟩, ?_, rfl, ?_⟩
    · simp [hlen]
    · simp only [length_append, length_replicate, hlen]
      rw [drop_left' hlen]
      congr 1
      omega
    · exact take_left' hlen
    · simp only [length_append, length_replicate, hlen]
      omega
  · exact ⟨h, rfl, rfl, by omega⟩

theorem Sound.extend (h : a.Sound) (hneed : a.len ≤ need) :
    (a.extend need).Sound ∧ (a.extend need).len = need ∧
      (a.extend need).bytes = a.bytes ++ replicate (need - a.len) 0 := by
  obtain ⟨hsound, hbytes, hlen, hroom⟩ := h.grow hneed
  generalize hg : a.grow need = g at hsound hbytes hlen hroom
  have hext : a.extend need = { g with len := need } := by rw [Arena.extend, hg]
  have hzeros := hsound.zeroed
  rw [hlen] at hzeros
  have hsplit : g.cells = a.bytes ++ replicate (g.cells.length - a.len) 0 := by
    rw [← hbytes, bytes, hlen, ← hzeros, take_append_drop]
  rw [hext]
  refine ⟨⟨hroom, ?_⟩, rfl, ?_⟩
  · have hdrop : g.cells.drop need = (g.cells.drop a.len).drop (need - a.len) := by
      rw [drop_drop, Nat.add_sub_cancel' hneed]
    change g.cells.drop need = replicate (g.cells.length - need) 0
    rw [hdrop, hzeros, drop_replicate]
    congr 1
    omega
  · change g.cells.take need = _
    rw [hsplit, take_append, take_of_length_le (by rw [h.bytes_length]; exact hneed),
      h.bytes_length, take_replicate]
    congr 2
    omega

theorem Sound.store (h : a.Sound) {f : Bytes → Option Bytes} {b : Bytes} (hf : f a.bytes = some b)
    (hlen : b.length = a.bytes.length) :
    ∃ a', a.store f = some a' ∧ a'.Sound ∧ a'.bytes = b ∧ a'.len = a.len ∧ a'.left = a.left := by
  rw [h.bytes_length] at hlen
  have hin := h.inside
  have htotal : (b ++ a.cells.drop a.len).length = a.cells.length := by
    rw [length_append, length_drop, hlen]
    omega
  refine ⟨{ a with cells := b ++ a.cells.drop a.len }, by rw [Arena.store, hf]; rfl, ⟨?_, ?_⟩, ?_,
    rfl, rfl⟩
  · change a.len ≤ (b ++ a.cells.drop a.len).length
    omega
  · change (b ++ a.cells.drop a.len).drop a.len =
      replicate ((b ++ a.cells.drop a.len).length - a.len) 0
    rw [htotal, drop_left' hlen, h.zeroed]
  · exact take_left' hlen

end Arena

namespace Skiplist

structure Backed where
  arena : Arena
  head : UInt32
  height : Nat

namespace Backed

def list (l : Backed) : Skiplist := ⟨l.arena.bytes, l.head, l.height⟩

def allocNode (a : Arena) (key value : Bytes) (height : Nat) : Option (Arena × UInt32) := do
  let off := UInt32.ofNat a.len
  let a ← (a.extend (a.len + nodeSize height key value)).store
    fun arena => fillNode arena off key value height
  pure (a, off)

def newSkiplist : Option Backed := do
  let (arena, head) ← allocNode (.make 1 4096) [] [] maxHeight
  pure ⟨arena, head, 1⟩

def insert (l : Backed) (key value : Bytes) (h : Nat) : Option Backed := do
  let (_, prev) ← l.list.findGE key
  let prev := raiseTo l.head l.height h prev
  let (arena, n) ← allocNode l.arena key value h
  let arena ← arena.store fun arena => linkLevels prev n 0 h arena
  pure ⟨arena, l.head, max l.height h⟩

theorem allocNode_shows {a : Arena} (ha : a.Sound) {key value : Bytes} {h : Nat}
    (hsmall : a.len + nodeSize h key value < 2 ^ 32) :
    ∃ a', allocNode a key value h = some (a', UInt32.ofNat a.len) ∧ a'.Sound ∧
      a'.bytes = a.bytes ++ (Node.mk a.len h key value).bytes ∧
      a'.len = a.len + nodeSize h key value ∧
      a'.left = (a.grow (a.len + nodeSize h key value)).left := by
  obtain ⟨hsound, hlen, hbytes⟩ := ha.extend (Nat.le_add_right a.len (nodeSize h key value))
  rw [Nat.add_sub_cancel_left] at hbytes
  have hsmall' : a.bytes.length + nodeSize h key value < 2 ^ 32 := by
    rw [ha.bytes_length]
    exact hsmall
  have halloc := Skiplist.allocNode_eq hsmall'
  rw [Skiplist.allocNode, ha.bytes_length, ← hbytes] at halloc
  cases hfill : fillNode (a.extend (a.len + nodeSize h key value)).bytes (UInt32.ofNat a.len) key
      value h with
  | none => simp [hfill] at halloc
  | some b =>
    rw [hfill] at halloc
    obtain rfl : b = a.bytes ++ (Node.mk a.len h key value).bytes :=
      (Prod.mk.inj (Option.some.inj halloc)).1
    obtain ⟨a', hstore, hsound', hbytes', hlen', hleft⟩ := hsound.store
      (f := fun arena => fillNode arena (UInt32.ofNat a.len) key value h) hfill
      (by rw [hbytes]; simp [Node.size])
    refine ⟨a', by simp [allocNode, hstore], hsound', hbytes', hlen'.trans hlen, hleft⟩

/-- The list in its arena keeps the shape of the list its slice shows. -/
structure Holds (l : Backed) (base : List Node) : Prop where
  sound : l.arena.Sound
  shape : l.list.Shape base

theorem newSkiplist_holds : ∃ l, newSkiplist = some l ∧ l.Holds [] ∧ l.arena.len = headNode.stop :=
    by
  obtain ⟨a, halloc, ha, hbytes, hlen, _⟩ :=
    allocNode_shows (Arena.make_sound (show 1 ≤ 4096 by decide))
      (show (Arena.make 1 4096).len + nodeSize maxHeight [] [] < 2 ^ 32 by decide)
  obtain ⟨s, hnew, harena, hshape⟩ := Skiplist.newSkiplist_shape
  have hlist : (⟨a, UInt32.ofNat (Arena.make 1 4096).len, 1⟩ : Backed).list = s := by
    have hfirst : (Arena.make 1 4096).bytes = [0] := by
      rw [Arena.bytes, Arena.make, take_replicate]
      rfl
    rw [Skiplist.newSkiplist, allocNode_eq (by decide)] at hnew
    cases hnew
    rw [list, hbytes, hfirst]
    rfl
  exact ⟨_, by rw [newSkiplist, halloc]; rfl, ⟨ha, hlist ▸ hshape⟩, hlen⟩

theorem Holds.insert {l : Backed} {base below above : List Node} (hl : l.Holds base)
    {key value : Bytes} {h : Nat} (hparts : Parts key base below above) (hkey : WholeKey key)
    (hpos : 0 < h) (hmax : h ≤ maxHeight)
    (hsmall : l.arena.len + nodeSize h key value < 2 ^ 32) :
    ∃ l', l.insert key value h = some l' ∧
      l'.Holds (below ++ ⟨l.arena.len, h, key, value⟩ :: above) ∧
      l'.arena.len = l.arena.len + nodeSize h key value ∧
      l'.arena.left = (l.arena.grow (l.arena.len + nodeSize h key value)).left := by
  have hlen := hl.sound.bytes_length
  have hsmall' : l.list.arena.length + nodeSize h key value < 2 ^ 32 := by
    change l.arena.bytes.length + _ < _
    rw [hlen]
    exact hsmall
  obtain ⟨s', hinsert, hlength, hshape⟩ := hl.shape.insert hparts hkey hpos hmax hsmall'
  obtain ⟨a, halloc, ha, hbytes, halen, hleft⟩ := allocNode_shows hl.sound hsmall
  obtain ⟨prev, hfind, _, _⟩ := hl.shape.findGE hparts hkey
  -- both levels run the same search and the same linking loop
  have hflat := hinsert
  simp only [Skiplist.insert, hfind, allocNode_eq hsmall', Option.bind_eq_bind,
    Option.bind_some] at hflat
  change (linkLevels (raiseTo l.head l.height h prev) (UInt32.ofNat l.arena.bytes.length) 0 h
    (l.arena.bytes ++ (Node.mk l.arena.bytes.length h key value).bytes)).bind _ = _ at hflat
  rw [hlen, ← hbytes] at hflat
  cases hlinks : linkLevels (raiseTo l.head l.height h prev) (UInt32.ofNat l.arena.len) 0 h
      a.bytes with
  | none => simp [hlinks] at hflat
  | some b =>
    rw [hlinks] at hflat
    cases hflat
    have hsame : b.length = a.bytes.length := by
      rw [ha.bytes_length, halen, ← hlen]
      exact hlength
    obtain ⟨a', hstore, ha', hbytes', hlen', hleft'⟩ := ha.store
      (f := fun arena => linkLevels (raiseTo l.head l.height h prev) (UInt32.ofNat l.arena.len) 0
        h arena) hlinks hsame
    refine ⟨⟨a', l.head, max l.height h⟩, ?_, ⟨ha', ?_⟩, hlen'.trans halen, hleft'.trans hleft⟩
    · simp [Backed.insert, hfind, halloc, hstore]
    · have hlist : (⟨a', l.head, max l.height h⟩ : Backed).list =
          ⟨b, l.head, max l.height h⟩ := by rw [list, hbytes']
      rw [hlist, ← hlen]
      exact hshape

end Backed

structure Pinned where
  array : Nat
  len : Nat

namespace Pinned

def bytes (p : Pinned) (a : Arena) : Bytes := ((a.left ++ [a.cells]).getD p.array []).take p.len

/-- Whether the slice's array was left behind or is still written to, these nodes are in
the slice. -/
def Keeps (p : Pinned) (l : Backed) (base nodes : List Node) : Prop :=
  (p.array < l.arena.left.length ∧ ∀ n ∈ nodes, n.StoredIn (p.bytes l.arena)) ∨
    (p.array = l.arena.left.length ∧ p.len ≤ l.arena.len ∧ ∀ n ∈ nodes, n ∈ base ∧ n.stop ≤ p.len)

end Pinned

def Backed.pin (l : Backed) : Pinned := ⟨l.arena.left.length, l.arena.len⟩

section Pins

variable {l l' : Backed} {base base' nodes : List Node} {p : Pinned}

theorem Node.StoredIn.take {n : Node} {arena : Bytes} (h : n.StoredIn arena) {stop : Nat}
    (hstop : n.stop ≤ stop) : n.StoredIn (arena.take stop) := by
  have hin := h.inside
  have hfits := hstop
  unfold Node.stop Node.size nodeSize at hfits
  refine ⟨?_, h.height, ByteMemory.read_take (by omega) h.header,
    ByteMemory.read_take (by omega) h.data⟩
  rw [length_take]
  omega

theorem Backed.Holds.stored (hl : l.Holds base) {n : Node} (hn : n ∈ base) :
    n.StoredIn l.arena.bytes := hl.shape.packed.stored n (mem_cons_of_mem _ hn)

theorem Backed.Holds.keeps_pin (hl : l.Holds base) : l.pin.Keeps l base base := by
  refine .inr ⟨rfl, Nat.le_refl _, fun n hn => ⟨hn, ?_⟩⟩
  have hin := (hl.stored hn).inside
  rwa [hl.sound.bytes_length] at hin

theorem Pinned.bytes_of_current (hp : p.array = l.arena.left.length) (hlen : p.len ≤ l.arena.len) :
    p.bytes l.arena = l.arena.bytes.take p.len := by
  have hget : (l.arena.left ++ [l.arena.cells]).getD p.array [] = l.arena.cells := by
    rw [getD_eq_getElem?_getD, hp, List.getElem?_concat_length]
    rfl
  rw [Pinned.bytes, hget, Arena.bytes, take_take, Nat.min_eq_left hlen]

theorem Pinned.Keeps.stored (h : p.Keeps l base nodes) (hl : l.Holds base) {n : Node}
    (hn : n ∈ nodes) : n.StoredIn (p.bytes l.arena) := by
  rcases h with ⟨_, hstored⟩ | ⟨harray, hlen, hnodes⟩
  · exact hstored n hn
  · rw [Pinned.bytes_of_current harray hlen]
    exact (hl.stored (hnodes n hn).1).take (hnodes n hn).2

theorem Pinned.bytes_of_left {a a' : Arena} (rest : List Bytes)
    (harray : p.array < a'.left.length)
    (hleft : a'.left ++ rest = a.left ++ [a.cells]) : p.bytes a' = p.bytes a := by
  rw [Pinned.bytes, Pinned.bytes, ← hleft, getD_eq_getElem?_getD, getD_eq_getElem?_getD,
    List.getElem?_append_left harray, List.getElem?_append_left harray]

theorem Pinned.Keeps.insert (h : p.Keeps l base nodes) (hl : l.Holds base)
    (hbase : ∀ n ∈ base, n ∈ base') {need : Nat} (hlen : l.arena.len ≤ l'.arena.len)
    (hleft : l'.arena.left = (l.arena.grow need).left) : p.Keeps l' base' nodes := by
  have hstored : ∀ n ∈ nodes, n.StoredIn (p.bytes l.arena) := fun n hn => h.stored hl hn
  unfold Arena.grow at hleft
  split_ifs at hleft with hfull
  · -- the array in use is left behind as it was
    have harray : p.array < l'.arena.left.length := by
      rw [hleft, length_append, length_singleton]
      rcases h with ⟨harray, _⟩ | ⟨harray, _⟩ <;> omega
    refine .inl ⟨harray, fun n hn => ?_⟩
    have hsame : p.bytes l'.arena = p.bytes l.arena :=
      Pinned.bytes_of_left [] harray (by rw [hleft, append_nil])
    exact hsame ▸ hstored n hn
  · rcases h with ⟨harray, _⟩ | ⟨harray, hple, hnodes⟩
    · rw [← hleft] at harray
      refine .inl ⟨harray, fun n hn => ?_⟩
      have hsame : p.bytes l'.arena = p.bytes l.arena :=
        Pinned.bytes_of_left [l.arena.cells] harray (by rw [hleft])
      exact hsame ▸ hstored n hn
    · exact .inr ⟨hleft ▸ harray, Nat.le_trans hple hlen, fun n hn =>
        ⟨hbase n (hnodes n hn).1, (hnodes n hn).2⟩⟩

end Pins

end Skiplist

end LevisDB
