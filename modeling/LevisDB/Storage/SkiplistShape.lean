import LevisDB.Storage.Skiplist
import Mathlib.Data.List.Pairwise
import Mathlib.Data.List.Perm.Subperm

/-!
# The shape of the skiplist

The arena holds nodes that do not overlap. On every level the links lead from
the head through the nodes that are tall enough, in key order, so each level is
a sublist of the one below.
-/

namespace LevisDB

open List

namespace Skiplist

def Node.ptr (n : Node) : UInt32 := UInt32.ofNat n.off

/-- The node every level starts at. -/
def headNode : Node := ⟨1, maxHeight, [], []⟩

def onLevel (level : Nat) (ns : List Node) : List Node :=
    ns.filter fun n => decide (level < n.height)

/-- The links of a level lead from the head through these nodes. -/
def Linked (arena : Bytes) (level : Nat) (ns : List Node) : Prop :=
  LinkedList.Visits (fun n : Node => next arena n.ptr level) (fun n => some n.ptr) (some nilNode)
    headNode ns

/-- The nodes, the head among them, are in the arena and share no byte. -/
structure Packed (arena : Bytes) (ns : List Node) : Prop where
  stored : ∀ n ∈ ns, n.StoredIn arena
  apart : ns.Pairwise Node.Apart
  offs : ∀ n ∈ ns, 0 < n.off
  small : arena.length < 2 ^ 32

structure Shape (s : Skiplist) (base : List Node) : Prop where
  head : s.head = headNode.ptr
  packed : Packed s.arena (headNode :: base)
  linked : ∀ level, level < maxHeight → Linked s.arena level (onLevel level base)
  sorted : base.Pairwise fun a b => IKeyBytesLe a.key b.key
  whole : ∀ n ∈ base, WholeKey n.key
  heights : ∀ n ∈ base, 0 < n.height ∧ n.height ≤ s.height
  pos : 0 < s.height
  le : s.height ≤ maxHeight

section Packed

variable {arena : Bytes} {ns : List Node}

theorem Node.size_pos (n : Node) : nodeHeaderLen ≤ n.size := by
  unfold Node.size nodeSize
  omega

theorem Node.Apart.off_ne {m n : Node} (h : m.Apart n) : m.off ≠ n.off := by
  have hm := m.size_pos
  have hn := n.size_pos
  unfold Node.Apart Node.stop at h
  unfold nodeHeaderLen at hm hn
  omega

theorem Node.Apart.symm {m n : Node} (h : m.Apart n) : n.Apart m := Or.symm h

section

variable (h : Packed arena ns)
include h

theorem Packed.off_lt {n : Node} (hn : n ∈ ns) : n.off < arena.length := by
  have hin := (h.stored n hn).inside
  have hsize := n.size_pos
  unfold Node.stop at hin
  unfold nodeHeaderLen at hsize
  omega

theorem Packed.ptr_ne_nil {n : Node} (hn : n ∈ ns) : n.ptr ≠ nilNode := by
  have hpos := h.offs n hn
  have hlt := h.off_lt hn
  have hsmall := h.small
  intro heq
  have hnat := congrArg UInt32.toNat heq
  rw [Node.ptr, toNat_ofNat_of_lt (by omega)] at hnat
  exact absurd hnat (by simp [nilNode]; omega)

theorem Packed.nodup : ns.Nodup :=
  h.apart.imp fun hapart heq => hapart.off_ne (congrArg Node.off heq)

theorem Packed.apart_of_ne {m n : Node} (hm : m ∈ ns) (hn : n ∈ ns)
    (hne : m ≠ n) : m.Apart n := by
  have hsymm : Std.Symm Node.Apart := ⟨fun _ _ => Node.Apart.symm⟩
  exact h.apart.forall hm hn hne

end

theorem Packed.length_lt (h : Packed arena (headNode :: ns)) : ns.length < arena.length := by
  have hoffs : ((headNode :: ns).map Node.off).Nodup :=
    pairwise_map.2 (h.apart.imp fun hapart => hapart.off_ne)
  have hsub : (headNode :: ns).map Node.off ⊆ List.range arena.length := by
    intro off hoff
    obtain ⟨n, hn, rfl⟩ := List.mem_map.1 hoff
    exact mem_range.2 (h.off_lt hn)
  have hle := (subperm_of_subset hoffs hsub).length_le
  simp only [map_cons, length_cons, length_map, length_range] at hle
  omega

end Packed

section Search

variable {s : Skiplist} {key : Bytes}

theorem compare_whole {n : Node} (hn : WholeKey n.key) (hkey : WholeKey key) :
    ∃ c, ikeyCompareBytes n.key key = some c ∧ (c = .lt ↔ ¬ IKeyBytesLe key n.key) :=
  ⟨_, ikeyCompareBytes_whole hn hkey, compareParts_lt_iff⟩

theorem advance_spec {ns : List Node} (hp : Packed s.arena ns) (hkey : WholeKey key)
    {level fuel : Nat} {x : Node} {q r : List Node}
    (hv : LinkedList.Visits (fun n : Node => next s.arena n.ptr level) (fun n => some n.ptr)
      (some nilNode) x (q ++ r))
    (hmem : ∀ n ∈ q ++ r, n ∈ ns) (hwhole : ∀ n ∈ q ++ r, WholeKey n.key)
    (hq : ∀ n ∈ q, ¬ IKeyBytesLe key n.key) (hr : ∀ n ∈ r, IKeyBytesLe key n.key)
    (hfuel : q.length < fuel) :
    s.advance key level fuel x.ptr = some (LinkedList.last x q).ptr := by
  induction fuel generalizing x q with
  | zero => omega
  | succ fuel ih =>
    cases q with
    | nil =>
      cases r with
      | nil =>
        have hnext : next s.arena x.ptr level = some nilNode := hv
        simp [advance, hnext, LinkedList.last]
      | cons y r =>
        have hnext : next s.arena x.ptr level = some y.ptr := hv.1
        have hy : y ∈ ns := hmem y (by simp)
        obtain ⟨c, hc, hlt⟩ := compare_whole (hwhole y (by simp)) hkey
        have hne : c ≠ .lt := fun heq => hlt.1 heq (hr y (by simp))
        have hread := (hp.stored y hy).keyAt hp.small
        change skiplistKeyAt s.arena y.ptr = some y.key at hread
        simp [advance, hnext, hp.ptr_ne_nil hy, hread, hc, hne, LinkedList.last]
    | cons y q =>
      have hnext : next s.arena x.ptr level = some y.ptr := hv.1
      have hy : y ∈ ns := hmem y (by simp)
      obtain ⟨c, hc, hlt⟩ := compare_whole (hwhole y (by simp)) hkey
      have heq : c = .lt := hlt.2 (hq y (by simp))
      have hread := (hp.stored y hy).keyAt hp.small
      change skiplistKeyAt s.arena y.ptr = some y.key at hread
      have hrest := ih hv.2 (fun n hn => hmem n (mem_cons_of_mem y hn))
        (fun n hn => hwhole n (mem_cons_of_mem y hn))
        (fun n hn => hq n (mem_cons_of_mem y hn))
        (by rw [length_cons] at hfuel; omega)
      simp [advance, hnext, hp.ptr_ne_nil hy, hread, hc, heq, hrest, LinkedList.last]

variable {base below above : List Node}

structure Parts (key : Bytes) (base below above : List Node) : Prop where
  eq : base = below ++ above
  below : ∀ n ∈ below, ¬ IKeyBytesLe key n.key
  above : ∀ n ∈ above, IKeyBytesLe key n.key

theorem exists_parts (hsorted : base.Pairwise fun a b => IKeyBytesLe a.key b.key) (key : Bytes) :
    ∃ below above, Parts key base below above := by
  induction base with
  | nil => exact ⟨[], [], rfl, by simp, by simp⟩
  | cons a rest ih =>
    obtain ⟨hfirst, hrest⟩ := pairwise_cons.1 hsorted
    by_cases hle : IKeyBytesLe key a.key
    · refine ⟨[], a :: rest, rfl, by simp, forall_mem_cons.2 ⟨hle, fun n hn => ?_⟩⟩
      exact IsTrans.trans (r := IKeyBytesLe) _ _ _ hle (hfirst n hn)
    · obtain ⟨below, above, heq, hbelow, habove⟩ := ih hrest
      exact ⟨a :: below, above, by rw [heq]; rfl, forall_mem_cons.2 ⟨hle, hbelow⟩, habove⟩

theorem onLevel_append (level : Nat) (p q : List Node) :
    onLevel level (p ++ q) = onLevel level p ++ onLevel level q := filter_append ..

/-- The node a search stops at on a level. -/
def stopAt (level : Nat) (below : List Node) : Node :=
    LinkedList.last headNode (onLevel level below)

theorem stopAt_mem (level : Nat) (below : List Node) :
    stopAt level below = headNode ∨
      stopAt level below ∈ below ∧ level < (stopAt level below).height := by
  rcases mem_cons.1 (LinkedList.last_mem headNode (onLevel level below)) with h | h
  · exact .inl h
  · obtain ⟨hmem, htall⟩ := mem_filter.1 h
    exact .inr ⟨hmem, of_decide_eq_true htall⟩

theorem Shape.advance (h : Shape s base) (hparts : Parts key base below above)
    (hkey : WholeKey key) {level : Nat} (hlevel : level < maxHeight) {x : Node}
    (hx : x = headNode ∨ x ∈ below ∧ level < x.height) :
    s.advance key level s.arena.length x.ptr = some (stopAt level below).ptr := by
  have hlinked := h.linked level hlevel
  rw [hparts.eq, onLevel_append] at hlinked
  -- where the walk stands on this level
  obtain ⟨p, q, hpq, hlast⟩ : ∃ p q, onLevel level below = p ++ q ∧
      LinkedList.last headNode p = x := by
    rcases hx with rfl | ⟨hx, htall⟩
    · exact ⟨[], _, rfl, rfl⟩
    · have hon : x ∈ onLevel level below := mem_filter.2 ⟨hx, decide_eq_true htall⟩
      obtain ⟨p, q, hpq⟩ := append_of_mem hon
      exact ⟨p ++ [x], q, by simp [hpq], LinkedList.last_append ..⟩
  have hstop : stopAt level below = LinkedList.last x q := by
    rw [stopAt, hpq, LinkedList.last_append, hlast]
  have hbelow : ∀ n ∈ q, n ∈ below := fun n hn =>
    (mem_filter.1 (hpq ▸ mem_append_right p hn)).1
  have habove : ∀ n ∈ onLevel level above, n ∈ above := fun n hn => (mem_filter.1 hn).1
  have hbase : ∀ n ∈ q ++ onLevel level above, n ∈ base := fun n hn => by
    rw [hparts.eq]
    rcases mem_append.1 hn with hn | hn
    · exact mem_append_left _ (hbelow n hn)
    · exact mem_append_right _ (habove n hn)
  have hshort : q.length < s.arena.length := by
    have hlen := h.packed.length_lt
    have hle : (onLevel level below).length ≤ below.length := length_filter_le ..
    rw [hpq, length_append] at hle
    rw [hparts.eq, length_append] at hlen
    omega
  rw [hpq, append_assoc] at hlinked
  have hvisits := hlinked.rest
  rw [hlast] at hvisits
  rw [hstop]
  exact advance_spec h.packed hkey hvisits (fun n hn => mem_cons_of_mem _ (hbase n hn))
    (fun n hn => h.whole n (hbase n hn)) (fun n hn => hparts.below n (hbelow n hn))
    (fun n hn => hparts.above n (habove n hn)) hshort

theorem Shape.descend (h : Shape s base) (hparts : Parts key base below above)
    (hkey : WholeKey key) {level : Nat} (hlevel : level ≤ maxHeight) {x : Node}
    (hx : x = headNode ∨ x ∈ below ∧ level ≤ x.height) {prev : List UInt32}
    (hprev : prev.length = maxHeight) :
    ∃ y prev', s.descend key level x.ptr prev = some (y, prev') ∧ prev'.length = maxHeight ∧
      (0 < level → y = (stopAt 0 below).ptr) ∧ (level = 0 → y = x.ptr) ∧
      (∀ i, i < level → prev'[i]? = some (stopAt i below).ptr) ∧
      ∀ i, level ≤ i → prev'[i]? = prev[i]? := by
  induction level generalizing x prev with
  | zero => exact ⟨x.ptr, prev, rfl, hprev, by simp, by simp, by simp, by simp⟩
  | succ level ih =>
    have hstep := h.advance hparts hkey (Nat.lt_of_succ_le hlevel) (hx.imp_right fun hx =>
      ⟨hx.1, Nat.lt_of_succ_le hx.2⟩)
    have hy := (stopAt_mem level below).imp_right fun hy => (⟨hy.1, Nat.le_of_lt hy.2⟩ :
      stopAt level below ∈ below ∧ level ≤ (stopAt level below).height)
    obtain ⟨y, prev', hdescend, hlen, hbase, hzero, hset, hkept⟩ :=
      ih (Nat.le_of_succ_le hlevel) hy
        (show (prev.set level (stopAt level below).ptr).length = maxHeight by simp [hprev])
    refine ⟨y, prev', ?_, hlen, fun _ => ?_, by simp, fun i hi => ?_, fun i hi => ?_⟩
    · simp [Skiplist.descend, hstep, hdescend]
    · rcases Nat.eq_zero_or_pos level with rfl | hpos
      · exact hzero rfl
      · exact hbase hpos
    · rcases Nat.lt_succ_iff_lt_or_eq.1 hi with hi | rfl
      · exact hset i hi
      · rw [hkept i (Nat.le_refl i), List.getElem?_set_self (by omega)]
    · rw [hkept i (by omega), List.getElem?_set_ne (by omega)]

/-- The reference of the first node, or the end mark. -/
def firstPtr (ns : List Node) : UInt32 := (ns.head?.map Node.ptr).getD nilNode

theorem firstPtr_of_visits {arena : Bytes} {level : Nat} {x : Node} {ns : List Node}
    (h : LinkedList.Visits (fun n : Node => next arena n.ptr level) (fun n => some n.ptr)
      (some nilNode) x ns) : next arena x.ptr level = some (firstPtr ns) := by
  cases ns with
  | nil => exact h
  | cons y ns => exact h.1

theorem Shape.onLevel_zero (h : Shape s base) {ns : List Node} (hsub : ∀ n ∈ ns, n ∈ base) :
    onLevel 0 ns = ns :=
  filter_eq_self.2 fun n hn => decide_eq_true (h.heights n (hsub n hn)).1

theorem Shape.findGE (h : Shape s base) (hparts : Parts key base below above)
    (hkey : WholeKey key) :
    ∃ prev, s.findGE key = some (firstPtr above, prev) ∧ prev.length = maxHeight ∧
      ∀ i, i < s.height → prev[i]? = some (stopAt i below).ptr := by
  obtain ⟨y, prev, hdescend, hlen, hbase, _, hset, _⟩ := h.descend hparts hkey h.le
    (.inl rfl) (show (replicate maxHeight (0 : UInt32)).length = maxHeight by simp)
  have hlinked := h.linked 0 (by decide)
  rw [hparts.eq, onLevel_append] at hlinked
  have hnext := firstPtr_of_visits hlinked.rest
  have hzero : onLevel 0 above = above :=
    h.onLevel_zero fun n hn => hparts.eq ▸ mem_append_right _ hn
  rw [hzero] at hnext
  refine ⟨prev, ?_, hlen, hset⟩
  change next s.arena (stopAt 0 below).ptr 0 = some (firstPtr above) at hnext
  simp [Skiplist.findGE, h.head, hdescend, hbase h.pos, hnext]

end Search

section Links

variable {arena : Bytes} {ns : List Node} {n m p : Node} {level : Nat}

theorem next_append (hm : m.StoredIn arena) (hlen : arena.length < 2 ^ 32)
    (hlevel : level < m.height)
    (rest : Bytes) : next (arena ++ rest) m.ptr level = next arena m.ptr level := by
  have hin := hm.inside
  have hlink := hm.linkAt hlen hlevel
  unfold Node.stop Node.size nodeSize at hin
  have hread : ByteMemory.read arena (linkOff m.ptr level).toNat 4 = some _ :=
    if_pos (by rw [Node.ptr, hlink]; omega)
  rw [next, next, uint32At, uint32At, hread, ByteMemory.read_append hread rest]

section

variable (h : Packed arena ns)
include h

theorem Packed.perm {ns' : List Node} (hp : ns'.Perm ns) :
    Packed arena ns' where
  stored n hn := h.stored n (hp.mem_iff.1 hn)
  apart := (hp.pairwise_iff Node.Apart.symm).2 h.apart
  offs n hn := h.offs n (hp.mem_iff.1 hn)
  small := h.small

theorem Packed.alloc (hoff : n.off = arena.length)
    (hheight : n.height ≤ maxHeight) (hpos : 0 < arena.length)
    (hsmall : arena.length + n.size < 2 ^ 32) : Packed (arena ++ n.bytes) (n :: ns) where
  stored := forall_mem_cons.2
    ⟨Node.storedIn_fresh hoff hheight, fun m hm => (h.stored m hm).append n.bytes⟩
  apart := pairwise_cons.2 ⟨fun m hm => .inr (hoff ▸ (h.stored m hm).inside), h.apart⟩
  offs := forall_mem_cons.2 ⟨hoff ▸ hpos, h.offs⟩
  small := by simpa using hsmall

theorem Packed.setNext (hn : n ∈ ns) (hlevel : level < n.height)
    (target : UInt32) :
    ∃ arena', setNext arena n.ptr level target = some arena' ∧
      arena'.length = arena.length ∧ Packed arena' ns ∧
      next arena' n.ptr level = some target ∧
      ∀ m ∈ ns, ∀ l, l < m.height → (m ≠ n ∨ l ≠ level) →
        next arena' m.ptr l = next arena m.ptr l := by
  have hstored := h.stored n hn
  obtain ⟨arena', hset, hlen⟩ := setNext_inside hstored h.small hlevel target
  have hcases : ∀ m ∈ ns, m = n ∨ m.Apart n := fun m hm => by
    by_cases heq : m = n
    · exact .inl heq
    · exact .inr (h.apart_of_ne hm hn heq)
  refine ⟨arena', hset, hlen, ⟨fun m hm => ?_, h.apart, h.offs, hlen ▸ h.small⟩,
    next_setNext_self hset, fun m hm l hl hother => ?_⟩
  · exact storedIn_setNext hstored h.small hlevel hset (h.stored m hm) (hcases m hm)
  · refine next_setNext_other hstored h.small hlevel hset (h.stored m hm) hl ?_
    rcases hcases m hm with rfl | hapart
    · exact .inl ⟨rfl, hother.resolve_left (by simp)⟩
    · exact .inr hapart

theorem Packed.relink (hn : n ∈ ns) (hp : p ∈ ns) (hne : n ≠ p)
    (hlevel : level < n.height) (hlevel' : level < p.height) (target : UInt32) :
    ∃ arena₁ arena₂, Skiplist.setNext arena n.ptr level target = some arena₁ ∧
      Skiplist.setNext arena₁ p.ptr level n.ptr = some arena₂ ∧
      arena₂.length = arena.length ∧ Packed arena₂ ns ∧
      next arena₂ n.ptr level = some target ∧ next arena₂ p.ptr level = some n.ptr ∧
      ∀ m ∈ ns, ∀ l, l < m.height → (l ≠ level ∨ (m ≠ n ∧ m ≠ p)) →
        next arena₂ m.ptr l = next arena m.ptr l := by
  obtain ⟨arena₁, hset₁, hlen₁, hpacked₁, hself₁, hother₁⟩ := h.setNext hn hlevel target
  obtain ⟨arena₂, hset₂, hlen₂, hpacked₂, hself₂, hother₂⟩ := hpacked₁.setNext hp hlevel' n.ptr
  refine ⟨arena₁, arena₂, hset₁, hset₂, hlen₂.trans hlen₁, hpacked₂, ?_, hself₂,
    fun m hm l hl hoff => ?_⟩
  · rw [hother₂ n hn level hlevel (.inl hne), hself₁]
  · rw [hother₂ m hm l hl (by tauto), hother₁ m hm l hl (by tauto)]

end

end Links

section Insert

variable {s : Skiplist} {base below above : List Node} {key value : Bytes} {h : Nat}

theorem linked_congr {arena arena' : Bytes} {level : Nat} {ns : List Node}
    (hlinked : Linked arena level ns)
    (hsame : ∀ n ∈ headNode :: ns, next arena' n.ptr level = next arena n.ptr level) :
    Linked arena' level ns := LinkedList.Visits.congr hlinked hsame

/-- What holds between two rounds of the linking loop: below `level` the new node is in
its place, from `level` on it is not linked yet. -/
structure LinkedUpTo (arena : Bytes) (n : Node) (below above : List Node) (level : Nat) : Prop where
  packed : Packed arena (n :: headNode :: (below ++ above))
  done : ∀ l, l < level → l < maxHeight → Linked arena l (onLevel l below ++ n :: onLevel l above)
  todo : ∀ l, level ≤ l → l < maxHeight → Linked arena l (onLevel l below ++ onLevel l above)

theorem LinkedUpTo.step {arena : Bytes} {n : Node} {level : Nat}
    (hup : LinkedUpTo arena n below above level) (hlevel : level < n.height)
    (hmax : n.height ≤ maxHeight) :
    ∃ nxt arena₁ arena₂, next arena (stopAt level below).ptr level = some nxt ∧
      setNext arena n.ptr level nxt = some arena₁ ∧
      setNext arena₁ (stopAt level below).ptr level n.ptr = some arena₂ ∧
      arena₂.length = arena.length ∧ LinkedUpTo arena₂ n below above (level + 1) := by
  have hlt : level < maxHeight := Nat.lt_of_lt_of_le hlevel hmax
  have hlinked := hup.todo level (Nat.le_refl level) hlt
  have hnext := firstPtr_of_visits hlinked.rest
  have hnodup := hup.packed.nodup
  have hstop : stopAt level below ∈ headNode :: (below ++ above) ∧
      level < (stopAt level below).height := by
    rcases stopAt_mem level below with heq | ⟨hmem, htall⟩
    · rw [heq]
      exact ⟨mem_cons_self .., hlt⟩
    · exact ⟨mem_cons_of_mem _ (mem_append_left _ hmem), htall⟩
  have hnew : n ∉ headNode :: (below ++ above) := (nodup_cons.1 hnodup).1
  have hne : n ≠ stopAt level below := fun heq => hnew (heq ▸ hstop.1)
  obtain ⟨arena₁, arena₂, hset₁, hset₂, hlen, hpacked, hself, hlink, hother⟩ :=
    hup.packed.relink (mem_cons_self ..) (mem_cons_of_mem _ hstop.1) hne hlevel hstop.2
      (firstPtr (onLevel level above))
  have hon (l : Nat) (hl : l < maxHeight) : ∀ m ∈ headNode :: (onLevel l below ++ onLevel l above),
      m ∈ headNode :: (below ++ above) ∧ l < m.height := by
    refine forall_mem_cons.2 ⟨⟨mem_cons_self .., hl⟩, fun m hm => ?_⟩
    rw [← onLevel_append] at hm
    obtain ⟨hm, htall⟩ := mem_filter.1 hm
    exact ⟨mem_cons_of_mem _ hm, of_decide_eq_true htall⟩
  refine ⟨_, arena₁, arena₂, hnext, hset₁, hset₂, hlen, hpacked, fun l hl hlmax => ?_,
    fun l hl hlmax => ?_⟩
  · rcases Nat.lt_succ_iff_lt_or_eq.1 hl with hl' | rfl
    · -- a level done before
      refine linked_congr (hup.done l hl' hlmax) fun m hm => ?_
      have hm' : m = n ∨ m ∈ headNode :: (onLevel l below ++ onLevel l above) := by
        simp only [mem_cons, mem_append] at hm ⊢
        tauto
      rcases hm' with rfl | hm'
      · exact hother m (mem_cons_self ..) l (by omega) (.inl (by omega))
      · obtain ⟨hmem, htall⟩ := hon l hlmax m hm'
        exact hother m (mem_cons_of_mem _ hmem) l htall (.inl (by omega))
    · -- the level of this round
      refine LinkedList.Visits.splice hlinked ?_ (fun m hm hm' => ?_) hlink (hself.trans hnext.symm)
      · have hsub : (headNode :: (onLevel l below ++ onLevel l above)).Sublist
            (n :: headNode :: (below ++ above)) := by
          rw [← onLevel_append]
          exact (List.Sublist.cons_cons _ filter_sublist).cons _
        exact hnodup.sublist hsub
      · obtain ⟨hmem, htall⟩ := hon l hlmax m hm
        exact hother m (mem_cons_of_mem _ hmem) l htall
          (.inr ⟨fun heq => hnew (heq ▸ hmem), hm'⟩)
  · refine linked_congr (hup.todo l (by omega) hlmax) fun m hm => ?_
    obtain ⟨hmem, htall⟩ := hon l hlmax m hm
    exact hother m (mem_cons_of_mem _ hmem) l htall (.inl (by omega))

theorem LinkedUpTo.linkLevels {arena : Bytes} {n : Node} {prev : List UInt32} {level count : Nat}
    (hup : LinkedUpTo arena n below above level) (hcount : level + count = n.height)
    (hmax : n.height ≤ maxHeight)
    (hprev : ∀ i, i < n.height → prev[i]? = some (stopAt i below).ptr) :
    ∃ arena', linkLevels prev n.ptr level count arena = some arena' ∧
      arena'.length = arena.length ∧ LinkedUpTo arena' n below above n.height := by
  induction count generalizing level arena with
  | zero =>
    obtain rfl : level = n.height := hcount
    exact ⟨arena, rfl, rfl, hup⟩
  | succ count ih =>
    obtain ⟨nxt, arena₁, arena₂, hnext, hset₁, hset₂, hlen, hup'⟩ := hup.step (by omega) hmax
    obtain ⟨arena', hlinks, hlen', hdone⟩ := ih hup' (by omega)
    refine ⟨arena', ?_, hlen'.trans hlen, hdone⟩
    simp [Skiplist.linkLevels, hprev level (by omega), hnext, hset₁, hset₂, hlinks]

theorem foldl_set_range'_getElem? (head : UInt32) (start count : Nat) {prev : List UInt32}
    (hlen : start + count ≤ prev.length) (i : Nat) :
    ((range' start count).foldl (fun prev i => prev.set i head) prev)[i]? =
      if start ≤ i ∧ i < start + count then some head else prev[i]? := by
  induction count generalizing start prev with
  | zero => rw [if_neg (by omega)]; rfl
  | succ count ih =>
    rw [List.range'_succ, foldl_cons, ih (start + 1) (by rw [length_set]; omega)]
    by_cases hi : i = start
    · subst hi
      rw [if_neg (by omega), if_pos (by omega), List.getElem?_set_self (by omega)]
    · rw [List.getElem?_set_ne (Ne.symm hi)]
      exact if_congr (by omega) rfl rfl

theorem raiseTo_getElem? (head : UInt32) (height h : Nat) {prev : List UInt32}
    (hlen : prev.length = maxHeight) (hmax : h ≤ maxHeight) (hle : height ≤ maxHeight) (i : Nat) :
    (raiseTo head height h prev)[i]? =
      if height ≤ i ∧ i < h then some head else prev[i]? := by
  rw [raiseTo, foldl_set_range'_getElem? _ _ _ (by omega)]
  exact if_congr (by omega) rfl rfl

theorem stopAt_of_high (hs : Shape s base) (hparts : Parts key base below above) {level : Nat}
    (hlevel : s.height ≤ level) : stopAt level below = headNode := by
  have hnone : onLevel level below = [] := filter_eq_nil_iff.2 fun n hn => by
    have := (hs.heights n (hparts.eq ▸ mem_append_left _ hn)).2
    simp only [decide_eq_true_eq]
    omega
  rw [stopAt, hnone]
  rfl

theorem Shape.insert (hs : Shape s base) (hparts : Parts key base below above)
    (hkey : WholeKey key) (hpos : 0 < h) (hmax : h ≤ maxHeight)
    (hsmall : s.arena.length + nodeSize h key value < 2 ^ 32) :
    ∃ s', s.insert key value h = some s' ∧
      s'.arena.length = s.arena.length + nodeSize h key value ∧
      Shape s' (below ++ ⟨s.arena.length, h, key, value⟩ :: above) := by
  set n : Node := ⟨s.arena.length, h, key, value⟩ with hn
  obtain ⟨prev, hfind, hlen, hprev⟩ := hs.findGE hparts hkey
  have halloc := allocNode_eq hsmall
  have hpacked : Packed (s.arena ++ n.bytes) (n :: headNode :: (below ++ above)) :=
    hparts.eq ▸ hs.packed.alloc rfl hmax (Nat.zero_lt_of_lt hs.packed.length_lt) hsmall
  have hup : LinkedUpTo (s.arena ++ n.bytes) n below above 0 := by
    refine ⟨hpacked, by simp, fun l _ hl => ?_⟩
    have hlinked := hs.linked l hl
    rw [hparts.eq, onLevel_append] at hlinked
    refine linked_congr hlinked fun m hm => ?_
    have hm' : m ∈ headNode :: base ∧ l < m.height := by
      rcases mem_cons.1 hm with rfl | hm
      · exact ⟨mem_cons_self .., hl⟩
      · rw [← onLevel_append, ← hparts.eq] at hm
        obtain ⟨hm, htall⟩ := mem_filter.1 hm
        exact ⟨mem_cons_of_mem _ hm, of_decide_eq_true htall⟩
    exact next_append (hs.packed.stored m hm'.1) hs.packed.small hm'.2 _
  have hraise : ∀ i, i < n.height →
      (raiseTo s.head s.height h prev)[i]? = some (stopAt i below).ptr := by
    intro i hi
    rw [raiseTo_getElem? _ _ _ hlen hmax hs.le]
    split_ifs with hhigh
    · rw [hs.head, stopAt_of_high hs hparts hhigh.1]
    · exact hprev i (by have : i < h := hi; omega)
  obtain ⟨arena', hlinks, hlen', hdone⟩ := hup.linkLevels (Nat.zero_add _) hmax hraise
  refine ⟨⟨arena', s.head, max s.height h⟩, ?_, ?_, ?_⟩
  · simp only [Skiplist.insert, hfind, halloc, Option.bind_eq_bind, Option.bind_some]
    exact congrArg (·.bind fun arena => some (Skiplist.mk arena s.head (max s.height h))) hlinks
  · rw [hlen', length_append, Node.bytes_length]
    rfl
  · have hbase : ∀ m ∈ below ++ n :: above, m = n ∨ m ∈ base := fun m hm => by
      rw [hparts.eq]
      simp only [mem_append, mem_cons] at hm ⊢
      tauto
    refine ⟨hs.head, ?_, fun l hl => ?_, ?_, fun m hm => ?_, fun m hm => ?_, ?_, ?_⟩
    · refine hdone.packed.perm ?_
      exact (perm_middle.cons headNode).trans (List.Perm.swap n headNode _)
    · rw [onLevel_append]
      by_cases htall : l < h
      · have hcons : onLevel l (n :: above) = n :: onLevel l above :=
          filter_cons_of_pos (decide_eq_true htall)
        rw [hcons]
        exact hdone.done l htall hl
      · have hcons : onLevel l (n :: above) = onLevel l above :=
          filter_cons_of_neg (by simpa using htall)
        rw [hcons]
        exact hdone.todo l (Nat.le_of_not_lt htall) hl
    · have hsorted := hs.sorted
      rw [hparts.eq, pairwise_append] at hsorted
      refine pairwise_append.2 ⟨hsorted.1,
        pairwise_cons.2 ⟨hparts.above, hsorted.2.1⟩, fun a ha b hb => ?_⟩
      rcases mem_cons.1 hb with rfl | hb
      · exact .of_not (hparts.below a ha)
      · exact hsorted.2.2 a ha b hb
    · rcases hbase m hm with rfl | hm
      · exact hkey
      · exact hs.whole m hm
    · rcases hbase m hm with rfl | hm
      · exact ⟨hpos, Nat.le_max_right ..⟩
      · exact ⟨(hs.heights m hm).1, Nat.le_trans (hs.heights m hm).2 (Nat.le_max_left ..)⟩
    · exact Nat.lt_of_lt_of_le hs.pos (Nat.le_max_left ..)
    · exact Nat.max_le.2 ⟨hs.le, hmax⟩

end Insert


theorem newSkiplist_shape :
    ∃ s, newSkiplist = some s ∧ s.arena = [0] ++ headNode.bytes ∧ Shape s [] := by
  have hsmall : ([0] : Bytes).length + nodeSize maxHeight [] [] < 2 ^ 32 := by decide
  have hstored : headNode.StoredIn ([0] ++ headNode.bytes) :=
    Node.storedIn_fresh rfl (Nat.le_refl _)
  refine ⟨⟨[0] ++ headNode.bytes, headNode.ptr, 1⟩, ?_, rfl, rfl, ?_, fun l hl => ?_, .nil, by simp,
    by simp, by decide, by decide⟩
  · rw [newSkiplist, allocNode_eq hsmall]
    rfl
  · exact ⟨by simpa using hstored, pairwise_singleton _ _, by decide,
      by rw [length_append, Node.bytes_length]; exact hsmall⟩
  · exact Node.next_fresh rfl hsmall hl

end Skiplist

end LevisDB
