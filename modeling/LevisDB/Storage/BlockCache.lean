import LevisDB.Core.Bytes
import LevisDB.Lib.DoublyLinked
import LevisDB.Lib.Loop
import LevisDB.Lib.Lru
import LevisDB.Lib.Transition
import Mathlib.Data.List.Perm.Subperm

/-!
# Block cache

Decoded blocks are cached under the number of their table and their offset. The cache is
striped into shards, each with its own share of the capacity; a shard is a map from keys to
the nodes of a circular list, most recently used first. Whatever is done to the cache, the
list and the map of a shard hold the same entries, its recorded size is the sum of their
lengths and within its capacity, and what it evicts was used longer ago than what it keeps.
-/

namespace LevisDB

open List Function

structure BlockCacheKey where
  table : Nat
  offset : Nat
  deriving DecidableEq

/-- A node of the list; its links are kept apart. -/
structure CacheEntry where
  key : BlockCacheKey
  value : Bytes

/-- One striped list, bounded by the total length of its values. Nodes are numbered in the
order of their allocation; the sentinel is the first. -/
structure CacheShard where
  capacity : Int
  size : Int
  links : DoublyLinked.Links Nat
  heap : Nat → CacheEntry
  items : BlockCacheKey → Option Nat
  fresh : Nat

namespace CacheShard

/-- The sentinel: behind it the most recently used entry, in front of it the least. -/
def root : Nat := 0

def newCacheShard (capacity : Int) : CacheShard :=
  ⟨capacity, 0, ⟨fun _ => root, fun _ => root⟩, fun _ => ⟨⟨0, 0⟩, []⟩, fun _ => none, root + 1⟩

def moveToFront (s : CacheShard) (p : Nat) : CacheShard :=
  { s with links := (s.links.unlink p).pushFront root p }

def get (s : CacheShard) (key : BlockCacheKey) : Option Bytes × CacheShard :=
  match s.items key with
  | some p => (some (s.heap p).value, s.moveToFront p)
  | none => (none, s)

def setValue (s : CacheShard) (p : Nat) (value : Bytes) : CacheShard :=
  { s with
    size := s.size + (value.length - (s.heap p).value.length)
    heap := Function.update s.heap p { s.heap p with value := value } }

def pushNew (s : CacheShard) (key : BlockCacheKey) (value : Bytes) : CacheShard :=
  { s with
    size := s.size + value.length
    links := s.links.pushFront root s.fresh
    heap := Function.update s.heap s.fresh ⟨key, value⟩
    items := Function.update s.items key (some s.fresh)
    fresh := s.fresh + 1 }

def evictOldest (s : CacheShard) : CacheShard :=
  let lru := s.links.prev root
  if lru = root then s
  else
    { s with
      links := s.links.unlink lru
      items := Function.update s.items (s.heap lru).key none
      size := s.size - (s.heap lru).value.length }

def place (s : CacheShard) (key : BlockCacheKey) (value : Bytes) : CacheShard :=
  match s.items key with
  | some p => (s.setValue p value).moveToFront p
  | none => s.pushNew key value

def evictStep (s : CacheShard) : CacheShard ⊕ CacheShard :=
  if s.capacity < s.size then .inr s.evictOldest else .inl s

/-- Places the entry and evicts down to the capacity; none if that would never end. -/
def add (s : CacheShard) (key : BlockCacheKey) (value : Bytes) : Option CacheShard :=
  Loop.run evictStep ((s.place key value).fresh + 1) (s.place key value)

def contents (s : CacheShard) (ps : List Nat) : List (BlockCacheKey × Bytes) :=
  ps.map fun p => ((s.heap p).key, (s.heap p).value)

/-- The list runs through these nodes, the map leads to exactly them, and the size is the sum
of their lengths. -/
structure Lists (s : CacheShard) (ps : List Nat) : Prop where
  ring : s.links.Ring root ps
  allocated : ∀ p ∈ root :: ps, p < s.fresh
  items : ∀ key p, s.items key = some p ↔ p ∈ ps ∧ (s.heap p).key = key
  size : s.size = Lru.weight List.length (s.contents ps)

variable {s : CacheShard} {ps pre post : List Nat} {p : Nat} {key : BlockCacheKey} {value : Bytes}

theorem lists_new (capacity : Int) : Lists (newCacheShard capacity) [] := by
  refine ⟨⟨by simp, rfl, rfl⟩, ?_, ?_, rfl⟩
  · simp [newCacheShard, root]
  · simp [newCacheShard]

section

variable (h : Lists s (pre ++ p :: post))
include h

theorem Lists.notMem : p ∉ pre ++ post := by
  have hnodup := (nodup_cons.1 h.ring.nodup).2
  exact (nodup_cons.1 (nodup_middle.1 hnodup)).1

theorem Lists.key_ne {x : Nat} (hx : x ∈ pre ++ post) :
    (s.heap x).key ≠ (s.heap p).key := by
  intro heq
  have hp := (h.items (s.heap p).key p).2 ⟨by simp, rfl⟩
  have hxs : x ∈ pre ++ p :: post := by
    rw [mem_append, mem_cons]
    rcases mem_append.1 hx with hx | hx
    · exact .inl hx
    · exact .inr (.inr hx)
  have hsame := (h.items (s.heap p).key x).2 ⟨hxs, heq⟩
  rw [hp, Option.some_inj] at hsame
  exact h.notMem (hsame ▸ hx)

theorem Lists.remove :
    Lru.remove (s.heap p).key (s.contents (pre ++ p :: post)) = s.contents (pre ++ post) := by
  have hother : Lru.remove (s.heap p).key (s.contents (pre ++ post)) = s.contents (pre ++ post) :=
    by
    refine Lru.remove_of_forall fun e he => ?_
    obtain ⟨x, hx, rfl⟩ := List.mem_map.1 he
    exact h.key_ne hx
  rw [← hother]
  simp [Lru.remove, contents]

end

theorem Lists.mem_items (h : Lists s ps) :
    (s.items key).isSome ↔ ∃ e ∈ s.contents ps, e.1 = key := by
  rw [Option.isSome_iff_exists]
  constructor
  · rintro ⟨p, hp⟩
    obtain ⟨hmem, hkey⟩ := (h.items key p).1 hp
    exact ⟨_, List.mem_map.2 ⟨p, hmem, rfl⟩, hkey⟩
  · rintro ⟨e, he, hkey⟩
    obtain ⟨p, hmem, rfl⟩ := List.mem_map.1 he
    exact ⟨p, (h.items key p).2 ⟨hmem, hkey⟩⟩

theorem Lists.items_none (h : Lists s ps) (hnone : s.items key = none) :
    ∀ e ∈ s.contents ps, e.1 ≠ key := by
  intro e he heq
  have hsome := h.mem_items.2 ⟨e, he, heq⟩
  rw [hnone] at hsome
  cases hsome

theorem Lists.moveToFront (h : Lists s (pre ++ p :: post)) :
    Lists (s.moveToFront p) (p :: (pre ++ post)) := by
  have hout : p ∉ root :: (pre ++ post) := by
    rw [mem_cons, not_or]
    exact ⟨fun heq => h.ring.root_notMem (heq ▸ by simp), h.notMem⟩
  refine ⟨h.ring.unlink.pushFront hout, ?_, ?_, ?_⟩
  · intro x hx
    exact h.allocated x (by simp only [mem_cons, mem_append] at hx ⊢; tauto)
  · intro key x
    change s.items key = some x ↔ x ∈ p :: (pre ++ post) ∧ _
    rw [h.items key x]
    simp only [mem_cons, mem_append]
    tauto
  · change s.size = _
    rw [h.size]
    simp only [contents, CacheShard.moveToFront, map_append, map_cons, Lru.weight_append,
      Lru.weight_cons]
    omega

theorem contents_update (hp : p ∉ ps) (e : CacheEntry) :
    (ps.map fun x => ((Function.update s.heap p e x).key, (Function.update s.heap p e x).value)) =
      s.contents ps := by
  refine map_congr_left fun x hx => ?_
  have hne : x ≠ p := fun heq => hp (heq ▸ hx)
  rw [update_of_ne hne]

theorem Lists.setValue (h : Lists s (pre ++ p :: post)) (value : Bytes) :
    Lists (s.setValue p value) (pre ++ p :: post) ∧
      (s.setValue p value).contents (pre ++ post) = s.contents (pre ++ post) := by
  have hkeys : ∀ x, ((s.setValue p value).heap x).key = (s.heap x).key := by
    intro x
    change (Function.update s.heap p _ x).key = _
    by_cases hx : x = p
    · subst hx
      rw [update_self]
    · rw [update_of_ne hx]
  have hsame : (s.setValue p value).contents (pre ++ post) = s.contents (pre ++ post) :=
    contents_update h.notMem _
  have hvalue : ((s.setValue p value).heap p).value = value := by
    change (Function.update s.heap p _ p).value = value
    rw [update_self]
  refine ⟨⟨h.ring, h.allocated, fun key x => ?_, ?_⟩, hsame⟩
  · rw [hkeys]
    exact h.items key x
  · have hsum : ∀ t : CacheShard, Lru.weight List.length (t.contents (pre ++ p :: post)) =
        (t.heap p).value.length + Lru.weight List.length (t.contents (pre ++ post)) := by
      intro t
      simp only [contents, map_append, map_cons, Lru.weight_append, Lru.weight_cons]
      omega
    have hsize := h.size
    rw [hsum] at hsize ⊢
    rw [hvalue, hsame]
    change s.size + (value.length - (s.heap p).value.length) = _
    omega

theorem Lists.pushNew (h : Lists s ps) (hnone : s.items key = none) (value : Bytes) :
    Lists (s.pushNew key value) (s.fresh :: ps) ∧
      (s.pushNew key value).contents (s.fresh :: ps) = (key, value) :: s.contents ps := by
  have hout : s.fresh ∉ root :: ps := fun hmem => Nat.lt_irrefl _ (h.allocated _ hmem)
  have hps : s.fresh ∉ ps := fun hmem => hout (mem_cons_of_mem _ hmem)
  have hcontents : (s.pushNew key value).contents (s.fresh :: ps) = (key, value) :: s.contents ps :=
    by
    change (_, _) :: (ps.map _) = _
    refine congrArg₂ _ ?_ (contents_update hps ⟨key, value⟩)
    change ((Function.update s.heap s.fresh _ s.fresh).key,
      (Function.update s.heap s.fresh _ s.fresh).value) = _
    rw [update_self]
  refine ⟨⟨h.ring.pushFront hout, ?_, ?_, ?_⟩, hcontents⟩
  · intro x hx
    change x < s.fresh + 1
    rw [mem_cons, mem_cons] at hx
    rcases hx with rfl | rfl | hx
    · exact Nat.lt_succ_of_lt (h.allocated root mem_cons_self)
    · exact Nat.lt_succ_self _
    · exact Nat.lt_succ_of_lt (h.allocated x (mem_cons_of_mem _ hx))
  · intro k x
    change Function.update s.items key (some s.fresh) k = some x ↔
      _ ∧ (Function.update s.heap s.fresh _ x).key = k
    by_cases hx : x = s.fresh
    · subst hx
      rw [update_self]
      by_cases hk : k = key
      · subst hk
        simp
      · have hold : s.items k ≠ some s.fresh := fun heq => hps ((h.items k _).1 heq).1
        simp [update_of_ne hk, hold, Ne.symm hk]
    · rw [update_of_ne hx, mem_cons, or_iff_right hx]
      by_cases hk : k = key
      · subst hk
        have hold := h.items k x
        rw [hnone] at hold
        rw [update_self, ← hold]
        simp [Ne.symm hx]
      · rw [update_of_ne hk]
        exact h.items k x
  · rw [hcontents, Lru.weight_cons]
    change s.size + value.length = (value.length + Lru.weight List.length (s.contents ps) : Nat)
    rw [h.size]
    omega

theorem Lists.place (h : Lists s ps) (key : BlockCacheKey) (value : Bytes) :
    ∃ ps', Lists (s.place key value) ps' ∧
      (s.place key value).contents ps' = Lru.touch key value (s.contents ps) := by
  unfold CacheShard.place
  cases hitem : s.items key with
  | none =>
    obtain ⟨hlists, hcontents⟩ := h.pushNew hitem value
    exact ⟨_, hlists, by rw [hcontents, Lru.touch, Lru.remove_of_forall (h.items_none hitem)]⟩
  | some p =>
    obtain ⟨hmem, rfl⟩ := (h.items key p).1 hitem
    obtain ⟨pre, post, rfl⟩ := append_of_mem hmem
    obtain ⟨hset, hsame⟩ := h.setValue value
    refine ⟨_, hset.moveToFront, ?_⟩
    have hhead : (s.setValue p value).heap p = ⟨(s.heap p).key, value⟩ := update_self ..
    change (_, _) :: (s.setValue p value).contents (pre ++ post) = _
    rw [hsame, Lru.touch, h.remove]
    refine congrArg₂ _ ?_ rfl
    change (((s.setValue p value).heap p).key, ((s.setValue p value).heap p).value) = _
    rw [hhead]

theorem Lists.get (h : Lists s ps) (key : BlockCacheKey) :
    (∃ v ps', (s.get key).1 = some v ∧ (key, v) ∈ s.contents ps ∧ Lists (s.get key).2 ps' ∧
        (s.get key).2.contents ps' = Lru.touch key v (s.contents ps)) ∨
      (s.get key = (none, s) ∧ s.items key = none) := by
  unfold CacheShard.get
  cases hitem : s.items key with
  | none => exact .inr ⟨rfl, rfl⟩
  | some p =>
    obtain ⟨hmem, rfl⟩ := (h.items key p).1 hitem
    obtain ⟨pre, post, rfl⟩ := append_of_mem hmem
    refine .inl ⟨_, _, rfl, List.mem_map.2 ⟨p, hmem, rfl⟩, h.moveToFront, ?_⟩
    rw [Lru.touch, h.remove]
    rfl

theorem Lists.evictOldest_nil (h : Lists s []) : s.evictOldest = s :=
  if_pos h.ring.prev_root_nil

theorem Lists.evictOldest (h : Lists s (ps ++ [p])) :
    Lists s.evictOldest ps ∧ s.evictOldest.contents ps = s.contents ps ∧
      s.evictOldest.capacity = s.capacity := by
  have hlru := h.ring.prev_root_concat
  have hne : p ≠ root := fun heq => h.ring.root_notMem (heq ▸ mem_concat_self)
  have hevict : s.evictOldest = { s with
      links := s.links.unlink p
      items := Function.update s.items (s.heap p).key none
      size := s.size - (s.heap p).value.length } := by
    unfold CacheShard.evictOldest
    dsimp only
    rw [hlru, if_neg hne]
  rw [hevict]
  have hring := h.ring.unlink
  rw [append_nil] at hring
  have hkeys : ∀ x ∈ ps, (s.heap x).key ≠ (s.heap p).key := by
    intro x hx
    exact h.key_ne (by rwa [append_nil])
  refine ⟨⟨hring, ?_, ?_, ?_⟩, rfl, rfl⟩
  · intro x hx
    exact h.allocated x (cons_subset_cons root (subset_append_left ps [p]) hx)
  · intro k x
    change Function.update s.items _ none k = some x ↔ x ∈ ps ∧ (s.heap x).key = k
    by_cases hk : k = (s.heap p).key
    · subst hk
      rw [update_self]
      refine ⟨(fun heq => by cases heq), fun hx => absurd hx.2 (hkeys x hx.1)⟩
    · rw [update_of_ne hk, h.items k x, mem_append, mem_singleton]
      refine ⟨?_, fun hx => ⟨.inl hx.1, hx.2⟩⟩
      rintro ⟨hx | rfl, hkey⟩
      · exact ⟨hx, hkey⟩
      · exact absurd hkey.symm hk
  · have hsize := h.size
    simp only [contents, map_append, map_cons, map_nil, Lru.weight_append,
      Lru.weight_cons, Lru.weight_nil] at hsize
    change s.size - (s.heap p).value.length = Lru.weight List.length (s.contents ps)
    unfold contents
    omega

theorem Lists.evictLoop (h : Lists s ps) (hcap : 0 ≤ s.capacity) {fuel : Nat}
    (hfuel : ps.length < fuel) :
    ∃ s' ps', Loop.run evictStep fuel s = some s' ∧ Lists s' ps' ∧
      s'.contents ps' = Lru.trim List.length s.capacity.toNat (s.contents ps) ∧
      s'.capacity = s.capacity := by
  induction fuel generalizing s ps with
  | zero => exact absurd hfuel (Nat.not_lt_zero _)
  | succ fuel ih =>
    have hsize := h.size
    rw [Loop.run]
    by_cases hover : s.capacity < s.size
    · rw [evictStep, if_pos hover]
      rcases eq_nil_or_concat ps with rfl | ⟨qs, p, rfl⟩
      · change s.size = 0 at hsize
        omega
      rw [concat_eq_append] at h hfuel hsize ⊢
      obtain ⟨hlists, hcontents, hcapacity⟩ := h.evictOldest
      rw [length_append, length_singleton] at hfuel
      obtain ⟨s', ps', hrun, hlists', htrim, hcapacity'⟩ :=
        ih hlists (hcapacity ▸ hcap) (by omega)
      refine ⟨s', ps', hrun, hlists', ?_, hcapacity'.trans hcapacity⟩
      have hconcat : s.contents (qs ++ [p]) = s.contents qs ++
        [((s.heap p).key, (s.heap p).value)] :=
        map_append
      rw [hconcat] at hsize ⊢
      rw [htrim, hcapacity, hcontents, Lru.trim_concat (by omega)]
    · rw [evictStep, if_neg hover]
      exact ⟨s, ps, rfl, h, (Lru.trim_of_le (by omega)).symm, rfl⟩

theorem Lists.length_lt_fresh (h : Lists s ps) : ps.length < s.fresh := by
  have hsub : root :: ps ⊆ List.range s.fresh := fun p hp => mem_range.2 (h.allocated p hp)
  have hle := (subperm_of_subset h.ring.nodup hsub).length_le
  rw [length_range, length_cons] at hle
  omega

theorem place_capacity (s : CacheShard) (key : BlockCacheKey) (value : Bytes) :
    (s.place key value).capacity = s.capacity := by
  unfold place
  split <;> rfl

theorem Lists.add (h : Lists s ps) (hcap : 0 ≤ s.capacity) (key : BlockCacheKey) (value : Bytes) :
    ∃ s' ps', s.add key value = some s' ∧ Lists s' ps' ∧
      s'.contents ps' =
        Lru.trim List.length s.capacity.toNat (Lru.touch key value (s.contents ps)) ∧
      s'.capacity = s.capacity := by
  obtain ⟨qs, hplace, hcontents⟩ := h.place key value
  have hsame := place_capacity s key value
  have hfuel := hplace.length_lt_fresh
  obtain ⟨s', ps', hrun, hlists, htrim, hcapacity⟩ :=
    hplace.evictLoop (hsame ▸ hcap) (Nat.lt_succ_of_lt hfuel)
  exact ⟨s', ps', hrun, hlists, by rw [htrim, hcontents, hsame], hcapacity.trans hsame⟩

/-- A shard in order: its list and map agree, it is within its capacity, its entries are
ordered by their last uses and satisfy `P`. -/
structure Sound (s : CacheShard) (uses : List BlockCacheKey) (P : BlockCacheKey → Bytes → Prop)
    (ps : List Nat) : Prop extends Lists s ps where
  bound : s.size ≤ max s.capacity 0
  recent : Lru.Recent uses (s.contents ps)
  entries : ∀ e ∈ s.contents ps, P e.1 e.2

/-- Every entry that goes was used longer ago than every entry that stays. -/
def Evicts (s : CacheShard) (uses : List BlockCacheKey) (s' : CacheShard) : Prop :=
  ∀ k k', (s.items k).isSome → s'.items k = none → (s'.items k').isSome →
    uses.idxOf k' < uses.idxOf k

variable {s' : CacheShard} {ps' : List Nat} {uses : List BlockCacheKey}
  {P : BlockCacheKey → Bytes → Prop}

theorem evicts_refl (s : CacheShard) : s.Evicts uses s := by
  intro k k' hk hnone
  rw [hnone] at hk
  cases hk

theorem evicts_of_prefix (h : Lists s ps) (h' : Lists s' ps') {l : List (BlockCacheKey × Bytes)}
    (hrecent : Lru.Recent uses l) (hfront : s'.contents ps' <+: l)
    (hkeys : ∀ e ∈ s.contents ps, ∃ a ∈ l, a.1 = e.1) : s.Evicts uses s' := by
  intro k k' hk hnone hk'
  obtain ⟨e, he, rfl⟩ := h.mem_items.1 hk
  obtain ⟨b, hb, rfl⟩ := h'.mem_items.1 hk'
  obtain ⟨a, ha, heq⟩ := hkeys e he
  rw [← heq] at hnone ⊢
  exact hrecent.dropped hfront ha (fun hmem => h'.items_none hnone a hmem rfl) hb

theorem exists_mem_touch (l : List (BlockCacheKey × Bytes)) (key : BlockCacheKey) (value : Bytes) :
    ∀ e ∈ l, ∃ a ∈ Lru.touch key value l, a.1 = e.1 := by
  intro e he
  by_cases hkey : e.1 = key
  · exact ⟨(key, value), mem_cons_self, hkey.symm⟩
  · exact ⟨e, mem_cons_of_mem _ (Lru.mem_remove.2 ⟨he, hkey⟩), rfl⟩

theorem entries_touch {l : List (BlockCacheKey × Bytes)} (h : ∀ e ∈ l, P e.1 e.2)
    (hnew : P key value) : ∀ e ∈ Lru.touch key value l, P e.1 e.2 := by
  intro e he
  rcases mem_cons.1 he with rfl | he
  · exact hnew
  · exact h e (Lru.mem_remove.1 he).1

theorem sound_new (capacity : Int) (uses : List BlockCacheKey) (P : BlockCacheKey → Bytes → Prop) :
    Sound (newCacheShard capacity) uses P [] :=
  ⟨lists_new capacity, Int.le_max_right _ _, List.Pairwise.nil, fun e he => (by cases he)⟩

section

variable (h : Sound s uses P ps)
include h

theorem Sound.use (hkey : ∀ value, ¬ P key value) :
    Sound s (key :: uses) P ps :=
  ⟨h.toLists, h.bound, h.recent.use fun e he heq => hkey e.2 (heq ▸ h.entries e he), h.entries⟩

theorem Sound.get (key : BlockCacheKey) :
    (∃ v ps', (s.get key).1 = some v ∧ P key v ∧ Sound (s.get key).2 (key :: uses) P ps' ∧
        s.Evicts (key :: uses) (s.get key).2 ∧ (s.get key).2.capacity = s.capacity) ∨
      s.get key = (none, s) := by
  rcases h.toLists.get key with ⟨v, ps', hv, hmem, hlists, hcontents⟩ | ⟨hmiss, _⟩
  · have hnew : P key v := h.entries (key, v) hmem
    have hkept : (s.get key).2.size = s.size ∧ (s.get key).2.capacity = s.capacity := by
      unfold CacheShard.get
      split <;> exact ⟨rfl, rfl⟩
    have hrecent := h.recent.touch key v
    refine .inl ⟨v, ps', hv, hnew, ⟨hlists, ?_, ?_, ?_⟩, ?_, hkept.2⟩
    · rw [hkept.1, hkept.2]
      exact h.bound
    · rw [hcontents]
      exact hrecent
    · rw [hcontents]
      exact entries_touch h.entries hnew
    · exact evicts_of_prefix h.toLists hlists hrecent (hcontents ▸ prefix_refl _)
        (exists_mem_touch _ key v)
  · exact .inr hmiss

theorem Sound.add (hnew : P key value) (hfits : value.length ≤ s.capacity) :
    ∃ s' ps', s.add key value = some s' ∧ Sound s' (key :: uses) P ps' ∧
      s.Evicts (key :: uses) s' ∧ s'.capacity = s.capacity := by
  obtain ⟨s', ps', hadd, hlists, hcontents, hcapacity⟩ :=
    h.toLists.add (by omega) key value
  have hfront : s'.contents ps' <+: Lru.touch key value (s.contents ps) :=
    hcontents ▸ Lru.trim_prefix _ _ _
  have hrecent := h.recent.touch key value
  refine ⟨s', ps', hadd, ⟨hlists, ?_, hrecent.sublist hfront.sublist, ?_⟩, ?_, hcapacity⟩
  · have hweight := Lru.weight_trim_le List.length s.capacity.toNat
      (Lru.touch key value (s.contents ps))
    rw [← hcontents] at hweight
    rw [hlists.size, hcapacity]
    omega
  · exact fun e he => entries_touch h.entries hnew e (hfront.subset he)
  · exact evicts_of_prefix h.toLists hlists hrecent hfront (exists_mem_touch _ key value)

theorem Sound.evictOldest :
    ∃ ps', Sound s.evictOldest uses P ps' ∧ s.Evicts uses s.evictOldest ∧
      s.evictOldest.capacity = s.capacity := by
  rcases eq_nil_or_concat ps with rfl | ⟨qs, p, rfl⟩
  · rw [h.toLists.evictOldest_nil]
    exact ⟨[], h, evicts_refl s, rfl⟩
  · rw [concat_eq_append] at h
    obtain ⟨hlists, hcontents, hcapacity⟩ := h.toLists.evictOldest
    have hfront : s.contents qs <+: s.contents (qs ++ [p]) := by
      rw [contents, contents, map_append]
      exact prefix_append _ _
    refine ⟨qs, ⟨hlists, ?_, ?_, ?_⟩, ?_, hcapacity⟩
    · have hbound := h.bound
      rw [h.size, contents, map_append, Lru.weight_append] at hbound
      rw [hlists.size, hcontents, hcapacity, contents]
      omega
    · rw [hcontents]
      exact h.recent.sublist hfront.sublist
    · rw [hcontents]
      exact fun e he => h.entries e (hfront.subset he)
    · exact evicts_of_prefix h.toLists hlists h.recent (hcontents ▸ hfront) fun e he => ⟨e, he, rfl⟩

end

end CacheShard

def cacheStripes : Nat := 16

/-- The stripes and the seeded hash that spreads the keys over them. -/
structure BlockCache where
  capacity : Int
  shards : List CacheShard
  sum : BlockCacheKey → UInt64
  hits : Nat
  misses : Nat

namespace BlockCache

def shardCapacity (capacity : Int) (i : Nat) : Int :=
  let per := capacity.tdiv cacheStripes
  let remainder := capacity.tmod cacheStripes
  if i < remainder then per + 1 else per

/-- A cache of no capacity has no shards. -/
def newBlockCache (capacity : Int) (sum : BlockCacheKey → UInt64) : BlockCache :=
  { capacity := capacity
    shards :=
      if capacity = 0 then []
      else (List.range cacheStripes).map fun i =>
        CacheShard.newCacheShard (shardCapacity capacity i)
    sum := sum
    hits := 0
    misses := 0 }

def shardFor (c : BlockCache) (key : BlockCacheKey) : Nat :=
  (c.sum key &&& UInt64.ofNat (cacheStripes - 1)).toNat

def setShard (c : BlockCache) (i : Nat) (s : CacheShard) : BlockCache :=
  { c with shards := c.shards.set i s }

def get (c : BlockCache) (key : BlockCacheKey) : Option (Option Bytes × BlockCache) :=
  if c.capacity = 0 then some (none, c)
  else
    match c.shards[c.shardFor key]? with
    | none => none
    | some s =>
      let c' := c.setShard (c.shardFor key) (s.get key).2
      match (s.get key).1 with
      | some v => some (some v, { c' with hits := c.hits + 1 })
      | none => some (none, { c' with misses := c.misses + 1 })

/-- Whether a block of this length is cached at all. -/
def admits (c : BlockCache) (key : BlockCacheKey) (value : Bytes) : Bool :=
  c.capacity ≠ 0 && (c.shards[c.shardFor key]?).any fun s =>
    decide ((value.length : Int) ≤ s.capacity)

def add (c : BlockCache) (key : BlockCacheKey) (value : Bytes) : Option BlockCache :=
  if c.capacity = 0 then some c
  else
    match c.shards[c.shardFor key]? with
    | none => none
    | some s =>
      if s.capacity < value.length then some c
      else (s.add key value).map fun s' => c.setShard (c.shardFor key) s'

theorem shardFor_lt (c : BlockCache) (key : BlockCacheKey) : c.shardFor key < cacheStripes := by
  have hle : c.shardFor key ≤ 15 := by
    rw [shardFor, UInt64.toNat_and]
    exact Nat.and_le_right
  exact Nat.lt_succ_of_le hle

/-- A cache in order: each shard is, holds only keys of its stripe, and has its share of the
capacity. -/
structure Sound (c : BlockCache) (uses : List BlockCacheKey) (P : BlockCacheKey → Bytes → Prop) :
    Prop where
  striped : c.capacity ≠ 0 → c.shards.length = cacheStripes
  share : ∀ (i : Nat) (s : CacheShard), c.shards[i]? = some s → s.capacity =
    shardCapacity c.capacity i
  shards : ∀ (i : Nat) (s : CacheShard), c.shards[i]? = some s →
    ∃ ps, s.Sound uses (fun key value => c.shardFor key = i ∧ P key value) ps

/-- In every shard, what goes was used longer ago than what stays. -/
def Evicts (c : BlockCache) (uses : List BlockCacheKey) (c' : BlockCache) : Prop :=
  ∀ (i : Nat) (s s' : CacheShard), c.shards[i]? = some s → c'.shards[i]? = some s' →
    s.Evicts uses s'

variable {c : BlockCache} {uses : List BlockCacheKey} {P : BlockCacheKey → Bytes → Prop}

theorem sound_new (capacity : Int) (sum : BlockCacheKey → UInt64)
    (P : BlockCacheKey → Bytes → Prop) : Sound (newBlockCache capacity sum) [] P := by
  have hshard : ∀ i s, (newBlockCache capacity sum).shards[i]? = some s →
      s = CacheShard.newCacheShard (shardCapacity capacity i) := by
    intro i s hs
    unfold newBlockCache at hs
    split at hs
    · cases hs
    · rw [List.getElem?_map, Option.map_eq_some_iff] at hs
      obtain ⟨j, hj, rfl⟩ := hs
      obtain ⟨hlt, rfl⟩ := List.getElem?_eq_some_iff.1 hj
      rw [getElem_range]
  refine ⟨?_, ?_, ?_⟩
  · intro hne
    change (if capacity = 0 then [] else _).length = _
    rw [if_neg (show capacity ≠ 0 from hne), length_map, length_range]
  · intro i s hs
    rw [hshard i s hs]
    rfl
  · intro i s hs
    rw [hshard i s hs]
    exact ⟨[], CacheShard.sound_new _ _ _⟩

theorem evicts_refl (c : BlockCache) : c.Evicts uses c := by
  intro i s s' hs hs'
  obtain rfl := Option.some.inj (hs.symm.trans hs')
  exact CacheShard.evicts_refl s

theorem Sound.exists_shard (h : Sound c uses P) (hc : c.capacity ≠ 0) (key : BlockCacheKey) :
    ∃ s, c.shards[c.shardFor key]? = some s :=
  ⟨_, List.getElem?_eq_getElem ((h.striped hc).symm ▸ c.shardFor_lt key)⟩

theorem Sound.setShard (h : Sound c uses P) {i : Nat} {s s' : CacheShard}
    {uses' : List BlockCacheKey}
    {ps' : List Nat} (hs : c.shards[i]? = some s)
    (huses : uses' = uses ∨ ∃ key, c.shardFor key = i ∧ uses' = key :: uses)
    (hsound : s'.Sound uses' (fun key value => c.shardFor key = i ∧ P key value) ps')
    (hevicts : s.Evicts uses' s') (hcapacity : s'.capacity = s.capacity) :
    Sound (c.setShard i s') uses' P ∧ c.Evicts uses' (c.setShard i s') := by
  have hget : ∀ j t, (c.setShard i s').shards[j]? = some t →
      (j = i ∧ t = s') ∨ (j ≠ i ∧ c.shards[j]? = some t) := by
    intro j t ht
    change (c.shards.set i s')[j]? = some t at ht
    rw [List.getElem?_set] at ht
    split_ifs at ht with hji
    · exact .inl ⟨hji.symm, (Option.some.inj ht).symm⟩
    · exact .inr ⟨Ne.symm hji, ht⟩
  refine ⟨⟨?_, ?_, ?_⟩, ?_⟩
  · intro hc
    change (c.shards.set i s').length = _
    rw [length_set]
    exact h.striped hc
  · intro j t ht
    rcases hget j t ht with ⟨rfl, rfl⟩ | ⟨_, ht⟩
    · exact hcapacity.trans (h.share j s hs)
    · exact h.share j t ht
  · intro j t ht
    rcases hget j t ht with ⟨rfl, rfl⟩ | ⟨hne, ht⟩
    · exact ⟨ps', hsound⟩
    · obtain ⟨ps, hold⟩ := h.shards j t ht
      rcases huses with rfl | ⟨key, hkey, rfl⟩
      · exact ⟨ps, hold⟩
      · exact ⟨ps, hold.use fun value hhome => hne (hhome.1.symm.trans hkey)⟩
  · intro j t t' ht ht'
    rcases hget j t' ht' with ⟨rfl, rfl⟩ | ⟨_, ht'⟩
    · obtain rfl := Option.some.inj (hs.symm.trans ht)
      exact hevicts
    · obtain rfl := Option.some.inj (ht.symm.trans ht')
      exact CacheShard.evicts_refl t

theorem Sound.get (h : Sound c uses P) (key : BlockCacheKey) :
    ∃ r c', c.get key = some (r, c') ∧ (∀ v, r = some v → P key v) ∧
      Sound c' (if r.isSome then key :: uses else uses) P ∧
      c.Evicts (if r.isSome then key :: uses else uses) c' := by
  unfold BlockCache.get
  by_cases hc : c.capacity = 0
  · exact ⟨none, c, if_pos hc, (fun v hv => by cases hv), h, evicts_refl c⟩
  obtain ⟨s, hs⟩ := h.exists_shard hc key
  obtain ⟨ps, hsound⟩ := h.shards _ s hs
  rw [if_neg hc, hs]
  dsimp only
  rcases hsound.get key with ⟨v, ps', hv, hP, hsound', hevicts, hcapacity⟩ | hmiss
  · obtain ⟨hset, hgone⟩ := h.setShard hs (.inr ⟨key, rfl, rfl⟩) hsound' hevicts hcapacity
    rw [hv]
    refine ⟨some v, _, rfl, ?_, ⟨hset.striped, hset.share, hset.shards⟩, hgone⟩
    intro v' hv'
    exact Option.some.inj hv' ▸ hP.2
  · obtain ⟨hset, hgone⟩ := h.setShard hs (.inl rfl) hsound (CacheShard.evicts_refl s) rfl
    rw [hmiss]
    exact ⟨none, _, rfl, (fun v hv => by cases hv), ⟨hset.striped, hset.share, hset.shards⟩, hgone⟩

theorem Sound.add (h : Sound c uses P) {key : BlockCacheKey} {value : Bytes} (hP : P key value) :
    ∃ c', c.add key value = some c' ∧
      Sound c' (if c.admits key value then key :: uses else uses) P ∧
      c.Evicts (if c.admits key value then key :: uses else uses) c' := by
  by_cases hc : c.capacity = 0
  · have hadmits : c.admits key value = false := by simp [admits, hc]
    rw [hadmits]
    exact ⟨c, if_pos hc, h, evicts_refl c⟩
  obtain ⟨s, hs⟩ := h.exists_shard hc key
  obtain ⟨ps, hsound⟩ := h.shards _ s hs
  have hadmits : c.admits key value = decide ((value.length : Int) ≤ s.capacity) := by
    simp [admits, hc, hs]
  unfold BlockCache.add
  rw [if_neg hc, hs, hadmits]
  dsimp only
  by_cases hfits : s.capacity < value.length
  · rw [if_pos hfits, decide_eq_false (by omega)]
    exact ⟨c, rfl, h, evicts_refl c⟩
  · obtain ⟨s', ps', hadd, hsound', hevicts, hcapacity⟩ :=
      hsound.add ⟨rfl, hP⟩ (show (value.length : Int) ≤ s.capacity by omega)
    obtain ⟨hset, hgone⟩ := h.setShard hs (.inr ⟨key, rfl, rfl⟩) hsound' hevicts hcapacity
    rw [if_neg hfits, hadd, decide_eq_true (by omega)]
    exact ⟨_, rfl, hset, hgone⟩

theorem get_capacity {key : BlockCacheKey} {r : Option Bytes × BlockCache}
    (h : c.get key = some r) :
    r.2.capacity = c.capacity := by
  unfold BlockCache.get at h
  split at h
  · cases h
    rfl
  split at h
  · cases h
  dsimp only at h
  split at h <;> (cases h; rfl)

theorem add_capacity {key : BlockCacheKey} {value : Bytes} {c' : BlockCache}
    (h : c.add key value = some c') : c'.capacity = c.capacity := by
  unfold BlockCache.add at h
  split at h
  · cases h
    rfl
  split at h
  · cases h
  split at h
  · cases h
    rfl
  · obtain ⟨s', _, rfl⟩ := Option.map_eq_some_iff.1 h
    rfl

theorem Sound.evict (h : Sound c uses P) (i : Nat) :
    Sound { c with shards := c.shards.modify i CacheShard.evictOldest } uses P ∧
      c.Evicts uses { c with shards := c.shards.modify i CacheShard.evictOldest } := by
  cases hs : c.shards[i]? with
  | none =>
    have hsame : c.shards.modify i CacheShard.evictOldest = c.shards :=
      modify_eq_self (List.getElem?_eq_none_iff.1 hs)
    rw [hsame]
    exact ⟨h, evicts_refl c⟩
  | some s =>
    obtain ⟨ps, hsound⟩ := h.shards i s hs
    obtain ⟨ps', hsound', hevicts, hcapacity⟩ := hsound.evictOldest
    have hmodify : c.shards.modify i CacheShard.evictOldest = c.shards.set i s.evictOldest := by
      rw [modify_eq_set_getElem?, hs]
      rfl
    rw [hmodify]
    exact h.setShard hs (.inl rfl) hsound' hevicts hcapacity

end BlockCache

inductive CacheOp
  | get (key : BlockCacheKey)
  | add (key : BlockCacheKey) (value : Bytes)
  | evict (shard : Nat)

/-- A cache and the keys that were used, latest first: found by a lookup, or added. -/
structure UsedCache where
  cache : BlockCache
  uses : List BlockCacheKey

namespace UsedCache

def step (u : UsedCache) : CacheOp → Option UsedCache
  | .get key =>
    (u.cache.get key).map fun r => ⟨r.2, if r.1.isSome then key :: u.uses else u.uses⟩
  | .add key value =>
    (u.cache.add key value).map fun c =>
      ⟨c, if u.cache.admits key value then key :: u.uses else u.uses⟩
  | .evict shard =>
    some ⟨{ u.cache with shards := u.cache.shards.modify shard CacheShard.evictOldest }, u.uses⟩

theorem step_sound {u : UsedCache} (h : u.cache.Sound u.uses fun _ _ => True) (op : CacheOp) :
    ∃ u', u.step op = some u' ∧ (u'.cache.Sound u'.uses fun _ _ => True) ∧
      u.cache.Evicts u'.uses u'.cache ∧ u'.cache.capacity = u.cache.capacity := by
  cases op with
  | get key =>
    obtain ⟨r, c', hget, _, hsound, hevicts⟩ := h.get key
    exact ⟨_, by rw [step, hget]; rfl, hsound, hevicts, BlockCache.get_capacity hget⟩
  | add key value =>
    obtain ⟨c', hadd, hsound, hevicts⟩ := h.add (show True from trivial)
    exact ⟨_, by rw [step, hadd]; rfl, hsound, hevicts, BlockCache.add_capacity hadd⟩
  | evict shard => exact ⟨_, rfl, (h.evict shard).1, (h.evict shard).2, rfl⟩

theorem run_sound {u : UsedCache} (h : u.cache.Sound u.uses fun _ _ => True) (ops : List CacheOp) :
    ∃ u', Transition.exec step u ops = some u' ∧ (u'.cache.Sound u'.uses fun _ _ => True) ∧
      u'.cache.capacity = u.cache.capacity := by
  induction ops generalizing u with
  | nil => exact ⟨u, rfl, h, rfl⟩
  | cons op ops ih =>
    obtain ⟨u₁, hstep, hsound, _, hcapacity⟩ := step_sound h op
    obtain ⟨u', hrun, hsound', hcapacity'⟩ := ih hsound
    exact ⟨u', by rw [Transition.exec, hstep]; exact hrun, hsound', hcapacity'.trans hcapacity⟩

end UsedCache

end LevisDB
