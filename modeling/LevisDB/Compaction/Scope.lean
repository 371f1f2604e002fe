import LevisDB.Core.Options
import LevisDB.Engine.State
import Mathlib.Data.List.Pairwise

/-!
# Selecting compaction inputs

A compaction of a tier merges all of it, one group of overlapping tables, or a
byte-capped prefix. Every table left behind goes into the list of bounds the
merge consults before it reclaims anything, so selecting fewer inputs only ever
keeps more tombstones.
-/

namespace LevisDB

open List

variable {cur tables : List TableMeta} {runMax : Option Key} {t u : TableMeta}

/-- Decides whether a live value survives; a panic in the callback is an error. -/
abbrev CompactionFilter := Key → Bytes → Time → Except Err Bool

structure CompactionConfig where
  bloomBits : Int
  fileSizeBase : Int
  fileSizeMultiplier : Int
  fileSizeMax : Int
  maxLevels : Nat
  expireBefore : Time
  filter : Option CompactionFilter
  filterThrough : Nat
  maxCompactionBytes : Int
  overlapSelection : Bool
  rewriteSingle : Bool
  collapseInPlace : Bool

def resolveOutDepth (depth : Nat) (cc : CompactionConfig) : Nat :=
  if cc.collapseInPlace then depth
  else
    let capDepth := resolveMaxDepth cc.maxLevels
    if depth + 1 ≤ capDepth then depth + 1 else capDepth

def worthCompacting (n : Nat) (bottomRewrite hasReason : Bool) : Bool :=
  if n = 0 then false else if 2 ≤ n then true else bottomRewrite && hasReason

def hasRewriteReason (cc : CompactionConfig) (inputs : List TableMeta) : Bool :=
  cc.filter.isSome || inputs.any fun t => decide (0 < t.tombstones)

def targetLoop (maxSize mul : Int) : Nat → Int → Int
  | 0, target => if maxSize < target then maxSize else target
  | depth + 1, target =>
    if maxSize ≤ target ∨ maxSize / mul < target then maxSize
    else targetLoop maxSize mul depth (target * mul)

/-- The file-size target of a tier: `base * mul ^ depth`, capped. -/
def CompactionConfig.targetFileSize (cc : CompactionConfig) (depth : Nat) : Int :=
  let base := if cc.fileSizeBase ≤ 0 then defaultFileSizeBase else cc.fileSizeBase
  let maxSize :=
    if cc.fileSizeMax < base then
      if defaultFileSizeMax < base then base else defaultFileSizeMax
    else cc.fileSizeMax
  let mul := if cc.fileSizeMultiplier < 1 then defaultFileSizeMultiplier else cc.fileSizeMultiplier
  targetLoop maxSize mul depth base

/-- Bounds of a table left outside a merge. -/
abbrev KeyRange := Option Key × Option Key

def TableMeta.range (t : TableMeta) : KeyRange := (t.minKey, t.maxKey)

def rangesMayContain (ranges : List KeyRange) (key : Key) : Bool :=
  ranges.any fun r => boundsContain r.1 r.2 key

/-- The table touches the running range of a group; no upper bound means the
range is open-ended. -/
def touches (runMax : Option Key) (t : TableMeta) : Bool :=
  match runMax, t.minKey with
  | some m, some k => decide (k ≤ m)
  | _, _ => true

def extendMax (runMax maxKey : Option Key) : Option Key :=
  match runMax, maxKey with
  | some m, some k => if m < k then some k else some m
  | _, _ => none

def sweep (cur : List TableMeta) (runMax : Option Key) : List TableMeta → List (List TableMeta)
  | [] => [cur]
  | t :: ts =>
    if touches runMax t then sweep (cur ++ [t]) (extendMax runMax t.maxKey) ts
    else cur :: sweep [t] t.maxKey ts

/-- Maximal groups of tables whose key ranges connect. -/
def overlapSets (tables : List TableMeta) : List (List TableMeta) :=
  match tables.insertionSort MinKeyOrder with
  | [] => []
  | t :: ts => sweep [t] t.maxKey ts

def largestGroup (groups : List (List TableMeta)) : List TableMeta :=
  groups.foldl (fun best g => if best.length < g.length then g else best) []

/-- How many inputs fit the byte cap, but at least two. The total is exact, where the
code's is a 64-bit sum. -/
def capLength (maxBytes : Int) (i : Nat) (total : Int) : List TableMeta → Nat
  | [] => i
  | t :: ts =>
    if maxBytes < total + t.size ∧ 2 ≤ i + 1 then i + 1
    else capLength maxBytes (i + 1) (total + t.size) ts

def capCompactionInputs (inputs : List TableMeta) (maxBytes : Int) : List TableMeta :=
  inputs.take (capLength maxBytes 0 0 inputs)

/-- Keeps the largest overlap group, when it is a proper part of the inputs. -/
def selectOverlap (inputs : List TableMeta) (deeper : List KeyRange) (cc : CompactionConfig) :
    List TableMeta × List KeyRange :=
  let best := largestGroup (overlapSets inputs)
  if cc.overlapSelection ∧ 2 ≤ best.length ∧ best.length < inputs.length then
    (best, deeper ++ (inputs.filter fun t => !best.any fun b => decide (b.num = t.num)).map
      (·.range))
  else (inputs, deeper)

def selectCapped (inputs : List TableMeta) (deeper : List KeyRange) (cc : CompactionConfig) :
    List TableMeta × List KeyRange :=
  if 0 < cc.maxCompactionBytes then
    let capped := capCompactionInputs inputs cc.maxCompactionBytes
    (capped, deeper ++ (inputs.drop capped.length).map (·.range))
  else (inputs, deeper)

def scopeCompactionInputs (inputs : List TableMeta) (deeper : List KeyRange)
    (cc : CompactionConfig) : List TableMeta × List KeyRange :=
  let chosen := selectOverlap inputs deeper cc
  selectCapped chosen.1 chosen.2 cc

theorem sweep_flatten (cur : List TableMeta) (runMax : Option Key) (ts : List TableMeta) :
    (sweep cur runMax ts).flatten = cur ++ ts := by
  induction ts generalizing cur runMax with
  | nil => simp [sweep]
  | cons t ts ih =>
    unfold sweep
    split_ifs with h
    · rw [ih, append_assoc, singleton_append]
    · rw [flatten_cons, ih, singleton_append]

theorem overlapSets_flatten_perm (tables : List TableMeta) :
    (overlapSets tables).flatten.Perm tables := by
  have hperm := perm_insertionSort MinKeyOrder tables
  unfold overlapSets
  cases hsort : tables.insertionSort MinKeyOrder with
  | nil =>
    rw [hsort] at hperm
    exact hperm
  | cons t ts =>
    rw [hsort] at hperm
    dsimp only
    rw [sweep_flatten, singleton_append]
    exact hperm

/-- Every table of the group ends at or below the running maximum. -/
def EndsBelow (runMax : Option Key) (cur : List TableMeta) : Prop :=
  ∀ m, runMax = some m → ∀ t ∈ cur, ∃ k, t.maxKey = some k ∧ k ≤ m

theorem EndsBelow.extend (h : EndsBelow runMax cur)
    (t : TableMeta) : EndsBelow (extendMax runMax t.maxKey) (cur ++ [t]) := by
  intro m hm u hu
  cases hrun : runMax with
  | none => simp [extendMax, hrun] at hm
  | some m₀ =>
    cases hmax : t.maxKey with
    | none => simp [extendMax, hrun, hmax] at hm
    | some k =>
      have hle : m₀ ≤ m ∧ k ≤ m := by
        simp only [extendMax, hrun, hmax] at hm
        split_ifs at hm with hlt
        · cases hm
          exact ⟨le_of_lt hlt, le_refl _⟩
        · cases hm
          exact ⟨le_refl _, not_lt.1 hlt⟩
      rcases mem_append.1 hu with hu | hu
      · obtain ⟨k', hk', hle'⟩ := h m₀ hrun u hu
        exact ⟨k', hk', le_trans hle' hle.1⟩
      · obtain rfl := mem_singleton.1 hu
        exact ⟨k, hmax, hle.2⟩

/-- No key is within the bounds of a table of both groups. -/
def SharesNoKey (g h : List TableMeta) : Prop :=
  ∀ t ∈ g, ∀ u ∈ h, ∀ k, t.mayContain k = true → u.mayContain k = false

instance : Std.Symm SharesNoKey where
  symm g h hgh u hu t ht k huk := by
    by_contra htk
    rw [Bool.not_eq_false] at htk
    rw [hgh t ht u hu k htk] at huk
    cases huk

theorem sweep_disjoint {ts : List TableMeta}
    (hsorted : ts.Pairwise MinKeyOrder) (hcur : EndsBelow runMax cur) :
    (sweep cur runMax ts).Pairwise SharesNoKey := by
  induction ts generalizing cur runMax with
  | nil => simp [sweep]
  | cons t ts ih =>
    rw [pairwise_cons] at hsorted
    unfold sweep
    split_ifs with htouch
    · exact ih hsorted.2 (hcur.extend t)
    · have hnew : EndsBelow t.maxKey [t] := by
        intro m hm u hu
        obtain rfl := mem_singleton.1 hu
        exact ⟨m, hm, le_refl _⟩
      refine pairwise_cons.2 ⟨?_, ih hsorted.2 hnew⟩
      intro h hh x hx u hu k hxk
      -- The gap lies between the running maximum and the next lower bound.
      obtain ⟨m, hm⟩ : ∃ m, runMax = some m := by
        cases runMax with
        | none => simp [touches] at htouch
        | some m => exact ⟨m, rfl⟩
      obtain ⟨lo, hlo⟩ : ∃ lo, t.minKey = some lo := by
        cases hmin : t.minKey with
        | none => simp [touches, hm, hmin] at htouch
        | some lo => exact ⟨lo, rfl⟩
      have hgap : m < lo := by simpa [touches, hm, hlo] using htouch
      obtain ⟨top, htop, hle⟩ := hcur m hm x hx
      have hkm : k ≤ m := le_trans ((boundsContain_iff.1 hxk).2 top htop) hle
      have hmem : u ∈ t :: ts := by
        have : u ∈ (sweep [t] t.maxKey ts).flatten := mem_flatten.2 ⟨h, hh, hu⟩
        rwa [sweep_flatten] at this
      obtain ⟨lo', hlo', hle'⟩ : ∃ lo', u.minKey = some lo' ∧ lo ≤ lo' := by
        rcases mem_cons.1 hmem with rfl | hmem
        · exact ⟨lo, hlo, le_refl _⟩
        · have hord := hsorted.1 u hmem
          cases hmin : u.minKey with
          | none => simp [MinKeyOrder, hlo, hmin] at hord
          | some lo' => exact ⟨lo', rfl, minKey_le_of_sorted hord hlo hmin⟩
      exact not_mayContain_of_lt_minKey hlo' (lt_of_le_of_lt hkm (lt_of_lt_of_le hgap hle'))

theorem overlapSets_disjoint (tables : List TableMeta) :
    (overlapSets tables).Pairwise SharesNoKey := by
  have hsorted := pairwise_insertionSort MinKeyOrder tables
  unfold overlapSets
  cases hsort : tables.insertionSort MinKeyOrder with
  | nil => exact List.Pairwise.nil
  | cons t ts =>
    rw [hsort] at hsorted
    refine sweep_disjoint (pairwise_cons.1 hsorted).2 ?_
    intro m hm u hu
    obtain rfl := mem_singleton.1 hu
    exact ⟨m, hm, le_refl _⟩

/-- The recorded range is not inverted. -/
def TableMeta.Proper (t : TableMeta) : Prop :=
  ∀ lo hi, t.minKey = some lo → t.maxKey = some hi → lo ≤ hi

/-- The closed key ranges of two tables share a key. -/
def Intersects (t u : TableMeta) : Prop := ∃ k, t.mayContain k = true ∧ u.mayContain k = true

/-- Two tables of a list are linked when a chain of its tables leads from one to the
other through ranges that intersect. -/
def Chained (tables : List TableMeta) : TableMeta → TableMeta → Prop :=
  Relation.ReflTransGen fun a b => a ∈ tables ∧ b ∈ tables ∧ Intersects a b

theorem Chained.symm {a b : TableMeta} (h : Chained tables a b) :
    Chained tables b a := by
  induction h with
  | refl => exact Relation.ReflTransGen.refl
  | tail _ hlink ih =>
    obtain ⟨hx, hy, k, hxk, hyk⟩ := hlink
    exact Relation.ReflTransGen.head ⟨hy, hx, k, hyk, hxk⟩ ih

theorem intersects_of_touches (hu : MinKeyOrder u t) (hproper : t.Proper)
    (h : touches u.maxKey t = true) : Intersects u t := by
  cases hlo : t.minKey with
  | none =>
    -- the lower bounds are unknown, so both ranges start at the empty key
    have humin : u.minKey = none := by
      cases humin : u.minKey with
      | none => rfl
      | some k => simp [MinKeyOrder, humin, hlo] at hu
    refine ⟨[], boundsContain_iff.2 ⟨?_, ?_⟩, boundsContain_iff.2 ⟨?_, ?_⟩⟩
    · simp [humin]
    · intro k _
      exact not_lt.1 (not_lt_nil k)
    · simp [hlo]
    · intro k _
      exact not_lt.1 (not_lt_nil k)
  | some lo =>
    refine ⟨lo, boundsContain_iff.2 ⟨?_, ?_⟩, boundsContain_iff.2 ⟨?_, ?_⟩⟩
    · intro k hk
      exact minKey_le_of_sorted hu hk hlo
    · intro k hk
      simpa [touches, hk, hlo] using h
    · intro k hk
      exact le_of_eq (Option.some.inj (hk.symm.trans hlo))
    · intro k hk
      exact hproper lo k hlo hk

theorem exists_maxKey_extend (h : ∃ u ∈ cur, u.maxKey = runMax) :
    ∃ u ∈ cur ++ [t], u.maxKey = extendMax runMax t.maxKey := by
  obtain ⟨u, hu, hmax⟩ := h
  have hleft : u ∈ cur ++ [t] := mem_append_left _ hu
  have hright : t ∈ cur ++ [t] := by simp
  cases hrun : runMax with
  | none => exact ⟨u, hleft, by rw [hmax, hrun]; rfl⟩
  | some m =>
    cases htop : t.maxKey with
    | none => exact ⟨t, hright, htop⟩
    | some k =>
      by_cases hlt : m < k
      · exact ⟨t, hright, by rw [htop, extendMax, if_pos hlt]⟩
      · exact ⟨u, hleft, by rw [hmax, hrun, extendMax, if_neg hlt]⟩

theorem sweep_connected {ts : List TableMeta}
    (hsub : ∀ t ∈ cur ++ ts, t ∈ tables) (hproper : ∀ t ∈ tables, t.Proper)
    (hsorted : (cur ++ ts).Pairwise MinKeyOrder) (hmax : ∃ u ∈ cur, u.maxKey = runMax)
    (hcur : ∀ a ∈ cur, ∀ b ∈ cur, Chained tables a b) :
    ∀ g ∈ sweep cur runMax ts, g ≠ [] ∧ ∀ a ∈ g, ∀ b ∈ g, Chained tables a b := by
  induction ts generalizing cur runMax with
  | nil =>
    intro g hg
    obtain rfl := mem_singleton.1 hg
    obtain ⟨u, hu, _⟩ := hmax
    exact ⟨ne_nil_of_mem hu, hcur⟩
  | cons t ts ih =>
    unfold sweep
    split_ifs with htouch
    · rw [← singleton_append, ← append_assoc] at hsub hsorted
      refine ih hsub hsorted (exists_maxKey_extend hmax) ?_
      obtain ⟨u, hu, hrun⟩ := hmax
      have htables : t ∈ tables := hsub t (by simp)
      have hlink : Chained tables u t := by
        refine Relation.ReflTransGen.single ⟨hsub u (by simp [hu]), htables, ?_⟩
        refine intersects_of_touches ?_ (hproper t htables) (by rwa [hrun])
        have hpair := (pairwise_append.1 (pairwise_append.1 hsorted).1).2.2
        exact hpair u hu t (by simp)
      have hto : ∀ a ∈ cur, Chained tables a t := fun a ha => (hcur a ha u hu).trans hlink
      intro a ha b hb
      rcases mem_append.1 ha with ha' | ha' <;> rcases mem_append.1 hb with hb' | hb'
      · exact hcur a ha' b hb'
      · rw [mem_singleton.1 hb']
        exact hto a ha'
      · rw [mem_singleton.1 ha']
        exact (hto b hb').symm
      · rw [mem_singleton.1 ha', mem_singleton.1 hb']
        exact Relation.ReflTransGen.refl
    · intro g hg
      rcases mem_cons.1 hg with rfl | hg
      · obtain ⟨u, hu, _⟩ := hmax
        exact ⟨ne_nil_of_mem hu, hcur⟩
      · refine ih ?_ ?_ ⟨t, by simp, rfl⟩ ?_ g hg
        · intro u hu
          exact hsub u (mem_append_right _ hu)
        · exact (pairwise_append.1 hsorted).2.1
        · intro a ha b hb
          obtain rfl := mem_singleton.1 ha
          obtain rfl := mem_singleton.1 hb
          exact Relation.ReflTransGen.refl

theorem overlapSets_connected (hproper : ∀ t ∈ tables, t.Proper) :
    ∀ g ∈ overlapSets tables, g ≠ [] ∧ ∀ a ∈ g, ∀ b ∈ g, Chained tables a b := by
  have hsorted := pairwise_insertionSort MinKeyOrder tables
  have hmem (u : TableMeta) : u ∈ tables.insertionSort MinKeyOrder ↔ u ∈ tables :=
    (perm_insertionSort MinKeyOrder tables).mem_iff
  unfold overlapSets
  cases hsort : tables.insertionSort MinKeyOrder with
  | nil => simp
  | cons t ts =>
    rw [hsort] at hsorted hmem
    refine sweep_connected (fun u hu => (hmem u).1 hu) hproper hsorted ⟨t, by simp, rfl⟩ ?_
    intro a ha b hb
    obtain rfl := mem_singleton.1 ha
    obtain rfl := mem_singleton.1 hb
    exact Relation.ReflTransGen.refl

theorem mem_group_of_intersects {g : List TableMeta} (hg : g ∈ overlapSets tables)
    (ht : t ∈ g) (hu : u ∈ tables) (h : Intersects t u) : u ∈ g := by
  obtain ⟨g', hg', hug'⟩ := mem_flatten.1 ((overlapSets_flatten_perm tables).mem_iff.2 hu)
  by_cases heq : g = g'
  · rwa [heq]
  · obtain ⟨k, htk, huk⟩ := h
    have hno := (overlapSets_disjoint tables).forall hg hg' heq t ht u hug' k htk
    rw [huk] at hno
    cases hno

theorem mem_group_of_chained {g : List TableMeta} (hg : g ∈ overlapSets tables)
    (ht : t ∈ g) (h : Chained tables t u) : u ∈ g := by
  induction h with
  | refl => exact ht
  | tail _ hlink ih => exact mem_group_of_intersects hg ih hlink.2.1 hlink.2.2

/-- The groups partition the tables into the connected components of range overlap. -/
theorem overlapSets_components (tables : List TableMeta) (hproper : ∀ t ∈ tables, t.Proper) :
    (overlapSets tables).flatten.Perm tables ∧ (∀ g ∈ overlapSets tables, g ≠ []) ∧
      (∀ g ∈ overlapSets tables, ∀ t ∈ g, ∀ u ∈ tables, u ∈ g ↔ Chained tables t u) ∧
      (overlapSets tables).Pairwise SharesNoKey := by
  have hconn := overlapSets_connected hproper
  refine ⟨overlapSets_flatten_perm tables, fun g hg => (hconn g hg).1, ?_,
    overlapSets_disjoint tables⟩
  intro g hg t ht u hu
  constructor
  · intro hug
    exact (hconn g hg).2 t ht u hug
  · intro hchain
    exact mem_group_of_chained hg ht hchain

/-- Two tables that only a third one connects. -/
theorem overlapSets_components_bridge :
    (overlapSets [rangeTable 1 1 8 (some [1]) (some [3]), rangeTable 2 1 8 (some [5]) (some [7]),
      rangeTable 3 1 8 none (some [5])]).Pairwise SharesNoKey ∧
    ∀ g ∈ overlapSets [rangeTable 1 1 8 (some [1]) (some [3]),
        rangeTable 2 1 8 (some [5]) (some [7]), rangeTable 3 1 8 none (some [5])],
      ∀ t ∈ g, rangeTable 2 1 8 (some [5]) (some [7]) ∈ g ↔
        Chained [rangeTable 1 1 8 (some [1]) (some [3]), rangeTable 2 1 8 (some [5]) (some [7]),
          rangeTable 3 1 8 none (some [5])] t (rangeTable 2 1 8 (some [5]) (some [7])) := by
  have h := overlapSets_components [rangeTable 1 1 8 (some [1]) (some [3]),
    rangeTable 2 1 8 (some [5]) (some [7]), rangeTable 3 1 8 none (some [5])] (by
      intro t ht lo hi hlo hhi
      simp only [mem_cons, not_mem_nil, or_false] at ht
      rcases ht with rfl | rfl | rfl
      · cases hlo
        cases hhi
        decide
      · cases hlo
        cases hhi
        decide
      · cases hlo)
  exact ⟨h.2.2.2, fun g hg t ht => h.2.2.1 g hg t ht _ (by simp)⟩

end LevisDB
