import LevisDB.Compaction.Collapse
import LevisDB.Compaction.Output
import Mathlib.Data.List.Pairwise

/-!
# One compaction

`Compact` plans a merge of one tier from the table list alone, runs it, and
commits the outputs in place of the inputs; `CompactAll` merges every table into
the bottom. The plan fixes which keys the merge may reclaim, and `Separated`
says why that is safe: no table left outside the merge can hold such a key.
-/

namespace LevisDB

open List

variable {cc : CompactionConfig} {p : CompactionPlan} {inputs tables : List TableMeta} {depth : Nat}
  {t : TableMeta}

/-- What a compaction merges, where to, and what it may reclaim. -/
structure CompactionPlan where
  inputs : List TableMeta
  outDepth : Nat
  dropTombstones : Bool
  noDeeperTier : Option (Key → Bool)

namespace CompactionPlan

def mergeWrite (p : CompactionPlan) (retainSeq : Nat) (cc : CompactionConfig) (now : Time)
    (rangeDels : List RangeTombstone) : MergeWrite :=
  ⟨p.outDepth, p.dropTombstones, p.noDeeperTier, retainSeq, cc, now, rangeDels⟩

def reclaims (p : CompactionPlan) (user : Key) : Bool :=
  match p.noDeeperTier with
  | some q => q user
  | none => p.dropTombstones

end CompactionPlan

/-- Every overlap group that touches the tier. -/
def wholeTierInputs (tables : List TableMeta) (depth : Nat) : List TableMeta :=
  ((overlapSets tables).filter fun g => g.any fun t => decide (t.depth = depth)).flatten

def tierTables (tables : List TableMeta) (depth : Nat) : List TableMeta :=
  tables.filter fun t => decide (t.depth = depth)

/-- Tables at any other depth can hold older versions: an ingest puts fresh
sequences at the bottom. -/
def outsideRanges (tables : List TableMeta) (depth : Nat) : List KeyRange :=
  (tables.filter fun t => decide (t.depth ≠ depth)).map (·.range)

/-- The merge stays in the deepest tier in use. -/
def wholeTierMerge (tables : List TableMeta) (depth : Nat) (cc : CompactionConfig) : Bool :=
  decide (resolveOutDepth depth cc = depth) && decide (depth = maxDepthOf tables)

/-- A merge of selected tables of one tier, which consults the bounds of all others. -/
def hopPlan (chosen : List TableMeta × List KeyRange) (outDepth : Nat) (dropTombstones : Bool) :
    CompactionPlan :=
  ⟨chosen.1, outDepth, dropTombstones,
    if chosen.2.isEmpty then none else some fun user => !rangesMayContain chosen.2 user⟩

/-- The input selection of `Compact`, none when the merge is not worth running. -/
def planCompact (tables : List TableMeta) (depth : Nat) (cc : CompactionConfig) :
    Option CompactionPlan :=
  let outDepth := resolveOutDepth depth cc
  let inputs := tierTables tables depth
  let whole := wholeTierMerge tables depth cc
  if worthCompacting inputs.length (cc.rewriteSingle && whole) (hasRewriteReason cc inputs) = false
  then none
  else
    let dropTombstones := decide (maxDepthOf tables < outDepth) || whole
    if whole = true then some ⟨wholeTierInputs tables depth, outDepth, dropTombstones, none⟩
    else
      some (hopPlan (scopeCompactionInputs inputs (outsideRanges tables depth) cc) outDepth
        dropTombstones)

/-- `CompactAll` merges every table into the deepest tier in use. -/
def planCompactAll (tables : List TableMeta) : Option CompactionPlan :=
  if tables.isEmpty then none else some ⟨tables, maxDepthOf tables, true, none⟩

def collectInputRangeDels (inputs : List TableMeta) : Except Err (List RangeTombstone) :=
  inputs.foldlM (fun out t => (t.reader.rangeTombstones).map (out ++ ·)) []

def runCompaction (fmt : TableFormat) (s : Engine) (p : CompactionPlan) (retainSeq : Nat)
    (cc : CompactionConfig) (now : Time) : Except Err (List TableMeta × Nat) := do
  let rangeDels ← collectInputRangeDels p.inputs
  writeMerged fmt (resolveBlob s) (p.mergeWrite retainSeq cc now rangeDels) s.alloc
    (KMerge.merge IKeyOrder (p.inputs.map (·.reader.newIterator)))

def keptTables (tables inputs : List TableMeta) : List TableMeta :=
  tables.filter fun t => !inputs.any fun u => decide (u.num = t.num)

def commitCompaction (s : Engine) (inputs metas : List TableMeta) (alloc : Nat) : Engine :=
  { s with
    tables := keptTables s.tables inputs ++ metas
    alloc := alloc
    lastCompactionDone := true }

def runPlan (fmt : TableFormat) (s : Engine) (p : CompactionPlan) (retainSeq : Nat)
    (cc : CompactionConfig) (now : Time) : Except Err Engine := do
  let (metas, alloc) ← runCompaction fmt s p retainSeq cc now
  pure (commitCompaction s p.inputs metas alloc)

def compact (fmt : TableFormat) (s : Engine) (depth retainSeq : Nat) (cc : CompactionConfig)
    (now : Time) : Except Err Engine :=
  match planCompact s.tables depth cc with
  | none => .ok { s with lastCompactionDone := false }
  | some p => runPlan fmt s p retainSeq cc now

def compactAll (fmt : TableFormat) (s : Engine) (retainSeq : Nat) (cc : CompactionConfig)
    (now : Time) : Except Err Engine :=
  match planCompactAll s.tables with
  | none => .ok s
  | some p => runPlan fmt s p retainSeq cc now

def UniqueNums (tables : List TableMeta) : Prop := (tables.map (·.num)).Nodup

theorem UniqueNums.eq_of_num (h : UniqueNums tables) {u : TableMeta}
    (ht : t ∈ tables) (hu : u ∈ tables) (hnum : t.num = u.num) : t = u :=
  inj_on_of_nodup_map h ht hu hnum

theorem UniqueNums.sublist {sub : List TableMeta} (h : UniqueNums tables)
    (hsub : sub.Sublist tables) : UniqueNums sub :=
  List.Nodup.sublist (hsub.map _) h

/-- A key the merge reclaims and an input table may hold is in no table outside. -/
structure CompactionPlan.Separated (tables : List TableMeta) (p : CompactionPlan) : Prop where
  subset : ∀ t ∈ p.inputs, t ∈ tables
  outside : ∀ k, p.reclaims k = true → ∀ t ∈ p.inputs, t.mayContain k = true →
    ∀ u ∈ tables, u ∉ p.inputs → u.mayContain k = false

theorem rangesMayContain_of_mem {ranges : List KeyRange} {k : Key}
    (ht : t.range ∈ ranges) (hk : t.mayContain k = true) : rangesMayContain ranges k = true :=
  List.any_eq_true.2 ⟨t.range, ht, hk⟩

theorem largestGroup_mem {groups : List (List TableMeta)} (hne : largestGroup groups ≠ []) :
    largestGroup groups ∈ groups := by
  have hfold : ∀ (groups : List (List TableMeta)) (best : List TableMeta),
      groups.foldl (fun best g => if best.length < g.length then g else best) best = best ∨
        groups.foldl (fun best g => if best.length < g.length then g else best) best ∈ groups := by
    intro groups
    induction groups with
    | nil => exact fun best => Or.inl rfl
    | cons g groups ih =>
      intro best
      rw [foldl_cons]
      split_ifs with hlt
      · rcases ih g with h | h
        · rw [h]
          exact Or.inr mem_cons_self
        · exact Or.inr (mem_cons_of_mem _ h)
      · rcases ih best with h | h
        · exact Or.inl h
        · exact Or.inr (mem_cons_of_mem _ h)
  rcases hfold groups [] with h | h
  · exact absurd h hne
  · exact h

/-- Scoping: inputs shrink, and a table that is left out goes into the bounds. -/
structure Scoped (inputs : List TableMeta) (deeper : List KeyRange)
    (chosen : List TableMeta × List KeyRange) : Prop where
  subset : ∀ t ∈ chosen.1, t ∈ inputs
  deeper : ∀ r ∈ deeper, r ∈ chosen.2
  left : ∀ t ∈ inputs, t ∉ chosen.1 → t.range ∈ chosen.2

theorem Scoped.trans {deeper : List KeyRange}
    {a b : List TableMeta × List KeyRange} (ha : Scoped inputs deeper a) (hb : Scoped a.1 a.2 b) :
    Scoped inputs deeper b where
  subset t ht := ha.subset t (hb.subset t ht)
  deeper r hr := hb.deeper r (ha.deeper r hr)
  left t ht hout := by
    by_cases hmem : t ∈ a.1
    · exact hb.left t hmem hout
    · exact hb.deeper _ (ha.left t ht hmem)

theorem scoped_refl (inputs : List TableMeta) (deeper : List KeyRange) :
    Scoped inputs deeper (inputs, deeper) :=
  ⟨fun _ ht => ht, fun _ hr => hr, fun _ ht hout => absurd ht hout⟩

theorem selectOverlap_scoped (huniq : UniqueNums inputs)
    (deeper : List KeyRange) (cc : CompactionConfig) :
    Scoped inputs deeper (selectOverlap inputs deeper cc) := by
  unfold selectOverlap
  dsimp only
  split_ifs with hsel
  · have hne : largestGroup (overlapSets inputs) ≠ [] := by
      intro hnil
      simp [hnil] at hsel
    have hsub : ∀ t ∈ largestGroup (overlapSets inputs), t ∈ inputs := by
      intro t ht
      exact (overlapSets_flatten_perm inputs).mem_iff.1
        (mem_flatten.2 ⟨_, largestGroup_mem hne, ht⟩)
    refine ⟨hsub, fun r hr => mem_append_left _ hr, ?_⟩
    intro t ht hout
    refine mem_append_right _ (List.mem_map.2 ⟨t, mem_filter.2 ⟨ht, ?_⟩, rfl⟩)
    rw [Bool.not_eq_true', List.any_eq_false]
    intro b hb hnum
    rw [huniq.eq_of_num (hsub b hb) ht (by simpa using hnum)] at hb
    exact hout hb
  · exact scoped_refl inputs deeper

theorem selectCapped_scoped (inputs : List TableMeta) (deeper : List KeyRange)
    (cc : CompactionConfig) : Scoped inputs deeper (selectCapped inputs deeper cc) := by
  unfold selectCapped
  split_ifs with hcap
  · unfold capCompactionInputs
    generalize capLength cc.maxCompactionBytes 0 0 inputs = n
    refine ⟨fun t ht => mem_of_mem_take ht, fun r hr => mem_append_left _ hr, ?_⟩
    intro t ht hout
    refine mem_append_right _ (List.mem_map.2 ⟨t, ?_, rfl⟩)
    -- The dropped suffix starts where the kept prefix ends.
    have hsplit : t ∈ inputs.take n ++ inputs.drop n := by rwa [take_append_drop]
    rcases mem_append.1 hsplit with h | h
    · exact absurd h hout
    · rw [length_take]
      rcases Nat.le_total n inputs.length with hle | hle
      · rwa [Nat.min_eq_left hle]
      · rw [drop_eq_nil_of_le hle] at h
        cases h
  · exact scoped_refl inputs deeper

theorem scopeCompactionInputs_scoped (huniq : UniqueNums inputs)
    (deeper : List KeyRange) (cc : CompactionConfig) :
    Scoped inputs deeper (scopeCompactionInputs inputs deeper cc) :=
  (selectOverlap_scoped huniq deeper cc).trans (selectCapped_scoped _ _ cc)

theorem scopeCompactionInputs_subset {deeper : List KeyRange}
    (h : t ∈ (scopeCompactionInputs inputs deeper cc).1) :
    t ∈ inputs := by
  have hsel : t ∈ (selectOverlap inputs deeper cc).1 := (selectCapped_scoped _ _ cc).subset t h
  unfold selectOverlap at hsel
  dsimp only at hsel
  split_ifs at hsel with hbest
  · have hne : largestGroup (overlapSets inputs) ≠ [] := by
      intro hnil
      simp [hnil] at hbest
    exact (overlapSets_flatten_perm inputs).mem_iff.1
      (mem_flatten.2 ⟨_, largestGroup_mem hne, hsel⟩)
  · exact hsel

theorem wholeTierInputs_outside {u : TableMeta} {k : Key}
    (ht : t ∈ wholeTierInputs tables depth) (htk : t.mayContain k = true) (hu : u ∈ tables)
    (hout : u ∉ wholeTierInputs tables depth) : u.mayContain k = false := by
  unfold wholeTierInputs at ht hout
  obtain ⟨g, hg, htg⟩ := mem_flatten.1 ht
  obtain ⟨hgmem, htouch⟩ := mem_filter.1 hg
  obtain ⟨h, hh, huh⟩ := mem_flatten.1 ((overlapSets_flatten_perm tables).mem_iff.2 hu)
  have hne : g ≠ h := by
    rintro rfl
    exact hout (mem_flatten.2 ⟨g, hg, huh⟩)
  exact (overlapSets_disjoint tables).forall hgmem hh hne t htg u huh k htk

theorem hopPlan_separated {chosen : List TableMeta × List KeyRange}
    (h : Scoped (tierTables tables depth) (outsideRanges tables depth) chosen) (outDepth : Nat)
    (dropTombstones : Bool) : (hopPlan chosen outDepth dropTombstones).Separated tables := by
  refine ⟨fun t ht => (mem_filter.1 (h.subset t ht)).1, ?_⟩
  intro k hrec t ht htk u hu hout
  have hmem : u.range ∈ chosen.2 := by
    by_cases hdepth : u.depth = depth
    · exact h.left u (mem_filter.2 ⟨hu, by simpa using hdepth⟩) hout
    · exact h.deeper _
        (List.mem_map.2 ⟨u, mem_filter.2 ⟨hu, by simpa using hdepth⟩, rfl⟩)
  have hne : chosen.2.isEmpty = false := by simpa using ne_nil_of_mem hmem
  simp only [CompactionPlan.reclaims, hopPlan, hne] at hrec
  by_contra huk
  rw [Bool.not_eq_false] at huk
  simp [rangesMayContain_of_mem hmem huk] at hrec

theorem planCompact_subset
    (h : planCompact tables depth cc = some p) : ∀ t ∈ p.inputs, t ∈ tables := by
  unfold planCompact at h
  dsimp only at h
  split_ifs at h
  · cases h
    intro t ht
    obtain ⟨g, hg, htg⟩ := mem_flatten.1 ht
    exact (overlapSets_flatten_perm tables).mem_iff.1
      (mem_flatten.2 ⟨g, (mem_filter.1 hg).1, htg⟩)
  · cases h
    intro t ht
    exact (mem_filter.1 (scopeCompactionInputs_subset ht)).1

theorem planCompact_separated (huniq : UniqueNums tables)
    (h : planCompact tables depth cc = some p) :
    p.Separated tables := by
  unfold planCompact at h
  dsimp only at h
  split_ifs at h
  · cases h
    refine ⟨fun t ht => ?_, fun k _ t ht htk u hu hout => wholeTierInputs_outside ht htk hu hout⟩
    obtain ⟨g, hg, htg⟩ := mem_flatten.1 ht
    exact (overlapSets_flatten_perm tables).mem_iff.1
      (mem_flatten.2 ⟨g, (mem_filter.1 hg).1, htg⟩)
  · cases h
    have htier : UniqueNums (tierTables tables depth) := huniq.sublist filter_sublist
    exact hopPlan_separated (scopeCompactionInputs_scoped htier _ cc) _ _

theorem planCompactAll_separated (h : planCompactAll tables = some p) : p.Separated tables := by
  unfold planCompactAll at h
  split_ifs at h
  cases h
  exact ⟨fun t ht => ht, fun k _ t _ _ u hu hout => absurd hu hout⟩

end LevisDB
