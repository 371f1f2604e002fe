import LevisDB.Compaction.Soundness

/-!
# Picking a tier

The background compactor repeatedly picks the shallowest tier that is ready and
merges it. A tier is ready when it holds enough tables, enough bytes, or enough
tombstones; at the cap only the last trigger is left, since a merge there moves
nothing down. What a merge of a picked tier does to the number of tables in each
tier is all that the progress arguments need.
-/

namespace LevisDB

open List

variable {cc : CompactionConfig} {inputs tables : List TableMeta} {depth : Nat} {o : Options}
  {fl : Rounding}

/-- How the hardware rounds the quotient of two counts. -/
structure Rounding where
  round : ℚ → ℚ
  round_zero : round 0 = 0
  round_one : round 1 = 1

def Rounding.exact : Rounding := ⟨id, rfl, rfl⟩

def tombstoneFraction (fl : Rounding) (tombstones entries : Nat) : ℚ :=
  fl.round ((tombstones : ℚ) / (entries : ℚ))

def tierHasOverlapToResolve (depth : Nat) (tbls : List TableMeta) (gate : Bool) (ratio : Int) :
    Bool :=
  decide (depth = 0) || !gate || (decide (2 ≤ ratio) && decide (2 * ratio ≤ (tbls.length : Int))) ||
    (overlapSets tbls).any fun g => decide (2 ≤ g.length)

/-- Whether the picker would take this tier. Its total is exact, where the code's is a
64-bit sum. -/
def tierReady (fl : Rounding) (capDepth : Nat) (o : Options) (tables : List TableMeta)
    (depth : Nat) : Bool :=
  let tbls := tierTables tables depth
  let c : Int := tbls.length
  let bytes : Int := (tbls.map (·.size)).sum
  let entries : Nat := (tbls.map (·.entries)).sum
  let tombstones : Nat := (tbls.map (·.tombstones)).sum
  let tombstoneRatio : ℚ := o.tombstoneCompactionRatio.getD 0
  if 2 ≤ o.minCompactionTables ∧ 0 < depth ∧ c < o.minCompactionTables then false
  else
    (decide (depth < capDepth) &&
        tierHasOverlapToResolve depth tbls (!o.disableOverlapSelection) o.tierRatio &&
        (decide (o.tierRatio ≤ c) ||
          (decide (0 < o.tierByteTrigger) && decide (2 ≤ c) && decide (o.tierByteTrigger ≤ bytes))))
            ||
      (decide (0 < tombstoneRatio) && decide (2 ≤ c) && decide (0 < entries) &&
        decide (tombstoneRatio ≤ tombstoneFraction fl tombstones entries))

/-- The shallowest ready tier, none when nothing is ready. -/
def pickCompaction (fl : Rounding) (o : Options) (s : Engine) : Option Nat :=
  ((s.tables.map (·.depth)).filter
    (tierReady fl (resolveMaxDepth s.cfg.maxLevels) o s.tables)).min?

/-- A negative cap was disabled by the caller. -/
def maxCompactionBytes (v : Int) : Int := if v < 0 then 0 else v

/-- What a compaction run is handed: the watermark, the reserved filter, the expiry
cutoff and the clock. -/
structure RunConfig where
  retain : Nat
  filter : Option CompactionFilter
  filterThrough : Nat
  expireBefore : Time
  now : Time

namespace Options

def engineConfig (o : Options) : EngineConfig where
  memtableSize := o.memtableSize.toNat
  bloomBits := o.bloomBits
  maxLevels := o.maxLevels
  valueThreshold := o.valueThreshold
  blobFileSize := o.blobFileSize
  blobPath := decide (0 < o.valueThreshold)

/-- The configuration of a background run, before a filter is attached. -/
def compactionConfig (o : Options) (expireBefore : Time) : CompactionConfig where
  bloomBits := o.bloomBits
  fileSizeBase := o.fileSizeBase
  fileSizeMultiplier := o.fileSizeMultiplier
  fileSizeMax := o.fileSizeMax
  maxLevels := o.maxLevels
  expireBefore := expireBefore
  filter := none
  filterThrough := 0
  maxCompactionBytes := LevisDB.maxCompactionBytes o.maxCompactionBytes
  overlapSelection := !o.disableOverlapSelection
  rewriteSingle := false
  collapseInPlace := false

def runConfig (o : Options) (r : RunConfig) : CompactionConfig :=
  { o.compactionConfig r.expireBefore with filter := r.filter, filterThrough := r.filterThrough }

end Options

theorem pickCompaction_eq_some {s : Engine}
    (h : pickCompaction fl o s = some depth) :
    tierReady fl (resolveMaxDepth s.cfg.maxLevels) o s.tables depth = true := by
  exact (mem_filter.1 (List.min?_mem h)).2

theorem pickCompaction_of_ready_zero {s : Engine}
    (hmem : ∃ t ∈ s.tables, t.depth = 0)
    (hready : tierReady fl (resolveMaxDepth s.cfg.maxLevels) o s.tables 0 = true) :
    pickCompaction fl o s = some 0 := by
  obtain ⟨t, ht, hdepth⟩ := hmem
  refine List.min?_eq_some_iff.2 ⟨?_, fun b _ => Nat.zero_le b⟩
  exact mem_filter.2 ⟨List.mem_map.2 ⟨t, ht, hdepth⟩, hready⟩

theorem two_le_of_tierReady {capDepth : Nat}
    (hratio : 2 ≤ o.tierRatio)
    (h : tierReady fl capDepth o tables depth = true) : 2 ≤ (tierTables tables depth).length := by
  unfold tierReady at h
  dsimp only at h
  split_ifs at h
  simp only [Bool.or_eq_true, Bool.and_eq_true, decide_eq_true_eq] at h
  omega

theorem tombstones_pos_of_tierReady {capDepth : Nat}
    (hcap : capDepth ≤ depth)
    (h : tierReady fl capDepth o tables depth = true) :
    0 < ((tierTables tables depth).map (·.tombstones)).sum := by
  unfold tierReady at h
  dsimp only at h
  split_ifs at h
  simp only [Bool.or_eq_true, Bool.and_eq_true, decide_eq_true_eq] at h
  obtain ⟨⟨hlt, _⟩, _⟩ | ⟨⟨⟨hpos, _⟩, _⟩, hfrac⟩ := h
  · omega
  · refine Nat.pos_of_ne_zero fun hzero => ?_
    rw [hzero, tombstoneFraction, Nat.cast_zero, zero_div, fl.round_zero] at hfrac
    exact absurd hfrac (not_le.2 hpos)

theorem le_capLength (maxBytes : Int) (i : Nat) (total : Int) (ts : List TableMeta) :
    i ≤ capLength maxBytes i total ts := by
  induction ts generalizing i total with
  | nil => exact Nat.le_refl i
  | cons t ts ih =>
    unfold capLength
    split_ifs
    · omega
    · have := ih (i + 1) (total + t.size)
      omega

theorem two_le_capLength (maxBytes : Int) {ts : List TableMeta} (h : 2 ≤ ts.length) :
    2 ≤ capLength maxBytes 0 0 ts := by
  match ts, h with
  | t :: u :: ts, _ =>
    have hrest := le_capLength maxBytes 2 (0 + t.size + u.size) ts
    rw [capLength, if_neg (by omega), capLength]
    split_ifs
    · omega
    · exact hrest

theorem two_le_scopeCompactionInputs (h : 2 ≤ inputs.length)
    (deeper : List KeyRange) (cc : CompactionConfig) :
    2 ≤ (scopeCompactionInputs inputs deeper cc).1.length := by
  have hsel : 2 ≤ (selectOverlap inputs deeper cc).1.length := by
    unfold selectOverlap
    dsimp only
    split_ifs with hbest
    · exact hbest.2.1
    · exact h
  unfold scopeCompactionInputs selectCapped
  dsimp only
  split_ifs
  · rw [capCompactionInputs, length_take]
    have := two_le_capLength cc.maxCompactionBytes hsel
    omega
  · exact hsel

theorem length_le_largestGroup {groups : List (List TableMeta)} {g : List TableMeta}
    (hg : g ∈ groups) : g.length ≤ (largestGroup groups).length := by
  have hfold : ∀ (gs : List (List TableMeta)) (best : List TableMeta),
      best.length ≤ (gs.foldl (fun best g => if best.length < g.length then g else best)
        best).length ∧
      ∀ g ∈ gs, g.length ≤
        (gs.foldl (fun best g => if best.length < g.length then g else best) best).length := by
    intro gs
    induction gs with
    | nil => simp
    | cons h gs ih =>
      intro best
      obtain ⟨hbest, hall⟩ := ih (if best.length < h.length then h else best)
      rw [foldl_cons]
      have hboth : best.length ≤ (if best.length < h.length then h else best).length ∧
          h.length ≤ (if best.length < h.length then h else best).length := by
        split_ifs <;> omega
      refine ⟨Nat.le_trans hboth.1 hbest, fun g hg => ?_⟩
      rcases mem_cons.1 hg with rfl | hg
      · exact Nat.le_trans hboth.2 hbest
      · exact hall g hg
  exact (hfold groups []).2 g hg

/-- What one stage of scoping does: the inputs are split, and the bounds of the part
left behind are added to the list. -/
structure Splits (inputs : List TableMeta) (deeper : List KeyRange)
    (chosen : List TableMeta × List KeyRange) : Prop where
  split : ∃ left added, (chosen.1 ++ left).Perm inputs ∧ chosen.2 = deeper ++ added ∧
    added.Perm (left.map TableMeta.range)

theorem splits_refl (inputs : List TableMeta) (deeper : List KeyRange) :
    Splits inputs deeper (inputs, deeper) :=
  ⟨[], [], by simp, by simp, by simp⟩

theorem Splits.trans {deeper : List KeyRange}
    {a b : List TableMeta × List KeyRange} (ha : Splits inputs deeper a) (hb : Splits a.1 a.2 b) :
    Splits inputs deeper b := by
  obtain ⟨left, added, hperm, hdeeper, hadded⟩ := ha
  obtain ⟨left', added', hperm', hdeeper', hadded'⟩ := hb
  refine ⟨left' ++ left, added ++ added', ?_, ?_, ?_⟩
  · rw [← append_assoc]
    exact (hperm'.append_right left).trans hperm
  · rw [hdeeper', hdeeper, append_assoc]
  · rw [map_append]
    exact (hadded.append hadded').trans perm_append_comm

theorem selectOverlap_splits (huniq : UniqueNums inputs)
    (deeper : List KeyRange) (cc : CompactionConfig) :
    Splits inputs deeper (selectOverlap inputs deeper cc) := by
  unfold selectOverlap
  dsimp only
  split_ifs with hsel
  · have hne : largestGroup (overlapSets inputs) ≠ [] := by
      intro hnil
      simp [hnil] at hsel
    have hgroup := largestGroup_mem hne
    have hsub : ∀ t ∈ largestGroup (overlapSets inputs), t ∈ inputs := by
      intro t ht
      exact (overlapSets_flatten_perm inputs).mem_iff.1 (mem_flatten.2 ⟨_, hgroup, ht⟩)
    have hnodup : inputs.Nodup := List.Nodup.of_map _ huniq
    have hgroupNodup : (largestGroup (overlapSets inputs)).Nodup :=
      (nodup_flatten.1 ((overlapSets_flatten_perm inputs).nodup_iff.2 hnodup)).1 _ hgroup
    have hsplit := List.filter_append_perm
      (fun t : TableMeta => (largestGroup (overlapSets inputs)).any fun b => decide (b.num = t.num))
      inputs
    have hkept : (inputs.filter fun t =>
        (largestGroup (overlapSets inputs)).any fun b => decide (b.num = t.num)).Perm
        (largestGroup (overlapSets inputs)) := by
      refine (perm_ext_iff_of_nodup (hnodup.filter _) hgroupNodup).2 fun t => ?_
      simp only [mem_filter, List.any_eq_true, decide_eq_true_eq]
      constructor
      · rintro ⟨ht, b, hb, hnum⟩
        rwa [← huniq.eq_of_num (hsub b hb) ht hnum]
      · intro ht
        exact ⟨hsub t ht, t, ht, rfl⟩
    exact ⟨_, _, (hkept.symm.append_right _).trans hsplit, rfl, List.Perm.refl _⟩
  · exact splits_refl inputs deeper

theorem selectCapped_splits (inputs : List TableMeta) (deeper : List KeyRange)
    (cc : CompactionConfig) : Splits inputs deeper (selectCapped inputs deeper cc) := by
  unfold selectCapped
  split_ifs with hcap
  · refine ⟨_, _, ?_, rfl, List.Perm.refl _⟩
    have hlen : inputs.drop (capCompactionInputs inputs cc.maxCompactionBytes).length =
        inputs.drop (capLength cc.maxCompactionBytes 0 0 inputs) := by
      rw [capCompactionInputs, length_take]
      rcases Nat.le_total (capLength cc.maxCompactionBytes 0 0 inputs) inputs.length with hle | hle
      · rw [Nat.min_eq_left hle]
      · rw [Nat.min_eq_right hle, drop_eq_nil_of_le hle, drop_length]
    rw [hlen, capCompactionInputs, take_append_drop]
  · exact splits_refl inputs deeper

theorem capLength_fits (maxBytes : Int) (i : Nat) (total : Int) (ts : List TableMeta)
    (hfits : 2 ≤ i → total ≤ maxBytes) (hmore : 2 < capLength maxBytes i total ts) :
    total + (((ts.take (capLength maxBytes i total ts - i)).dropLast.map (·.size)).sum : Nat) ≤
      maxBytes := by
  induction ts generalizing i total with
  | nil =>
    simp only [capLength] at hmore ⊢
    simpa using hfits (by omega)
  | cons t ts ih =>
    unfold capLength at hmore ⊢
    split_ifs at hmore ⊢ with hover
    · rw [Nat.add_sub_cancel_left]
      simpa using hfits (by omega)
    · have hstep : 2 ≤ i + 1 → total + t.size ≤ maxBytes := by
        intro hi
        by_contra hlt
        exact hover ⟨not_le.1 hlt, hi⟩
      have hrest := ih (i + 1) (total + t.size) hstep hmore
      have hle := le_capLength maxBytes (i + 1) (total + t.size) ts
      obtain ⟨k, hk⟩ := Nat.exists_eq_add_of_le hle
      rw [hk, Nat.add_sub_cancel_left] at hrest
      rw [hk, show i + 1 + k - i = k + 1 by omega, take_succ_cons]
      cases htake : ts.take k with
      | nil =>
        rw [htake] at hrest
        simp at hrest ⊢
        omega
      | cons u us =>
        rw [htake] at hrest
        rw [dropLast_cons_of_ne_nil (cons_ne_nil u us), map_cons, sum_cons]
        push_cast at hrest ⊢
        omega

/-- Scoping splits the inputs: at least two tables are chosen, the bounds of exactly
the others are added to the list the merge consults, the chosen tables overlap when
selection is on, and without the last one they fit the byte cap. -/
theorem scopeCompactionInputs_splits (inputs : List TableMeta) (htwo : 2 ≤ inputs.length)
    (huniq : UniqueNums inputs) (deeper : List KeyRange) (cc : CompactionConfig) :
    (∃ left added, ((scopeCompactionInputs inputs deeper cc).1 ++ left).Perm inputs ∧
        (scopeCompactionInputs inputs deeper cc).2 = deeper ++ added ∧
        added.Perm (left.map TableMeta.range)) ∧
      2 ≤ (scopeCompactionInputs inputs deeper cc).1.length ∧
      (cc.overlapSelection = true → (∃ g ∈ overlapSets inputs, 2 ≤ g.length) →
        ∃ g ∈ overlapSets inputs, ∀ t ∈ (scopeCompactionInputs inputs deeper cc).1, t ∈ g) ∧
      (0 < cc.maxCompactionBytes → (scopeCompactionInputs inputs deeper cc).1.length ≠ 2 →
        (((scopeCompactionInputs inputs deeper cc).1.dropLast.map (·.size)).sum : Nat) ≤
          cc.maxCompactionBytes) := by
  have hsplits : Splits inputs deeper (scopeCompactionInputs inputs deeper cc) :=
    (selectOverlap_splits huniq deeper cc).trans (selectCapped_splits _ _ cc)
  have hlen := two_le_scopeCompactionInputs htwo deeper cc
  refine ⟨hsplits.split, hlen, ?_, ?_⟩
  · rintro hsel ⟨g, hg, hgtwo⟩
    have hbest := length_le_largestGroup hg
    have hne : largestGroup (overlapSets inputs) ≠ [] := by
      intro hnil
      rw [hnil, length_nil] at hbest
      omega
    refine ⟨_, largestGroup_mem hne, fun t ht => ?_⟩
    have hstage : t ∈ (selectOverlap inputs deeper cc).1 := (selectCapped_scoped _ _ cc).subset t ht
    unfold selectOverlap at hstage
    dsimp only at hstage
    split_ifs at hstage with hpart
    · exact hstage
    · -- the largest group is all of the inputs
      have hperm := overlapSets_flatten_perm inputs
      have hwhole : inputs.length ≤ (largestGroup (overlapSets inputs)).length := by
        by_contra hlt
        exact hpart ⟨hsel, by omega, by omega⟩
      have hsubperm : (largestGroup (overlapSets inputs)).Subperm inputs :=
        (sublist_flatten_of_mem (largestGroup_mem hne)).subperm.trans hperm.subperm
      exact (hsubperm.perm_of_length_le hwhole).mem_iff.2 hstage
  · intro hcap hmore
    unfold scopeCompactionInputs selectCapped at hlen hmore ⊢
    dsimp only at hlen hmore ⊢
    rw [if_pos hcap] at hlen hmore ⊢
    dsimp only [capCompactionInputs] at hlen hmore ⊢
    have hfits := capLength_fits cc.maxCompactionBytes 0 0 (selectOverlap inputs deeper cc).1
      (by omega) (by rw [length_take] at hlen hmore; omega)
    simpa using hfits

/-- Three overlapping tables under a cap that the third one exceeds. -/
theorem scopeCompactionInputs_splits_three :
    (∃ g ∈ overlapSets [rangeTable 1 1 8 (some [1]) (some [3]),
      rangeTable 2 1 8 (some [2]) (some [6]),
        rangeTable 3 1 8 (some [5]) none],
      ∀ t ∈ (scopeCompactionInputs [rangeTable 1 1 8 (some [1]) (some [3]),
        rangeTable 2 1 8 (some [2]) (some [6]), rangeTable 3 1 8 (some [5]) none] []
        ⟨10, 0, 0, 0, 0, 0, none, 0, 20, true, false, false⟩).1, t ∈ g) ∧
    (((scopeCompactionInputs [rangeTable 1 1 8 (some [1]) (some [3]),
        rangeTable 2 1 8 (some [2]) (some [6]), rangeTable 3 1 8 (some [5]) none] []
        ⟨10, 0, 0, 0, 0, 0, none, 0, 20, true, false, false⟩).1.dropLast.map (·.size)).sum : Nat) ≤
      (20 : Int) := by
  have h := scopeCompactionInputs_splits [rangeTable 1 1 8 (some [1]) (some [3]),
    rangeTable 2 1 8 (some [2]) (some [6]), rangeTable 3 1 8 (some [5]) none] (by decide)
    (by unfold UniqueNums; decide) [] ⟨10, 0, 0, 0, 0, 0, none, 0, 20, true, false, false⟩
  exact ⟨h.2.2.1 rfl (by decide), h.2.2.2 (by decide) (by decide)⟩

theorem worthCompacting_of_two {n : Nat} (h : 2 ≤ n) (bottomRewrite hasReason : Bool) :
    worthCompacting n bottomRewrite hasReason = true := by
  unfold worthCompacting
  rw [if_neg (by omega), if_pos h]

theorem planCompact_of_two
    (htwo : 2 ≤ (tierTables tables depth).length) : ∃ p, planCompact tables depth cc = some p := by
  unfold planCompact
  dsimp only
  rw [worthCompacting_of_two htwo, if_neg (by simp)]
  split_ifs
  · exact ⟨_, rfl⟩
  · exact ⟨_, rfl⟩

theorem planCompact_outDepth {p : CompactionPlan} (h : planCompact tables depth cc = some p) :
    p.outDepth = resolveOutDepth depth cc := by
  unfold planCompact at h
  dsimp only at h
  split_ifs at h <;> cases h <;> rfl

theorem planCompact_hop
    (htwo : 2 ≤ (tierTables tables depth).length) (hmove : resolveOutDepth depth cc ≠ depth) :
    ∃ p, planCompact tables depth cc = some p ∧ p.outDepth = resolveOutDepth depth cc ∧
      2 ≤ p.inputs.length ∧
      p.inputs = (scopeCompactionInputs (tierTables tables depth)
        (outsideRanges tables depth) cc).1 := by
  have hwhole : wholeTierMerge tables depth cc = false := by simp [wholeTierMerge, hmove]
  unfold planCompact
  dsimp only
  rw [worthCompacting_of_two htwo, if_neg (by simp), hwhole, if_neg (by simp)]
  exact ⟨_, rfl, rfl, two_le_scopeCompactionInputs htwo _ cc, rfl⟩

theorem planCompact_whole
    (htwo : 2 ≤ (tierTables tables depth).length) (hstay : resolveOutDepth depth cc = depth)
    (hdeepest : depth = maxDepthOf tables) :
    planCompact tables depth cc = some ⟨wholeTierInputs tables depth, depth, true, none⟩ := by
  have hwhole : wholeTierMerge tables depth cc = true := by
    simp [wholeTierMerge, hstay, ← hdeepest]
  unfold planCompact
  dsimp only
  rw [worthCompacting_of_two htwo, if_neg (by simp), hwhole, if_pos rfl, hstay]
  simp

theorem mem_wholeTierInputs {t : TableMeta}
    (ht : t ∈ tables) (hdepth : t.depth = depth) : t ∈ wholeTierInputs tables depth := by
  obtain ⟨g, hg, htg⟩ := mem_flatten.1 ((overlapSets_flatten_perm tables).mem_iff.2 ht)
  refine mem_flatten.2 ⟨g, mem_filter.2 ⟨hg, ?_⟩, htg⟩
  exact List.any_eq_true.2 ⟨t, htg, by simpa using hdepth⟩

end LevisDB
