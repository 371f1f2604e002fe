import LevisDB.Compaction.Pick
import LevisDB.Lib.Loop
import Mathlib.Algebra.Order.BigOperators.Group.List
import Mathlib.Data.List.Flatten
import Mathlib.Data.List.Perm.Subperm
import Mathlib.Tactic.NormNum
import Mathlib.Tactic.Ring

/-!
# The background compactor

Between flushes the scheduler picks a tier and merges it until nothing is ready.
-/

namespace LevisDB

open List

inductive LoopEnd where
  | idle (s : Engine)
  | declined (s : Engine)
  | failed (err : Err)

/-- One round of the scheduler without pins or a filter: pick, merge, go on if
something was merged. -/
def compactOnce (fl : Rounding) (fmt : TableFormat) (o : Options) (now : Time) (readSeq : Nat)
    (s : Engine) : LoopEnd ⊕ Engine :=
  match pickCompaction fl o s with
  | none => .inl (.idle s)
  | some depth =>
    match compact fmt s depth readSeq (o.compactionConfig now) now with
    | .error err => .inl (.failed err)
    | .ok s' => if s'.lastCompactionDone then .inr s' else .inl (.declined s')

def depth0Count (s : Engine) : Nat := (tierTables s.tables 0).length

section Commit

variable {fmt : TableFormat} {s s' : Engine} {p : CompactionPlan} {depth readSeq : Nat}
  {cc : CompactionConfig} {now : Time} {metas : List TableMeta} {alloc : Nat}

theorem compact_of_plan (hplan : planCompact s.tables depth cc = some p)
    (h : compact fmt s depth readSeq cc now = .ok s') :
    ∃ metas alloc, runCompaction fmt s p readSeq cc now = .ok (metas, alloc) ∧
      s' = commitCompaction s p.inputs metas alloc := by
  unfold compact at h
  rw [hplan] at h
  obtain ⟨⟨metas, alloc⟩, hrun, h⟩ := Except.bind_eq_ok.1 h
  exact ⟨metas, alloc, hrun, (Except.ok.inj h).symm⟩

theorem runCompaction_filled (h : runCompaction fmt s p readSeq cc now = .ok (metas, alloc)) :
    ∀ t ∈ metas, t.points ≠ [] ∨ t.rangeDels ≠ [] := by
  obtain ⟨_, _, h⟩ := Except.bind_eq_ok.1 h
  exact writeMerged_filled h

theorem collapse_keys {resolve : BlobPointer → Except Err Bytes} {mw : MergeWrite}
    {ks : KeyState} {es ws : List Entry} (h : collapse resolve mw ks es = .ok ws) :
    (ws.map (·.user)).Sublist (es.map (·.user)) := by
  induction es generalizing ks ws with
  | nil =>
    cases h
    exact List.Sublist.refl _
  | cons e es ih =>
    unfold collapse at h
    obtain ⟨⟨ks₁, w⟩, hstep, h⟩ := Except.bind_eq_ok.1 h
    obtain ⟨rest, hrest, h⟩ := Except.bind_eq_ok.1 h
    cases h
    cases w with
    | none => exact (ih hrest).cons _
    | some w =>
      have huser := (resolveCompactionEntry_key (mergeStep_written hstep).resolved).1
      simpa [huser] using ih hrest

theorem runCompaction_keys (h : runCompaction fmt s p readSeq cc now = .ok (metas, alloc)) :
    ((tablePoints metas).map (·.user)).Subperm ((tablePoints p.inputs).map (·.user)) := by
  obtain ⟨es, _, hperm, hcol, _, _⟩ := runCompaction_eq_ok h
  exact (collapse_keys hcol).subperm.trans (hperm.map _).subperm

theorem runCompaction_length_le (h : runCompaction fmt s p readSeq cc now = .ok (metas, alloc)) :
    (tablePoints metas).length + (tableRangeDels metas).length ≤
      (tablePoints p.inputs).length + (tableRangeDels p.inputs).length := by
  obtain ⟨_, _, _, _, hrts, _⟩ := runCompaction_eq_ok h
  have hpoints := (runCompaction_keys h).length_le
  rw [length_map, length_map] at hpoints
  have hspans : (tableRangeDels metas).length ≤ (tableRangeDels p.inputs).length := by
    rw [hrts, rangeDelsToPersist]
    split_ifs
    · exact Nat.le_refl _
    · exact length_filter_le _ _
  omega

theorem runCompaction_depth (h : runCompaction fmt s p readSeq cc now = .ok (metas, alloc)) :
    ∀ t ∈ metas, t.depth = p.outDepth := by
  obtain ⟨_, _, _, _, _, hfresh⟩ := runCompaction_eq_ok h
  exact fun t ht => (hfresh.tables t ht).2.2.1

theorem runCompaction_no_tombstones (hrec : ∀ k, p.reclaims k = true)
    (hlatest : ∀ e ∈ tablePoints p.inputs, e.seq ≤ readSeq)
    (h : runCompaction fmt s p readSeq cc now = .ok (metas, alloc)) :
    ∀ t ∈ metas, t.tombstones = 0 := by
  obtain ⟨es, _, hperm, hcol, _, hfresh⟩ := runCompaction_eq_ok h
  intro t ht
  rw [(hfresh.tables t ht).2.2.2, length_eq_zero_iff, filter_eq_nil_iff]
  intro w hw
  obtain ⟨e, he, hwritten⟩ := mem_collapse hcol (mem_tablePoints.2 ⟨t, ht, hw⟩)
  simpa using hwritten.kept (hrec e.user) (hlatest e (hperm.mem_iff.1 he))

end Commit

theorem keptTables_sublist (tables inputs : List TableMeta) :
    (keptTables tables inputs).Sublist tables := filter_sublist

theorem inputs_append_kept_subperm {tables inputs : List TableMeta}
    (hsub : inputs.Subperm tables) : (inputs ++ keptTables tables inputs).Subperm tables := by
  set named : TableMeta → Bool := fun t => inputs.any fun u => decide (u.num = t.num) with hnamed
  have hall : inputs.filter named = inputs :=
    filter_eq_self.2 fun t ht => List.any_eq_true.2 ⟨t, ht, by simp⟩
  have hinputs : inputs.Subperm (tables.filter named) := by
    have := hsub.filter named
    rwa [hall] at this
  refine (hinputs.append (List.Subperm.refl (keptTables tables inputs))).trans ?_
  exact (List.filter_append_perm named tables).subperm

theorem sum_map_le_of_subperm {α : Type} (f : α → Nat) {l l' : List α} (h : l.Subperm l') :
    (l.map f).sum ≤ (l'.map f).sum := by
  obtain ⟨m, hperm, hsub⟩ := h
  rw [← (hperm.map f).sum_nat]
  exact (hsub.map f).sum_le_sum (fun _ _ => Nat.zero_le _)

theorem scopeCompactionInputs_subperm (inputs : List TableMeta) (deeper : List KeyRange)
    (cc : CompactionConfig) : (scopeCompactionInputs inputs deeper cc).1.Subperm inputs := by
  have hsel : (selectOverlap inputs deeper cc).1.Subperm inputs := by
    unfold selectOverlap
    dsimp only
    split_ifs with hbest
    · have hne : largestGroup (overlapSets inputs) ≠ [] := by
        intro hnil
        simp [hnil] at hbest
      exact (sublist_flatten_of_mem (largestGroup_mem hne)).subperm.trans
        (overlapSets_flatten_perm inputs).subperm
    · exact List.Subperm.refl inputs
  unfold scopeCompactionInputs selectCapped
  dsimp only
  split_ifs
  · exact (take_sublist _ _).subperm.trans hsel
  · exact hsel

/-- How many more merges an entry of this tier can go through before it is in the cap. -/
def tierHeight (capDepth depth : Nat) : Nat := if depth ≤ capDepth then capDepth - depth else 1

/-- The work one table stands for; none in the cap. -/
def tableWork (capDepth : Nat) (t : TableMeta) : Nat :=
  if t.depth = capDepth then 0
  else 2 * (t.points.length + t.rangeDels.length) * tierHeight capDepth t.depth + 1

def capTombstones (capDepth : Nat) (tables : List TableMeta) : Nat :=
  ((tierTables tables capDepth).map (·.tombstones)).sum

def compactionWork (capDepth : Nat) (tables : List TableMeta) : Nat :=
  (tables.map (tableWork capDepth)).sum + if 0 < capTombstones capDepth tables then 1 else 0

section Work

variable {capDepth depth : Nat}

theorem tablesWork_eq (hdepth : depth ≠ capDepth) {ts : List TableMeta}
    (h : ∀ t ∈ ts, t.depth = depth) :
    (ts.map (tableWork capDepth)).sum =
      2 * ((tablePoints ts).length + (tableRangeDels ts).length) * tierHeight capDepth depth +
        ts.length := by
  induction ts with
  | nil => simp [tablePoints, tableRangeDels]
  | cons t ts ih =>
    have ht := h t mem_cons_self
    have hrest := ih fun u hu => h u (mem_cons_of_mem t hu)
    rw [map_cons, sum_cons, hrest, tableWork, if_neg (by rw [ht]; exact hdepth), ht]
    simp only [tablePoints, tableRangeDels, flatMap_cons, length_append,
      length_cons]
    ring

theorem tablesWork_cap {ts : List TableMeta} (h : ∀ t ∈ ts, t.depth = capDepth) :
    (ts.map (tableWork capDepth)).sum = 0 := by
  induction ts with
  | nil => rfl
  | cons t ts ih =>
    rw [map_cons, sum_cons, ih fun u hu => h u (mem_cons_of_mem t hu), tableWork,
      if_pos (h t mem_cons_self)]

theorem length_le_contents {ts : List TableMeta}
    (h : ∀ t ∈ ts, t.points ≠ [] ∨ t.rangeDels ≠ []) :
    ts.length ≤ (tablePoints ts).length + (tableRangeDels ts).length := by
  induction ts with
  | nil => exact Nat.zero_le _
  | cons t ts ih =>
    have hrest := ih fun u hu => h u (mem_cons_of_mem t hu)
    have hone : 1 ≤ t.points.length + t.rangeDels.length := by
      rcases h t mem_cons_self with hne | hne
      · have := length_pos_iff.2 hne
        omega
      · have := length_pos_iff.2 hne
        omega
    simp only [tablePoints, tableRangeDels, flatMap_cons, length_append,
      length_cons] at hrest ⊢
    omega

theorem hop_work {inputs metas : List TableMeta} {outDepth : Nat}
    (hdepth : depth < capDepth ∧ outDepth = depth + 1 ∨ capDepth < depth ∧ outDepth = capDepth)
    (hinputs : ∀ t ∈ inputs, t.depth = depth) (htwo : 2 ≤ inputs.length)
    (hmetas : ∀ t ∈ metas, t.depth = outDepth)
    (hfilled : ∀ t ∈ metas, t.points ≠ [] ∨ t.rangeDels ≠ [])
    (hle : (tablePoints metas).length + (tableRangeDels metas).length ≤
      (tablePoints inputs).length + (tableRangeDels inputs).length) :
    (metas.map (tableWork capDepth)).sum + 2 ≤ (inputs.map (tableWork capDepth)).sum := by
  rw [tablesWork_eq (by omega) hinputs]
  by_cases hout : outDepth = capDepth
  · rw [tablesWork_cap (hout ▸ hmetas)]
    omega
  · have hheight : tierHeight capDepth depth = tierHeight capDepth outDepth + 1 := by
      unfold tierHeight
      split_ifs <;> omega
    have hcount := length_le_contents hfilled
    rw [tablesWork_eq hout hmetas, hheight]
    have hmul := Nat.mul_le_mul_right (tierHeight capDepth outDepth) (Nat.mul_le_mul_left 2 hle)
    have hsucc := Nat.mul_add_one (2 *
      ((tablePoints inputs).length + (tableRangeDels inputs).length))
      (tierHeight capDepth outDepth)
    omega

end Work

theorem maxDepthOf_le {tables : List TableMeta} {n : Nat} (h : ∀ t ∈ tables, t.depth ≤ n) :
    maxDepthOf tables ≤ n := by
  have hfold : ∀ (tables : List TableMeta) (m : Nat), m ≤ n → (∀ t ∈ tables, t.depth ≤ n) →
      tables.foldl (fun m t => max m t.depth) m ≤ n := by
    intro tables
    induction tables with
    | nil => exact fun m hm _ => hm
    | cons t tables ih =>
      intro m hm hall
      exact ih _ (max_le hm (hall t mem_cons_self))
        fun u hu => hall u (mem_cons_of_mem t hu)
  rw [maxDepthOf, foldl_map]
  exact hfold tables 0 (Nat.zero_le n) h

theorem exists_maxDepthOf {tables : List TableMeta} (h : 0 < maxDepthOf tables) :
    ∃ t ∈ tables, t.depth = maxDepthOf tables := by
  by_contra hnone
  have hle : maxDepthOf tables ≤ maxDepthOf tables - 1 := maxDepthOf_le fun t ht => by
    have := le_maxDepthOf ht
    have : t.depth ≠ maxDepthOf tables := fun heq => hnone ⟨t, ht, heq⟩
    omega
  omega

section Round

variable {fl : Rounding} {fmt : TableFormat} {o : Options} {now : Time} {readSeq : Nat}
  {s s' : Engine}

/-- The cap is merged in place only while it is the deepest tier. -/
def CapIsDeepest (fl : Rounding) (o : Options) (s : Engine) : Prop :=
  pickCompaction fl o s = some (resolveMaxDepth o.maxLevels) →
    ∀ t ∈ s.tables, t.depth ≤ resolveMaxDepth o.maxLevels

structure Draining (o : Options) (readSeq : Nat) (s : Engine) : Prop where
  levels : s.cfg.maxLevels = o.maxLevels
  latest : ∀ e ∈ tablePoints s.tables, e.seq ≤ readSeq

theorem compactOnce_stops (hratio : 2 ≤ o.tierRatio) {b : LoopEnd}
    (h : compactOnce fl fmt o now readSeq s = .inl b) :
    (pickCompaction fl o s = none ∧ b = .idle s) ∨
      ∃ depth err, pickCompaction fl o s = some depth ∧
        compact fmt s depth readSeq (o.compactionConfig now) now = .error err ∧ b = .failed err :=
        by
  unfold compactOnce at h
  cases hpick : pickCompaction fl o s with
  | none =>
    rw [hpick] at h
    exact Or.inl ⟨rfl, (Sum.inl.inj h).symm⟩
  | some depth =>
    rw [hpick] at h
    dsimp only at h
    have htwo := two_le_of_tierReady hratio (pickCompaction_eq_some hpick)
    obtain ⟨p, hplan⟩ : ∃ p, planCompact s.tables depth (o.compactionConfig now) = some p :=
      planCompact_of_two htwo
    cases hrun : compact fmt s depth readSeq (o.compactionConfig now) now with
    | error err =>
      rw [hrun] at h
      exact Or.inr ⟨depth, err, rfl, hrun, (Sum.inl.inj h).symm⟩
    | ok s₁ =>
      obtain ⟨metas, alloc, _, rfl⟩ := compact_of_plan hplan hrun
      rw [hrun] at h
      simp [commitCompaction] at h

theorem compactOnce_continues (h : compactOnce fl fmt o now readSeq s = .inr s') :
    ∃ depth, pickCompaction fl o s = some depth ∧
      compact fmt s depth readSeq (o.compactionConfig now) now = .ok s' := by
  unfold compactOnce at h
  cases hpick : pickCompaction fl o s with
  | none =>
    rw [hpick] at h
    cases h
  | some depth =>
    rw [hpick] at h
    dsimp only at h
    cases hrun : compact fmt s depth readSeq (o.compactionConfig now) now with
    | error err =>
      rw [hrun] at h
      cases h
    | ok s₁ =>
      rw [hrun] at h
      dsimp only at h
      split_ifs at h
      exact ⟨depth, rfl, by rw [← Sum.inr.inj h, hrun]⟩

theorem resolveOutDepth_compactionConfig (o : Options) (now : Time) (depth : Nat) :
    resolveOutDepth depth (o.compactionConfig now) =
      if depth + 1 ≤ resolveMaxDepth o.maxLevels then depth + 1
      else resolveMaxDepth o.maxLevels := rfl

theorem hop_lowers_work {depth : Nat} (htwo : 2 ≤ (tierTables s.tables depth).length)
    (hdepth : depth ≠ resolveMaxDepth o.maxLevels)
    (h : compact fmt s depth readSeq (o.compactionConfig now) now = .ok s') :
    compactionWork (resolveMaxDepth o.maxLevels) s'.tables <
      compactionWork (resolveMaxDepth o.maxLevels) s.tables := by
  set capDepth := resolveMaxDepth o.maxLevels with hcap
  have hout := resolveOutDepth_compactionConfig o now depth
  rw [← hcap] at hout
  have hmove : resolveOutDepth depth (o.compactionConfig now) ≠ depth := by
    rw [hout]
    split_ifs <;> omega
  obtain ⟨p, hplan, hpout, hptwo, hinputs⟩ := planCompact_hop htwo hmove
  obtain ⟨metas, alloc, hrun, rfl⟩ := compact_of_plan hplan h
  have hsub : p.inputs.Subperm (tierTables s.tables depth) :=
    hinputs ▸ scopeCompactionInputs_subperm _ _ _
  have htier : ∀ t ∈ p.inputs, t.depth = depth := by
    intro t ht
    simpa using (mem_filter.1 (hsub.subset ht)).2
  have hwork : (metas.map (tableWork capDepth)).sum + 2 ≤
      (p.inputs.map (tableWork capDepth)).sum :=
    hop_work (by rw [hpout, hout]; split_ifs <;> omega) htier hptwo (runCompaction_depth hrun)
      (runCompaction_filled hrun) (runCompaction_length_le hrun)
  have hall := sum_map_le_of_subperm (tableWork capDepth)
    (inputs_append_kept_subperm (hsub.trans filter_sublist.subperm))
  rw [map_append, sum_append] at hall
  unfold compactionWork
  change ((keptTables s.tables p.inputs ++ metas).map (tableWork capDepth)).sum + _ < _
  rw [map_append, sum_append]
  split_ifs <;> omega

theorem cap_lowers_work (hcapLevel : ∀ t ∈ s.tables, t.depth ≤ resolveMaxDepth o.maxLevels)
    (htwo : 2 ≤ (tierTables s.tables (resolveMaxDepth o.maxLevels)).length)
    (htombs : 0 < capTombstones (resolveMaxDepth o.maxLevels) s.tables)
    (hlatest : ∀ e ∈ tablePoints s.tables, e.seq ≤ readSeq)
    (h : compact fmt s (resolveMaxDepth o.maxLevels) readSeq (o.compactionConfig now) now =
      .ok s') :
    compactionWork (resolveMaxDepth o.maxLevels) s'.tables <
      compactionWork (resolveMaxDepth o.maxLevels) s.tables := by
  set capDepth := resolveMaxDepth o.maxLevels with hcap
  have hstay : resolveOutDepth capDepth (o.compactionConfig now) = capDepth := by
    rw [resolveOutDepth_compactionConfig, ← hcap, if_neg (by omega)]
  have hdeepest : capDepth = maxDepthOf s.tables := by
    obtain ⟨t, ht⟩ := exists_mem_of_length_pos (by omega :
      0 < (tierTables s.tables capDepth).length)
    obtain ⟨hmem, hdepth⟩ := mem_filter.1 ht
    have hle := le_maxDepthOf hmem
    have hle' := maxDepthOf_le hcapLevel
    have : t.depth = capDepth := by simpa using hdepth
    omega
  have hplan := planCompact_whole htwo hstay hdeepest
  obtain ⟨metas, alloc, hrun, rfl⟩ := compact_of_plan hplan h
  have hsub : ∀ t ∈ wholeTierInputs s.tables capDepth, t ∈ s.tables := by
    intro t ht
    exact (overlapSets_flatten_perm s.tables).mem_iff.1
      (filter_sublist.flatten.subset ht)
  -- No table of the cap stays, and the new ones hold no tombstone.
  have hgone : capTombstones capDepth (keptTables s.tables (wholeTierInputs s.tables capDepth) ++
      metas) = 0 := by
    refine sum_eq_zero fun n hn => ?_
    obtain ⟨t, ht, rfl⟩ := List.mem_map.1 hn
    obtain ⟨hmem, hdepth⟩ := mem_filter.1 ht
    rcases mem_append.1 hmem with hkept | hmeta
    · obtain ⟨hlive, hnum⟩ := mem_keptTables.1 hkept
      exact absurd rfl (hnum t (mem_wholeTierInputs hlive (by simpa using hdepth)))
    · refine runCompaction_no_tombstones (fun _ => rfl) (fun e he => ?_) hrun t hmeta
      obtain ⟨u, hu, heu⟩ := mem_tablePoints.1 he
      exact hlatest e (mem_tablePoints.2 ⟨u, hsub u hu, heu⟩)
  have hmetas := tablesWork_cap (runCompaction_depth hrun)
  have hkept := sum_map_le_of_subperm (tableWork capDepth)
    (keptTables_sublist s.tables (wholeTierInputs s.tables capDepth)).subperm
  unfold compactionWork
  change ((keptTables s.tables (wholeTierInputs s.tables capDepth) ++ metas).map
    (tableWork capDepth)).sum + (if 0 < capTombstones capDepth (keptTables s.tables
      (wholeTierInputs s.tables capDepth) ++ metas) then 1 else 0) < _
  rw [map_append, sum_append, hgone, if_pos htombs, if_neg (by omega)]
  change (metas.map (tableWork capDepth)).sum = 0 at hmetas
  omega

theorem compact_latest {depth : Nat} (hlatest : ∀ e ∈ tablePoints s.tables, e.seq ≤ readSeq)
    (htwo : 2 ≤ (tierTables s.tables depth).length)
    (h : compact fmt s depth readSeq (o.compactionConfig now) now = .ok s') :
    s'.cfg = s.cfg ∧ ∀ e ∈ tablePoints s'.tables, e.seq ≤ readSeq := by
  obtain ⟨p, hplan⟩ : ∃ p, planCompact s.tables depth (o.compactionConfig now) = some p :=
    planCompact_of_two htwo
  obtain ⟨metas, alloc, hrun, rfl⟩ := compact_of_plan hplan h
  refine ⟨rfl, fun w hw => ?_⟩
  obtain ⟨t, ht, hwt⟩ := mem_tablePoints.1 hw
  rcases mem_append.1 ht with ht | ht
  · exact hlatest w (mem_tablePoints.2 ⟨t, (mem_keptTables.1 ht).1, hwt⟩)
  · obtain ⟨es, _, hperm, hcol, _, _⟩ := runCompaction_eq_ok hrun
    obtain ⟨e, he, hwritten⟩ := mem_collapse hcol (mem_tablePoints.2 ⟨t, ht, hwt⟩)
    obtain ⟨u, hu, heu⟩ := mem_tablePoints.1 (hperm.mem_iff.1 he)
    rw [(restates_of_resolve rfl hwritten.resolved).2.1]
    exact hlatest e (mem_tablePoints.2 ⟨u, planCompact_subset hplan u hu, heu⟩)

theorem compactOnce_lowers_work (hratio : 2 ≤ o.tierRatio) (hs : Draining o readSeq s)
    (hcap : CapIsDeepest fl o s) (h : compactOnce fl fmt o now readSeq s = .inr s') :
    Draining o readSeq s' ∧ compactionWork (resolveMaxDepth o.maxLevels) s'.tables <
      compactionWork (resolveMaxDepth o.maxLevels) s.tables := by
  obtain ⟨depth, hpick, hrun⟩ := compactOnce_continues h
  have hready := pickCompaction_eq_some hpick
  have htwo := two_le_of_tierReady hratio hready
  obtain ⟨hcfg, hlatest⟩ := compact_latest hs.latest htwo hrun
  refine ⟨⟨by rw [hcfg, hs.levels], hlatest⟩, ?_⟩
  by_cases hdepth : depth = resolveMaxDepth o.maxLevels
  · subst hdepth
    refine cap_lowers_work (hcap hpick) htwo ?_ hs.latest hrun
    rw [hs.levels] at hready
    exact tombstones_pos_of_tierReady (Nat.le_refl _) hready
  · exact hop_lowers_work htwo hdepth hrun

theorem compactOnce_withinCap (hratio : 2 ≤ o.tierRatio)
    (hwithin : ∀ t ∈ s.tables, t.depth ≤ resolveMaxDepth o.maxLevels)
    (h : compactOnce fl fmt o now readSeq s = .inr s') :
    ∀ t ∈ s'.tables, t.depth ≤ resolveMaxDepth o.maxLevels := by
  obtain ⟨depth, hpick, hrun⟩ := compactOnce_continues h
  have htwo := two_le_of_tierReady hratio (pickCompaction_eq_some hpick)
  obtain ⟨p, hplan⟩ : ∃ p, planCompact s.tables depth (o.compactionConfig now) = some p :=
    planCompact_of_two htwo
  obtain ⟨metas, alloc, hmerge, rfl⟩ := compact_of_plan hplan hrun
  intro t ht
  rcases mem_append.1 ht with hkept | hmeta
  · exact hwithin t (mem_keptTables.1 hkept).1
  · rw [runCompaction_depth hmerge t hmeta, planCompact_outDepth hplan,
      resolveOutDepth_compactionConfig]
    split_ifs <;> omega

theorem capIsDeepest_of_withinCap (hratio : 2 ≤ o.tierRatio)
    (hwithin : ∀ t ∈ s.tables, t.depth ≤ resolveMaxDepth o.maxLevels)
    (hreach : Loop.Reaches (compactOnce fl fmt o now readSeq) s s') : CapIsDeepest fl o s' := by
  have hall : ∀ t ∈ s'.tables, t.depth ≤ resolveMaxDepth o.maxLevels := by
    induction hreach with
    | refl => exact hwithin
    | tail _ hround ih => exact compactOnce_withinCap hratio ih hround
  exact fun _ => hall

/-- Background compaction runs dry, or stops at a merge that fails, within a number
of rounds that the table set alone bounds, and every round before that merges. It runs dry
where no merge fails. -/
theorem background_compaction_ends (haccepted : o.validate = .ok ()) (hs : Draining o readSeq s)
    (hcap : ∀ s₁, Loop.Reaches (compactOnce fl fmt o now readSeq) s s₁ → CapIsDeepest fl o s₁) :
    ∃ b, Loop.run (compactOnce fl fmt o now readSeq)
        (compactionWork (resolveMaxDepth o.maxLevels) s.tables + 1) s = some b ∧
      (∃ s₁, Loop.Reaches (compactOnce fl fmt o now readSeq) s s₁ ∧
        ((pickCompaction fl o s₁ = none ∧ b = .idle s₁) ∨
          ∃ depth err, pickCompaction fl o s₁ = some depth ∧
            compact fmt s₁ depth readSeq (o.compactionConfig now) now = .error err ∧
            b = .failed err)) ∧
      ((∀ s₁ depth, Loop.Reaches (compactOnce fl fmt o now readSeq) s s₁ →
          pickCompaction fl o s₁ = some depth →
          ∃ s₂, compact fmt s₁ depth readSeq (o.compactionConfig now) now = .ok s₂) →
        ∃ s₁, pickCompaction fl o s₁ = none ∧ b = .idle s₁) := by
  have hratio := (Options.accepted_of_validate haccepted).tierRatio
  obtain ⟨b, s₁, hrun, hreach, _, hstop⟩ := Loop.run_within
    (P := fun s₁ => Draining o readSeq s₁ ∧
      ∀ s₂, Loop.Reaches (compactOnce fl fmt o now readSeq) s₁ s₂ → CapIsDeepest fl o s₂)
    (fun s₁ => compactionWork (resolveMaxDepth o.maxLevels) s₁.tables)
    (fun s₁ s₂ hP hround => by
      obtain ⟨hdrain, hlower⟩ := compactOnce_lowers_work hratio hP.1 (hP.2 s₁ .refl) hround
      exact ⟨⟨hdrain, fun s₃ hs₃ => hP.2 s₃ (.head hround hs₃)⟩, hlower⟩)
    ⟨hs, hcap⟩ (Nat.lt_succ_self _)
  have hend := compactOnce_stops hratio hstop
  refine ⟨b, hrun, ⟨s₁, hreach, hend⟩, fun hmerges => ?_⟩
  rcases hend with hidle | ⟨depth, err, hpick, hfail, -⟩
  · exact ⟨s₁, hidle⟩
  · obtain ⟨s₂, hok⟩ := hmerges s₁ depth hreach hpick
    rw [hok] at hfail
    cases hfail

end Round

/-- Every entry ends its table. -/
def unitFormat : TableFormat := ⟨fun es rts => es.length + rts.length, fun es => es.length⟩

def lowCapOptions : Options :=
  Options.fillDefaults { defaultOptions with
    minCompactionTables := 2
    maxLevels := 2
    fileSizeBase := 1
    fileSizeMax := 1 }

/-- Left by an earlier session that had more tiers. -/
def deepTable : TableMeta :=
  finishTable unitFormat 10 1 5 ⟨[⟨⟨[97], 1, .set⟩, [1]⟩, ⟨⟨[122], 2, .set⟩, [2]⟩], by decide⟩ []

def tombstone (seq : Nat) (key : Key) : Entry := ⟨⟨key, seq, .delete⟩, []⟩

def tombstoneTable (num seq : Nat) (key : Key) : TableMeta :=
  finishTable unitFormat 10 num 1 ⟨[tombstone seq key], pairwise_singleton _ _⟩ []

/-- Two tombstones in the cap, both inside the bounds of the deeper table. -/
def crowdedCap (n : Nat) : Engine where
  cfg := lowCapOptions.engineConfig
  alloc := n + 3
  mem := newMemtable
  imm := none
  recoveryMems := []
  tables := [deepTable, tombstoneTable (n + 2) 10 [98], tombstoneTable (n + 3) 11 [99]]
  blobs := []
  lastCompactionDone := true

def LoopEnd.isIdle : LoopEnd → Bool
  | .idle _ => true
  | _ => false

def cappedStore : Engine :=
  { crowdedCap 0 with tables := [tombstoneTable 2 10 [98], tombstoneTable 3 11 [99]] }

theorem background_compaction_ends_cappedStore :
    lowCapOptions.validate = .ok () ∧ Draining lowCapOptions 11 cappedStore ∧
      ∃ s₁, Loop.run (compactOnce .exact unitFormat lowCapOptions 100 11)
          (compactionWork (resolveMaxDepth lowCapOptions.maxLevels) cappedStore.tables + 1)
          cappedStore = some (.idle s₁) ∧
        Loop.Reaches (compactOnce .exact unitFormat lowCapOptions 100 11) cappedStore s₁ ∧
        pickCompaction .exact lowCapOptions s₁ = none := by
  have haccepted : lowCapOptions.validate = .ok () := by decide +kernel
  have hdraining : Draining lowCapOptions 11 cappedStore := ⟨rfl, by decide⟩
  have hwithin : ∀ t ∈ cappedStore.tables, t.depth ≤ resolveMaxDepth lowCapOptions.maxLevels := by
    decide
  refine ⟨haccepted, hdraining, ?_⟩
  obtain ⟨b, hrun, ⟨s₁, hreach, hend⟩, -⟩ := background_compaction_ends haccepted hdraining
    fun s₁ hs₁ => capIsDeepest_of_withinCap (by decide) hwithin hs₁
  rcases hend with ⟨hpick, rfl⟩ | ⟨depth, err, -, -, rfl⟩
  · exact ⟨s₁, hrun, hreach, hpick⟩
  · have hidle : (Loop.run (compactOnce .exact unitFormat lowCapOptions 100 11)
        (compactionWork (resolveMaxDepth lowCapOptions.maxLevels) cappedStore.tables + 1)
        cappedStore).any LoopEnd.isIdle = true := by decide +kernel
    rw [hrun] at hidle
    cases hidle

theorem tierReady_crowdedCap (fl : Rounding) (n : Nat) :
    tierReady fl 1 lowCapOptions (crowdedCap n).tables 5 = false ∧
      tierReady fl 1 lowCapOptions (crowdedCap n).tables 1 = true := by
  refine ⟨?_, ?_⟩
  · rw [tierReady, if_pos ⟨by decide, by decide, by show ((1 : Nat) : Int) < 2; decide⟩]
  · have hfrac : 1 / 2 ≤ tombstoneFraction fl 2 2 := by
      rw [tombstoneFraction, div_self (by decide), fl.round_one]
      norm_num
    have hpos : decide ((0 : ℚ) < 1 / 2) = true := decide_eq_true (by norm_num)
    rw [tierReady, if_neg fun h => absurd h.2.2 (by show ¬ ((2 : Nat) : Int) < 2; decide)]
    refine Bool.or_eq_true_iff.2 (Or.inr (Bool.and_eq_true_iff.2 ⟨?_, decide_eq_true hfrac⟩))
    show (decide ((0 : ℚ) < 1 / 2) && _ && _) = true
    rw [hpos]
    rfl

theorem pick_crowdedCap (fl : Rounding) (n : Nat) :
    pickCompaction fl lowCapOptions (crowdedCap n) = some 1 := by
  obtain ⟨hdeep, hcap⟩ := tierReady_crowdedCap fl n
  show ([5, 1, 1].filter (tierReady fl 1 lowCapOptions (crowdedCap n).tables)).min? = some 1
  simp [hdeep, hcap]

theorem keptTables_crowdedCap (n : Nat) :
    keptTables (crowdedCap n).tables
      [tombstoneTable (n + 2) 10 [98], tombstoneTable (n + 3) 11 [99]] = [deepTable] := by
  simp [keptTables, crowdedCap, tombstoneTable, deepTable, finishTable]

def crowdedMerge : MergeWrite :=
  ⟨1, false, some fun user => !rangesMayContain [(some [97], some [122])] user, 11,
    lowCapOptions.compactionConfig 100, 100, []⟩

theorem write_of_closed (alloc : Nat) (metas : List TableMeta) (e : Entry) :
    CompactionSink.write ⟨alloc, none, metas, []⟩ (some e) = .error .fileNumberExhausted ∨
      CompactionSink.write ⟨alloc, none, metas, []⟩ (some e) =
        .ok ⟨alloc + 1, some (alloc + 1, ⟨[e], pairwise_singleton _ _⟩), metas, []⟩ := by
  show (CompactionSink.start ⟨alloc, none, metas, []⟩).bind _ = _ ∨
    (CompactionSink.start ⟨alloc, none, metas, []⟩).bind _ = _
  rw [CompactionSink.start, allocNext]
  split_ifs
  · exact Or.inl rfl
  · exact Or.inr rfl

theorem writeMerged_crowdedMerge (resolve : BlobPointer → Except Err Bytes) (alloc : Nat) :
    writeMerged unitFormat resolve crowdedMerge alloc ([tombstone 10 [98], tombstone 11 [99]],
      none) =
      .error .fileNumberExhausted ∨
    writeMerged unitFormat resolve crowdedMerge alloc ([tombstone 10 [98], tombstone 11 [99]],
      none) =
      .ok ([tombstoneTable (alloc + 1) 10 [98], tombstoneTable (alloc + 2) 11 [99]], alloc + 2) :=
      by
  show (Except.bind (Except.bind (CompactionSink.write ⟨alloc, none, [], []⟩ _) _) _) = _ ∨
    (Except.bind (Except.bind (CompactionSink.write ⟨alloc, none, [], []⟩ _) _) _) = _
  rcases write_of_closed alloc [] (tombstone 10 [98]) with h | h <;> rw [h]
  · exact Or.inl rfl
  show (Except.bind (Except.bind (CompactionSink.write
      ⟨alloc + 1, none, [tombstoneTable (alloc + 1) 10 [98]], []⟩ _) _) _) = _ ∨
    (Except.bind (Except.bind (CompactionSink.write
      ⟨alloc + 1, none, [tombstoneTable (alloc + 1) 10 [98]], []⟩ _) _) _) = _
  rcases write_of_closed (alloc + 1) [tombstoneTable (alloc + 1) 10 [98]]
    (tombstone 11 [99]) with h | h <;> rw [h]
  · exact Or.inl rfl
  · exact Or.inr rfl

theorem compact_crowdedCap (n : Nat) :
    compact unitFormat (crowdedCap n) 1 11 (lowCapOptions.compactionConfig 100) 100 =
        .error .fileNumberExhausted ∨
      compact unitFormat (crowdedCap n) 1 11 (lowCapOptions.compactionConfig 100) 100 =
        .ok (crowdedCap (n + 2)) := by
  have hplan : planCompact (crowdedCap n).tables 1 (lowCapOptions.compactionConfig 100) =
      some (hopPlan ([tombstoneTable (n + 2) 10 [98], tombstoneTable (n + 3) 11 [99]],
        [(some [97], some [122])]) 1 false) := by rfl
  have hrun : compact unitFormat (crowdedCap n) 1 11 (lowCapOptions.compactionConfig 100) 100 =
      (writeMerged unitFormat (resolveBlob (crowdedCap n)) crowdedMerge (n + 3)
        ([tombstone 10 [98], tombstone 11 [99]], none)).bind fun r =>
          .ok (commitCompaction (crowdedCap n)
            [tombstoneTable (n + 2) 10 [98], tombstoneTable (n + 3) 11 [99]] r.1 r.2) := by
    rw [compact, hplan]
    rfl
  rw [hrun]
  rcases writeMerged_crowdedMerge (resolveBlob (crowdedCap n)) (n + 3) with h | h
  · left
    rw [h]
    rfl
  · right
    rw [h]
    show Except.ok (commitCompaction _ _ _ _) = _
    rw [commitCompaction, keptTables_crowdedCap]
    rfl

theorem compactOnce_crowdedCap (fl : Rounding) (n : Nat) :
    compactOnce fl unitFormat lowCapOptions 100 11 (crowdedCap n) =
        .inl (.failed .fileNumberExhausted) ∨
      compactOnce fl unitFormat lowCapOptions 100 11 (crowdedCap n) = .inr (crowdedCap (n + 2)) :=
      by
  rw [compactOnce, pick_crowdedCap]
  dsimp only
  rcases compact_crowdedCap n with h | h <;> rw [h]
  · exact Or.inl rfl
  · exact Or.inr rfl

/-- Every merge of the two tombstones writes them again, so no number of rounds is enough. -/
theorem background_compaction_never_idle :
    lowCapOptions.validate = .ok () ∧ Draining lowCapOptions 11 (crowdedCap 0) ∧
      ∀ fl fuel s, Loop.run (compactOnce fl unitFormat lowCapOptions 100 11) fuel (crowdedCap 0) ≠
        some (.idle s) := by
  refine ⟨by decide +kernel, ⟨rfl, by decide⟩, ?_⟩
  intro fl fuel s
  generalize 0 = n
  induction fuel generalizing n with
  | zero => simp [Loop.run]
  | succ fuel ih =>
    rcases compactOnce_crowdedCap fl n with h | h <;> rw [Loop.run, h]
    · simp
    · exact ih (n + 2)

end LevisDB
