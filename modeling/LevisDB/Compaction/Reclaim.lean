import LevisDB.Compaction.Repeat

/-!
# What a manual compaction reclaims

Which tables the last pass of `CompactRange` will read can be told beforehand
for two sorts of tables: those whose keys a table of the deepest tier may hold,
and those in tiers that every hop moves as a whole.
-/

namespace LevisDB

open List

/-- A table of the deepest tier may hold the key. -/
def Anchored (tables : List TableMeta) (k : Key) : Prop :=
  ∃ t ∈ tierTables tables (maxDepthOf tables), t.mayContain k = true

/-- The hop of this tier moves all of it: there are two tables, and selection is off
or, in the first tier the cascade meets, selects everything. -/
structure TakesWhole (s : Engine) (cc : CompactionConfig) (depth : Nat) : Prop where
  belowCap : depth < resolveMaxDepth cc.maxLevels
  two : 2 ≤ (tierTables s.tables depth).length
  selected : (cc.overlapSelection = false ∧ cc.maxCompactionBytes ≤ 0) ∨
    s.rotate.2 = false ∧ (∀ t ∈ s.tables, depth ≤ t.depth) ∧
      (scopeCompactionInputs (tierTables s.tables depth) (outsideRanges s.tables depth) cc).1 =
        tierTables s.tables depth

/-- The hops move this tier, and all they add to it, into the deepest one. -/
def Sinks (s : Engine) (cc : CompactionConfig) (depth : Nat) : Prop :=
  ∀ d, depth ≤ d → d < maxDepthOf s.tables → TakesWhole s cc d

def TableMeta.All (P : Entry → Prop) (R : RangeTombstone → Prop) (t : TableMeta) : Prop :=
  (∀ e ∈ t.points, P e) ∧ ∀ rt ∈ t.rangeDels, R rt

/-- Everything is in a tier of this sort or satisfies the two predicates. -/
structure Engine.Places (s : Engine) (sinks : Nat → Prop) (P : Entry → Prop)
    (R : RangeTombstone → Prop) : Prop where
  tables : ∀ t ∈ s.tables, sinks t.depth ∨ t.All P R
  memtables : sinks 0 ∨ ((∀ e ∈ memPoints s.memtables, P e) ∧ ∀ rt ∈ memRangeDels s.memtables, R rt)

/-- A flush or a merge without a filter has made `w` of `e`. -/
structure SameVersion (now : Time) (e w : Entry) : Prop where
  user : w.user = e.user
  seq : w.seq = e.seq
  dead : w.payload.liveAt now = none ↔ e.payload.liveAt now = none

def Persists (now : Time) (P : Entry → Prop) : Prop := ∀ e w, SameVersion now e w → P e → P w

/-- The tables before the hop of this tier. -/
structure Cascade (s : Engine) (sinks : Nat → Prop) (P : Entry → Prop) (R : RangeTombstone → Prop)
    (depth : Nat) (tables : List TableMeta) : Prop where
  deepest : maxDepthOf tables = maxDepthOf s.tables
  waiting : ∀ t ∈ s.tables, depth ≤ t.depth → t ∈ tables
  unmoved : s.rotate.2 = false → (∀ t ∈ s.tables, depth ≤ t.depth) → tables = s.tables
  placed : ∀ t ∈ tables, depth ≤ t.depth ∧ sinks t.depth ∨ t.All P R

section Hops

variable {fmt : TableFormat} {readSeq retain : Nat} {s s₁ s₂ : Engine} {cc : CompactionConfig}
  {now : Time} {sinks : Nat → Prop} {P : Entry → Prop} {R : RangeTombstone → Prop} {depth : Nat}

theorem UniqueNums.tier_length_le {tables tables' : List TableMeta} (huniq : UniqueNums tables)
    (hsub : ∀ t ∈ tables, t.depth = depth → t ∈ tables') :
    (tierTables tables depth).length ≤ (tierTables tables' depth).length := by
  refine (subperm_of_subset ((List.Nodup.of_map _ huniq).filter _) fun t ht => ?_).length_le
  obtain ⟨hmem, hdepth⟩ := mem_filter.1 ht
  exact mem_filter.2 ⟨hsub t hmem (by simpa using hdepth), hdepth⟩

theorem runCompaction_all {p : CompactionPlan} (hfilter : cc.filter = none)
    (hcut : cc.expiry now = now) (hP : Persists now P)
    (hinputs : ∀ t ∈ p.inputs, t.All P R) {metas : List TableMeta} {alloc : Nat}
    (h : runCompaction fmt s p retain cc now = .ok (metas, alloc)) : ∀ t ∈ metas, t.All P R := by
  obtain ⟨es, _, hperm, hcol, hrts, _⟩ := runCompaction_eq_ok h
  refine fun t ht => ⟨fun w hw => ?_, fun rt hrt => ?_⟩
  · obtain ⟨e, he, hwritten⟩ := mem_collapse hcol (mem_tablePoints.2 ⟨t, ht, hw⟩)
    obtain ⟨u, hu, heu⟩ := mem_tablePoints.1 (hperm.mem_iff.1 he)
    obtain ⟨huser, hseq, hlive⟩ := restates_of_resolve hfilter hwritten.resolved
    have hsame := hlive now (le_of_eq hcut)
    exact hP e w ⟨huser, hseq, by rw [hsame]⟩ ((hinputs u hu).1 e heu)
  · have hmem : rt ∈ tableRangeDels metas := mem_tableRangeDels.2 ⟨t, ht, hrt⟩
    rw [hrts] at hmem
    obtain ⟨u, hu, hrtu⟩ := mem_tableRangeDels.1 (rangeDelsToPersist_subset hmem)
    exact (hinputs u hu).2 rt hrtu

variable (hsinks : ∀ d, sinks d → d < maxDepthOf s.tables → TakesWhole s cc d ∧ sinks (d + 1))
include hsinks

theorem Cascade.takes (h : Cascade s sinks P R depth s₁.tables) (huniq : UniqueNums s.tables)
    (hdepth : depth < maxDepthOf s.tables) (hsink : sinks depth) :
    2 ≤ (tierTables s₁.tables depth).length ∧
      (scopeCompactionInputs (tierTables s₁.tables depth) (outsideRanges s₁.tables depth) cc).1 =
        tierTables s₁.tables depth := by
  obtain ⟨_, htwo, hselected⟩ := (hsinks depth hsink hdepth).1
  refine ⟨Nat.le_trans htwo (huniq.tier_length_le fun t ht heq => h.waiting t ht heq.ge), ?_⟩
  rcases hselected with ⟨hoverlap, hbytes⟩ | ⟨hidle, hfirst, hall⟩
  · unfold scopeCompactionInputs selectCapped selectOverlap
    simp [hoverlap, Int.not_lt.2 hbytes]
  · rw [h.unmoved hidle hfirst]
    exact hall

theorem Cascade.hop (h : Cascade s sinks P R depth s₁.tables) (huniq : UniqueNums s.tables)
    (hs₁ : s₁.Housed readSeq) (hin : cc.collapseInPlace = false)
    (hsingle : cc.rewriteSingle = false) (hcut : cc.expiry now = now)
    (hP : Persists now P) (hdepth : depth < maxDepthOf s.tables)
    (hhop : compact fmt s₁ depth retain { cc with filter := none } now = .ok s₂) :
    Cascade s sinks P R (depth + 1) s₂.tables := by
  have hdeep : depth < maxDepthOf s₁.tables := h.deepest ▸ hdepth
  have hlower : ∀ t ∈ s₁.tables, t.depth ≠ depth →
      depth + 1 ≤ t.depth ∧ sinks t.depth ∨ t.All P R := fun t ht hne =>
    (h.placed t ht).imp_left fun hsink => ⟨Nat.lt_of_le_of_ne hsink.1 hne.symm, hsink.2⟩
  cases hplan : planCompact s₁.tables depth { cc with filter := none } with
  | none =>
    have hone := (planCompact_hop_eq_none_iff (by exact hsingle)).1 hplan
    rw [compact, hplan] at hhop
    cases hhop
    refine ⟨h.deepest, fun t ht hle => h.waiting t ht (Nat.le_of_succ_le hle),
      fun hidle hall => h.unmoved hidle fun t ht => Nat.le_of_succ_le (hall t ht), fun t ht => ?_⟩
    by_cases heq : t.depth = depth
    · refine Or.inr ((h.placed t ht).resolve_left fun hsink => ?_)
      have := (h.takes hsinks huniq hdepth (heq ▸ hsink.2)).1
      omega
    · exact hlower t ht heq
  | some p =>
    obtain ⟨hmax, _⟩ := compact_hop_keeps hs₁ (by exact hin) hdeep hhop
    obtain ⟨_, hp⟩ := planCompact_above (by exact hin) hdeep hplan
    obtain ⟨metas, alloc, hrun, rfl⟩ := compact_of_plan hplan hhop
    have hsub := planCompact_subset hplan
    have htier : ∀ t ∈ p.inputs, t.depth = depth := by
      intro t ht
      rw [hp] at ht
      simpa using (mem_filter.1 (scopeCompactionInputs_subset ht)).2
    refine ⟨hmax.trans h.deepest, fun t ht hle => ?_, fun hidle hall => ?_, fun t ht => ?_⟩
    · refine mem_append_left _ (mem_keptTables.2 ⟨h.waiting t ht (by omega), ?_⟩)
      intro u hu hnum
      obtain rfl := hs₁.uniqueNums.eq_of_num (hsub u hu) (h.waiting t ht (by omega)) hnum
      have := htier u hu
      omega
    · -- the tier of the hop was empty
      have hsame := h.unmoved hidle fun t ht => Nat.le_of_succ_le (hall t ht)
      have hnone : (tierTables s₁.tables depth).length ≤ 1 := by
        rw [hsame, tierTables, filter_eq_nil_iff.2 fun t ht => ?_]
        · exact Nat.zero_le _
        · have := hall t ht
          simp
          omega
      rw [(planCompact_hop_eq_none_iff (by exact hsingle)).2 hnone] at hplan
      cases hplan
    · rcases mem_append.1 ht with ht | ht
      · obtain ⟨hmem, hkept⟩ := mem_keptTables.1 ht
        by_cases heq : t.depth = depth
        · refine Or.inr ((h.placed t hmem).resolve_left fun hsink => ?_)
          have hwhole := (h.takes hsinks huniq hdepth (heq ▸ hsink.2)).2
          have hin : t ∈ tierTables s₁.tables depth :=
            mem_filter.2 ⟨hmem, by simpa using heq⟩
          rw [← hwhole] at hin
          exact hkept t (hp ▸ hin) rfl
        · exact hlower t hmem heq
      · by_cases hsink : sinks depth
        · obtain ⟨hwhole, hnext⟩ := hsinks depth hsink hdepth
          have hout : t.depth = depth + 1 := by
            rw [runCompaction_depth hrun t ht, hp]
            change resolveOutDepth depth { cc with filter := none } = _
            unfold resolveOutDepth
            simp [hin, Nat.succ_le_of_lt hwhole.belowCap]
          exact Or.inl ⟨hout.ge, hout ▸ hnext⟩
        · refine Or.inr (runCompaction_all rfl (by exact hcut) hP (fun u hu => ?_) hrun t ht)
          exact (h.placed u (hsub u hu)).resolve_left fun hsink' => hsink (htier u hu ▸ hsink'.2)

theorem Cascade.relocate (huniq : UniqueNums s.tables) (hin : cc.collapseInPlace = false)
    (hsingle : cc.rewriteSingle = false) (hcut : cc.expiry now = now)
    (hP : Persists now P) {n : Nat}
    (h : Cascade s sinks P R depth s₁.tables) (hs₁ : s₁.Housed readSeq)
    (hn : depth + n = maxDepthOf s.tables)
    (hhops : relocate fmt retain cc now (range' depth n) s₁ = .ok s₂) :
    Cascade s sinks P R (maxDepthOf s.tables) s₂.tables := by
  induction n generalizing depth s₁ with
  | zero =>
    cases hhops
    exact hn ▸ h
  | succ n ih =>
    obtain ⟨s₁', hhop, hrest⟩ := Except.bind_eq_ok.1 hhops
    exact ih (h.hop hsinks huniq hs₁ hin hsingle hcut hP (by omega) hhop) (hs₁.compact hhop)
      (by omega) hrest

end Hops

section Flush

variable {fmt : TableFormat} {readSeq : Nat} {s s₁ s₂ : Engine} {now : Time} {sinks : Nat → Prop}
  {P : Entry → Prop} {R : RangeTombstone → Prop}

/-- An engine on the way from `s`, before the hops. -/
structure Engine.Lands (s : Engine) (sinks : Nat → Prop) (P : Entry → Prop)
    (R : RangeTombstone → Prop) (s₁ : Engine) : Prop where
  cascade : Cascade s sinks P R 0 s₁.tables
  memtables : sinks 0 ∨
    ((∀ e ∈ memPoints s₁.memtables, P e) ∧ ∀ rt ∈ memRangeDels s₁.memtables, R rt)
  idle : s.rotate.2 = false → s₁.rotate.2 = false

theorem Engine.Places.lands (h : s.Places sinks P R) : s.Lands sinks P R s :=
  ⟨⟨rfl, fun _ ht _ => ht, fun _ _ => rfl, fun t ht =>
    (h.tables t ht).imp_left fun hsink => ⟨Nat.zero_le _, hsink⟩⟩, h.memtables, id⟩

theorem Engine.flush_of_idle (h : s.rotate.2 = false) : s.flush fmt = .ok s := by
  rw [s.rotate_sealed] at h
  unfold Engine.rotate at h
  split_ifs at h with hkeep
  · have himm := Option.isNone_iff_eq_none.1 (by simpa using h)
    exact flush_of_nothing (hkeep.resolve_left (by simp [himm])) himm
  · cases h

theorem Engine.Lands.flush (h : s.Lands sinks P R s₁) (hs₁ : s₁.Housed readSeq)
    (hP : Persists now P) (hflush : s₁.flush fmt = .ok s₂) :
    s.Lands sinks P R s₂ := by
  have hidle : s.rotate.2 = false → s₂ = s₁ := fun hidle => by
    rw [flush_of_idle (h.idle hidle)] at hflush
    exact (Except.ok.inj hflush).symm
  have htables := s₁.rotate_rest.2.2.1
  obtain ⟨hpts, hrts⟩ := s₁.rotate_contents
  have hmems := h.memtables
  rw [← hpts, ← hrts] at hmems
  rcases Engine.flush_cases hflush with rfl | ⟨imm, out, himm, hout, rfl⟩
  · refine ⟨htables.symm ▸ h.cascade, hmems, fun h' => ?_⟩
    rw [hidle h']
    exact h.idle h'
  have hstores := hs₁.rotate.stores himm hout
  have hold := h.cascade
  rw [← htables] at hold
  have himem : imm ∈ s₁.rotate.1.memtables := by simp [Engine.memtables, himm]
  refine ⟨⟨?_, fun t ht hle => mem_append_left _ (hold.waiting t ht hle),
    fun h' hall => (congrArg Engine.tables (hidle h')).trans (h.cascade.unmoved h' hall),
    fun t ht => ?_⟩, hmems.imp_right fun hall => ⟨fun e he => ?_, fun rt hrt => ?_⟩, fun h' => ?_⟩
  · refine Nat.le_antisymm (maxDepthOf_le fun t ht => ?_) ?_
    · rcases mem_append.1 ht with ht | ht
      · exact hold.deepest ▸ le_maxDepthOf ht
      · rw [mem_singleton.1 ht, hstores.depth]
        exact Nat.zero_le _
    · exact maxDepthOf_le fun t ht =>
        le_maxDepthOf (mem_append_left _ (hold.waiting t ht (Nat.zero_le _)))
  · rcases mem_append.1 ht with ht | ht
    · exact hold.placed t ht
    · rw [mem_singleton.1 ht, hstores.depth]
      refine hmems.imp (fun hsink => ⟨Nat.le_refl _, hsink⟩) fun hall => ⟨fun w hw => ?_, ?_⟩
      · obtain ⟨e, he, hstored⟩ := hstores.source hw
        exact hP e w ⟨hstored.user, hstored.seq, hstored.dead now⟩
          (hall.1 e (mem_memPoints.2 ⟨imm, himem, he⟩))
      · rw [hstores.rangeDels]
        exact fun rt hrt => hall.2 rt (mem_memRangeDels.2 ⟨imm, himem, hrt⟩)
  · obtain ⟨m, hm, hem⟩ := mem_memPoints.1 he
    exact hall.1 e (mem_memPoints.2 ⟨m, Engine.mem_memtables_installed himm hm, hem⟩)
  · obtain ⟨m, hm, hrtm⟩ := mem_memRangeDels.1 hrt
    exact hall.2 rt (mem_memRangeDels.2 ⟨m, Engine.mem_memtables_installed himm hm, hrtm⟩)
  · rw [hidle h']
    exact h.idle h'

end Flush

section Keys

variable {fmt : TableFormat} {readSeq retain : Nat} {s s' : Engine} {cc : CompactionConfig}
  {now : Time}

theorem Engine.Housed.flush_keys (hs : s.Housed readSeq) (h : s.flush fmt = .ok s') :
    (s'.entries.map (·.user)).Perm (s.entries.map (·.user)) := by
  rw [← s.rotate_entries.1]
  rcases Engine.flush_cases h with rfl | ⟨imm, out, himm, hout, rfl⟩
  · exact List.Perm.refl _
  · have hkeys : imm.points.map (·.user) = out.table.points.map (·.user) := by
      rw [← forall₂_eq_eq_eq, forall₂_map_left_iff, forall₂_map_right_iff]
      exact (hs.rotate.stores himm hout).points.imp fun _ _ hstored => hstored.user.symm
    refine perm_iff_count.2 fun k => ?_
    simp only [Engine.entries, Engine.memtables, Engine.installFlush, Engine.created, himm,
      memPoints, tablePoints, flatMap_cons, flatMap_append, flatMap_nil,
      Option.toList_some, Option.toList_none, map_append, count_append, hkeys,
      count_nil, map_nil]
    omega

theorem tablePoints_subperm {tables tables' : List TableMeta} (h : tables.Subperm tables') :
    ((tablePoints tables).map (·.user)).Subperm ((tablePoints tables').map (·.user)) := by
  obtain ⟨m, hperm, hsub⟩ := h
  exact ⟨(tablePoints m).map _, (hperm.flatMap_right _).map _, (hsub.flatMap _).map _⟩

theorem compact_hop_keys (hin : cc.collapseInPlace = false) {depth : Nat}
    (hdepth : depth < maxDepthOf s.tables) (h : compact fmt s depth retain cc now = .ok s') :
    ((tablePoints s'.tables).map (·.user)).Subperm ((tablePoints s.tables).map (·.user)) := by
  cases hplan : planCompact s.tables depth cc with
  | none =>
    rw [compact, hplan] at h
    cases h
    exact List.Subperm.refl _
  | some p =>
    obtain ⟨_, hp⟩ := planCompact_above hin hdepth hplan
    obtain ⟨metas, alloc, hrun, rfl⟩ := compact_of_plan hplan h
    have hinputs : p.inputs.Subperm s.tables := by
      rw [hp]
      exact (scopeCompactionInputs_subperm _ _ cc).trans filter_sublist.subperm
    have hsplit := tablePoints_subperm (inputs_append_kept_subperm hinputs)
    have hpoints : tablePoints (keptTables s.tables p.inputs ++ metas) =
        tablePoints (keptTables s.tables p.inputs) ++ tablePoints metas := flatMap_append
    rw [tablePoints, flatMap_append, map_append] at hsplit
    change ((tablePoints (keptTables s.tables p.inputs ++ metas)).map _).Subperm _
    rw [hpoints, map_append]
    exact (perm_append_comm.subperm.trans
      ((runCompaction_keys hrun).append (List.Subperm.refl _))).trans hsplit

theorem relocate_keys (hs : s.Housed readSeq) (hin : cc.collapseInPlace = false)
    {depths : List Nat} (hdepths : ∀ d ∈ depths, d < maxDepthOf s.tables)
    (h : relocate fmt retain cc now depths s = .ok s') :
    ((tablePoints s'.tables).map (·.user)).Subperm ((tablePoints s.tables).map (·.user)) := by
  induction depths generalizing s with
  | nil =>
    cases h
    exact List.Subperm.refl _
  | cons depth depths ih =>
    obtain ⟨s₁, hhop, h⟩ := Except.bind_eq_ok.1 h
    have hdepth := hdepths depth mem_cons_self
    obtain ⟨hmax, _⟩ := compact_hop_keeps hs (by exact hin) hdepth hhop
    refine (ih (hs.compact hhop) (fun d hd => ?_) h).trans
      (compact_hop_keys (by exact hin) hdepth hhop)
    rw [hmax]
    exact hdepths d (mem_cons_of_mem _ hd)

end Keys

section Range

variable {fmt : TableFormat} {o : Options} {s s' : Engine} {readSeq safe : Nat} {now : Time}
  {cc : CompactionConfig}

/-- The entry is live, and nothing else is stored under its key. -/
def Engine.Lone (s : Engine) (now : Time) (e : Entry) : Prop :=
  e.payload.liveAt now ≠ none ∧ (s.entries.map (·.user)).count e.user ≤ 1

/-- The last pass is not declined. -/
def Engine.HasWork (s : Engine) : Prop :=
  2 ≤ (tierTables s.tables (maxDepthOf s.tables)).length ∨
    ∃ t ∈ tierTables s.tables (maxDepthOf s.tables), t.tombstones ≠ 0

/-- `CompactRange` will find all there is to reclaim: the last pass has work, and above
the deepest tier there is only what sinks into it, what it anchors and what cannot be
reclaimed; or there is nothing to do once all else has sunk; or nothing at all. -/
inductive Engine.Reclaimable (s : Engine) (cc : CompactionConfig) (now : Time) : Prop
  | anchored (hwork : s.HasWork)
      (h : s.Places (Sinks s cc) (fun e => Anchored s.tables e.user ∨ s.Lone now e)
        fun rt => ∃ k, Anchored s.tables k ∧ rt.Contains k)
  | sunk (hne : s.tables ≠ []) (hdeep : Tidy now (tierTables s.tables (maxDepthOf s.tables)))
      (h : s.Places (Sinks s cc) (fun _ => False) fun _ => False)
  | clean (h : s.Places (fun _ => False) (s.Lone now) fun _ => False)

/-- Nothing to flush and no hop to run. -/
structure Engine.Still (s : Engine) : Prop where
  idle : s.rotate.2 = false
  single : ∀ depth < maxDepthOf s.tables, (tierTables s.tables depth).length ≤ 1

/-- Nothing reclaimable is left: one live version of each key in all tables, no
tombstone of either sort, and no value below a range tombstone the flushed tables
held. -/
def ReclaimsAll (fmt : TableFormat) (s s' : Engine) (now : Time) : Prop :=
  Tidy now s'.tables ∧ ∀ s₀, s.flush fmt = .ok s₀ → ∀ e ∈ tablePoints s'.tables,
    ∀ rt ∈ tableRangeDels s₀.tables, rt.Contains e.user → rt.seq ≤ e.seq

theorem runConfig_expiry (filter : Option CompactionFilter) :
    (o.runConfig (manualRunConfig filter readSeq safe now)).expiry now = now := by
  have hexpire : (o.runConfig (manualRunConfig filter readSeq safe now)).expireBefore = now := by
    unfold manualRunConfig
    split_ifs <;> rfl
  rw [CompactionConfig.expiry, hexpire]
  split_ifs <;> rfl

theorem Sinks.next (d : Nat) (h : Sinks s cc d) (hd : d < maxDepthOf s.tables) :
    TakesWhole s cc d ∧ Sinks s cc (d + 1) :=
  ⟨h d (Nat.le_refl d) hd, fun d' hle => h d' (Nat.le_of_succ_le hle)⟩

theorem Tidy.of_lone {tables : List TableMeta}
    (hkeys : ((tablePoints tables).map (·.user)).Subperm (s.entries.map (·.user)))
    (hall : ∀ t ∈ tables, t.All (s.Lone now) fun _ => False) : Tidy now tables := by
  refine ⟨nodup_iff_count_le_one.2 fun k => ?_, fun e he => ?_, ?_⟩
  · by_cases hk : k ∈ (tablePoints tables).map (·.user)
    · obtain ⟨e, he, rfl⟩ := List.mem_map.1 hk
      obtain ⟨t, ht, het⟩ := mem_tablePoints.1 he
      exact (hkeys.count_le _).trans ((hall t ht).1 e het).2
    · rw [count_eq_zero_of_not_mem hk]
      exact Nat.zero_le 1
  · obtain ⟨t, ht, het⟩ := mem_tablePoints.1 he
    exact ((hall t ht).1 e het).1
  · refine eq_nil_iff_forall_not_mem.2 fun rt hrt => ?_
    obtain ⟨t, ht, hrtt⟩ := mem_tableRangeDels.1 hrt
    exact (hall t ht).2 rt hrtt

theorem exists_deepest {tables : List TableMeta} (hne : tables ≠ []) :
    ∃ t ∈ tables, t.depth = maxDepthOf tables := by
  by_cases hpos : 0 < maxDepthOf tables
  · exact exists_maxDepthOf hpos
  · obtain ⟨t, ht⟩ := exists_mem_of_ne_nil tables hne
    have := le_maxDepthOf ht
    exact ⟨t, ht, by omega⟩

theorem flatMap_tier {α : Type} (f : TableMeta → List α) {tables : List TableMeta} {depth : Nat}
    (hf : ∀ t ∈ tables, t.depth ≠ depth → f t = []) :
    (tierTables tables depth).flatMap f = tables.flatMap f := by
  induction tables with
  | nil => rfl
  | cons t ts ih =>
    rw [forall_mem_cons] at hf
    have hrest := ih hf.2
    unfold tierTables at hrest ⊢
    by_cases hdepth : t.depth = depth
    · simp [hdepth, hrest]
    · simp [hdepth, hrest, hf.1 hdepth]

theorem Tidy.of_tier {tables : List TableMeta} {depth : Nat}
    (hempty : ∀ t ∈ tables, t.depth ≠ depth → t.All (fun _ => False) fun _ => False)
    (h : Tidy now (tierTables tables depth)) : Tidy now tables := by
  have hpoints : tablePoints (tierTables tables depth) = tablePoints tables :=
    flatMap_tier _ fun t ht hne => eq_nil_iff_forall_not_mem.2 (hempty t ht hne).1
  have hspans : tableRangeDels (tierTables tables depth) = tableRangeDels tables :=
    flatMap_tier _ fun t ht hne => eq_nil_iff_forall_not_mem.2 (hempty t ht hne).2
  exact ⟨hpoints ▸ h.single, hpoints ▸ h.live, hspans ▸ h.spans⟩

section

variable {sinks : Nat → Prop} {P : Entry → Prop} {R : RangeTombstone → Prop} {s₁ : Engine}

theorem Cascade.above (h : Cascade s sinks P R (maxDepthOf s.tables) s₁.tables) {t : TableMeta}
    (ht : t ∈ s₁.tables) (hne : t.depth ≠ maxDepthOf s₁.tables) : t.All P R := by
  refine (h.placed t ht).resolve_left fun hsink => ?_
  have := le_maxDepthOf ht
  have := h.deepest
  omega

theorem Cascade.mem_inputs (h : Cascade s sinks P R (maxDepthOf s.tables) s₁.tables) {k : Key}
    (hk : Anchored s.tables k) {u : TableMeta} (hu : u ∈ s₁.tables) (huk : u.mayContain k = true) :
    u ∈ wholeTierInputs s₁.tables (maxDepthOf s₁.tables) := by
  obtain ⟨t, ht, htk⟩ := hk
  obtain ⟨hmem, hdepth⟩ := mem_filter.1 ht
  have hdepth : t.depth = maxDepthOf s.tables := by simpa using hdepth
  by_contra hout
  have hin := mem_wholeTierInputs (h.waiting t hmem hdepth.ge) (hdepth.trans h.deepest.symm)
  rw [wholeTierInputs_outside hin htk hu hout] at huk
  cases huk

theorem Engine.HasWork.runs (hwork : s.HasWork) (huniq : UniqueNums s.tables)
    (h : Cascade s sinks P R (maxDepthOf s.tables) s₁.tables) (hfilter : cc.filter = none) :
    planCompact s₁.tables (maxDepthOf s₁.tables) cc.final ≠ none := by
  intro hnone
  obtain ⟨hone, hclean⟩ := (planCompact_final_eq_none_iff hfilter).1 hnone
  rw [h.deepest] at hone hclean
  rcases hwork with htwo | ⟨t, ht, hdead⟩
  · have hlen : (tierTables s.tables (maxDepthOf s.tables)).length ≤ _ :=
      huniq.tier_length_le fun t ht hdepth => h.waiting t ht hdepth.ge
    omega
  · obtain ⟨hmem, hdepth⟩ := mem_filter.1 ht
    refine hdead (hclean t (mem_filter.2 ⟨h.waiting t hmem ?_, hdepth⟩))
    exact (by simpa using hdepth : t.depth = _).ge

end

theorem Engine.Reclaimable.leftAlone_tidy (h : s.Reclaimable cc now) (hs : s.Housed readSeq)
    (hin : cc.collapseInPlace = false) (hsingle : cc.rewriteSingle = false)
    (hfilter : cc.filter = none) (hcut : cc.expiry now = now) {s₀ s₁ : Engine}
    (hflush : s.flush fmt = .ok s₀)
    (hhops : relocate fmt readSeq cc now (List.range (maxDepthOf s₀.tables)) s₀ = .ok s₁) :
    Tidy now (leftAlone s₁.tables cc) := by
  have hs₀ := hs.flush hflush
  obtain ⟨hs₁, _, _⟩ := relocate_keeps hs₀ hin (fun d hd => mem_range.1 hd) hhops
  have hkeys : ((tablePoints s₁.tables).map (·.user)).Subperm (s.entries.map (·.user)) := by
    refine (relocate_keys hs₀ hin (fun d hd => mem_range.1 hd) hhops).trans ?_
    refine List.Subperm.trans ?_ (hs.flush_keys hflush).subperm
    exact ((sublist_append_right _ _).map _).subperm
  have hleft : (leftAlone s₁.tables cc).Sublist s₁.tables := by
    unfold leftAlone
    split
    · exact List.Sublist.refl _
    · exact keptTables_sublist _ _
  have hcascade : ∀ {sinks : Nat → Prop} {P : Entry → Prop} {R : RangeTombstone → Prop},
      s.Places sinks P R → Persists now P →
      (∀ d, sinks d → d < maxDepthOf s.tables → TakesWhole s cc d ∧ sinks (d + 1)) →
      Cascade s sinks P R (maxDepthOf s.tables) s₁.tables := by
    intro sinks P R hplaces hP hsinks
    have hlands := hplaces.lands.flush hs hP hflush
    rw [hlands.cascade.deepest, range_eq_range'] at hhops
    exact hlands.cascade.relocate hsinks hs.uniqueNums hin hsingle hcut hP hs₀
      (Nat.zero_add _) hhops
  have hlone : Persists now (s.Lone now) := fun e w hsame he =>
    ⟨fun hdead => he.1 (hsame.dead.1 hdead), by rw [hsame.user]; exact he.2⟩
  cases h with
  | anchored hwork hplaces =>
    have hc := hcascade hplaces
      (fun e w hsame he => he.imp (fun hk => hsame.user ▸ hk) (hlone e w hsame)) Sinks.next
    obtain ⟨p, hplan⟩ := Option.ne_none_iff_exists'.1 (hwork.runs hs.uniqueNums hc hfilter)
    refine Tidy.of_lone (((hleft.flatMap _).map _).subperm.trans hkeys) fun t ht => ?_
    rw [leftAlone, hplan, planCompact_final hplan] at ht
    obtain ⟨hmem, hnum⟩ := mem_keptTables.1 ht
    have hout : t ∉ wholeTierInputs s₁.tables (maxDepthOf s₁.tables) := fun hin => hnum t hin rfl
    have hall := hc.above hmem fun hdepth => hout (mem_wholeTierInputs hmem hdepth)
    have hbounded := hs₁.bounded t hmem
    refine ⟨fun e he => (hall.1 e he).resolve_left fun hk => ?_, fun rt hrt => ?_⟩
    · exact hout (hc.mem_inputs hk hmem (hbounded.points e he))
    · obtain ⟨k, hk, hcon⟩ := hall.2 rt hrt
      exact hout (hc.mem_inputs hk hmem (hbounded.rangeDels rt hrt k hcon))
  | sunk hne hdeep hplaces =>
    have hc := hcascade hplaces (fun _ _ _ => False.elim) Sinks.next
    cases hplan : planCompact s₁.tables (maxDepthOf s₁.tables) cc.final with
    | some p =>
      refine Tidy.of_lone (((hleft.flatMap _).map _).subperm.trans hkeys) fun t ht => ?_
      rw [leftAlone, hplan, planCompact_final hplan] at ht
      obtain ⟨hmem, hnum⟩ := mem_keptTables.1 ht
      have hempty := hc.above hmem fun hdepth => hnum t (mem_wholeTierInputs hmem hdepth) rfl
      exact ⟨fun e he => (hempty.1 e he).elim, hempty.2⟩
    | none =>
      rw [leftAlone, hplan]
      refine Tidy.of_tier (fun t ht => hc.above ht) (hdeep.sublist ?_)
      -- only the table that was there
      obtain ⟨t, ht, hdepth⟩ := exists_deepest hne
      have hmem : t ∈ tierTables s₁.tables (maxDepthOf s₁.tables) :=
        mem_filter.2 ⟨hc.waiting t ht hdepth.ge, by simp [hdepth, hc.deepest]⟩
      obtain ⟨u, hu⟩ := length_eq_one_iff.1 (Nat.le_antisymm
        ((planCompact_final_eq_none_iff hfilter).1 hplan).1 (length_pos_of_mem hmem))
      rw [hu] at hmem ⊢
      rw [← mem_singleton.1 hmem, singleton_sublist]
      exact mem_filter.2 ⟨ht, by simpa using hdepth⟩
  | clean hplaces =>
    have hc := hcascade hplaces hlone fun _ => False.elim
    refine Tidy.of_lone (((hleft.flatMap _).map _).subperm.trans hkeys) fun t ht => ?_
    exact (hc.placed t (hleft.subset ht)).resolve_left And.right

end Range

/-- Two overlapping tables with a deleted key above a lone table. -/
def sinkingStore : Engine where
  cfg := defaultOptions.fillDefaults.engineConfig
  alloc := 3
  mem := newMemtable
  imm := none
  recoveryMems := []
  tables :=
    [finishTable unitFormat 10 1 1 ⟨[⟨⟨[122], 1, .set⟩, [0]⟩], pairwise_singleton _ _⟩ [],
      finishTable unitFormat 10 2 0
        ⟨[⟨⟨[97], 2, .set⟩, [1]⟩, ⟨⟨[98], 3, .set⟩, [1]⟩], by decide⟩ [],
      finishTable unitFormat 10 3 0 ⟨[⟨⟨[97], 4, .delete⟩, []⟩], pairwise_singleton _ _⟩ []]
  blobs := []
  lastCompactionDone := false

theorem sinkingStore_housed : sinkingStore.Housed 4 where
  bounded t ht := by
    simp only [sinkingStore, mem_cons, not_mem_nil, or_false] at ht
    rcases ht with rfl | rfl | rfl <;> exact finishTable_bounded _ _ _ _ _ _
  uniqueNums := by unfold UniqueNums; decide
  tableNums := by decide
  blobNums := by decide
  room := by decide
  blobFileSize := by decide
  values := by decide
  points := by decide
  rangeDels := by decide

/-- A table that overlaps no other, above a lone table. -/
def loneFreshStore : Engine :=
  { sinkingStore with
    alloc := 2
    tables :=
      [finishTable unitFormat 10 1 1 ⟨[⟨⟨[122], 1, .set⟩, [0]⟩], pairwise_singleton _ _⟩ [],
        finishTable unitFormat 10 2 0
          ⟨[⟨⟨[97], 3, .delete⟩, []⟩, ⟨⟨[97], 2, .set⟩, [1]⟩], by decide⟩ []] }

end LevisDB
