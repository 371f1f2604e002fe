import LevisDB.Compaction.Manual

/-!
# Manual compaction twice in a row

A tier of two tables is always merged, also when the merge can only reproduce
the same tables under new file numbers.
-/

namespace LevisDB

open List LevisDB.Except

def Engine.liveNums (s : Engine) : Set Nat := { n | ∃ t ∈ s.tables, t.num = n }

/-- No tier has two tables, and the table of the deepest one holds no tombstone. -/
structure Settled (tables : List TableMeta) : Prop where
  single : ∀ depth, (tierTables tables depth).length ≤ 1
  clean : ∀ t ∈ tierTables tables (maxDepthOf tables), t.tombstones = 0

theorem planCompact_eq_none_iff {tables : List TableMeta} {depth : Nat} {cc : CompactionConfig} :
    planCompact tables depth cc = none ↔
      worthCompacting (tierTables tables depth).length
        (cc.rewriteSingle && wholeTierMerge tables depth cc)
        (hasRewriteReason cc (tierTables tables depth)) = false := by
  unfold planCompact
  dsimp only
  split_ifs with hworth hwhole
  · exact iff_of_true rfl hworth
  · exact iff_of_false (by simp) hworth
  · exact iff_of_false (by simp) hworth

theorem planCompact_hop_eq_none_iff {tables : List TableMeta} {depth : Nat} {cc : CompactionConfig}
    (hsingle : cc.rewriteSingle = false) :
    planCompact tables depth cc = none ↔ (tierTables tables depth).length ≤ 1 := by
  rw [planCompact_eq_none_iff, hsingle, Bool.false_and]
  unfold worthCompacting
  split_ifs with hzero htwo <;> simp <;> omega

theorem planCompact_final_eq_none_iff {tables : List TableMeta} {cc : CompactionConfig}
    (hfilter : cc.filter = none) :
    planCompact tables (maxDepthOf tables) cc.final = none ↔
      (tierTables tables (maxDepthOf tables)).length ≤ 1 ∧
        ∀ t ∈ tierTables tables (maxDepthOf tables), t.tombstones = 0 := by
  have hwhole : wholeTierMerge tables (maxDepthOf tables) cc.final = true := by
    simp [wholeTierMerge, resolveOutDepth, CompactionConfig.final]
  have hreason : hasRewriteReason cc.final (tierTables tables (maxDepthOf tables)) = false ↔
      ∀ t ∈ tierTables tables (maxDepthOf tables), t.tombstones = 0 := by
    simp [hasRewriteReason, CompactionConfig.final, hfilter]
  rw [planCompact_eq_none_iff, hwhole, ← hreason]
  change worthCompacting _ true _ = false ↔ _
  unfold worthCompacting
  split_ifs with hzero htwo
  · have hnil := length_eq_zero_iff.1 hzero
    simp [hnil, hasRewriteReason, CompactionConfig.final, hfilter]
  · simp
    omega
  · simp
    omega

theorem planCompact_inputs_ne_nil {tables : List TableMeta} {depth : Nat} {cc : CompactionConfig}
    {p : CompactionPlan} (h : planCompact tables depth cc = some p) : p.inputs ≠ [] := by
  have hworth : worthCompacting (tierTables tables depth).length
      (cc.rewriteSingle && wholeTierMerge tables depth cc)
      (hasRewriteReason cc (tierTables tables depth)) ≠ false := by
    intro hfalse
    rw [planCompact_eq_none_iff.2 hfalse] at h
    cases h
  have hpos : (tierTables tables depth).length ≠ 0 := by
    intro hzero
    exact hworth (by rw [hzero]; rfl)
  obtain ⟨t, ht⟩ := exists_mem_of_length_pos (Nat.pos_of_ne_zero hpos)
  obtain ⟨hmem, hdepth⟩ := mem_filter.1 ht
  unfold planCompact at h
  dsimp only at h
  rw [if_neg hworth] at h
  split_ifs at h with hwhole
  · cases h
    exact ne_nil_of_mem (mem_wholeTierInputs hmem (by simpa using hdepth))
  · cases h
    have htwo : 2 ≤ (tierTables tables depth).length := by
      by_contra hone
      refine hworth ?_
      unfold worthCompacting
      rw [if_neg hpos, if_neg hone]
      simp [hwhole]
    have hlen := two_le_scopeCompactionInputs htwo (outsideRanges tables depth) cc
    exact ne_nil_of_length_pos (by
      change 0 < (scopeCompactionInputs (tierTables tables depth) (outsideRanges tables depth)
        cc).1.length
      omega)

section Steps

variable {fmt : TableFormat} {readSeq : Nat} {s s' : Engine} {cc : CompactionConfig} {now : Time}
  {retain : Nat}

/-- File numbers are handed out upwards: a number that is gone does not come back. -/
structure Later (s s' : Engine) : Prop where
  alloc : s.alloc ≤ s'.alloc
  nums : ∀ n ∈ s'.liveNums, n ≤ s.alloc → n ∈ s.liveNums

theorem later_refl (s : Engine) : Later s s := ⟨Nat.le_refl _, fun _ hn _ => hn⟩

theorem Later.trans {s₁ s₂ s₃ : Engine} (h : Later s₁ s₂) (h' : Later s₂ s₃) : Later s₁ s₃ :=
  ⟨Nat.le_trans h.alloc h'.alloc, fun n hn hle =>
    h.nums n (h'.nums n hn (Nat.le_trans hle h.alloc)) hle⟩

theorem later_compact {depth : Nat} (h : compact fmt s depth retain cc now = .ok s') :
    Later s s' := by
  cases hplan : planCompact s.tables depth cc with
  | none =>
    rw [compact, hplan] at h
    cases h
    exact ⟨Nat.le_refl _, fun _ hn _ => hn⟩
  | some p =>
    obtain ⟨metas, alloc, hrun, rfl⟩ := compact_of_plan hplan h
    obtain ⟨_, _, _, _, _, hfresh⟩ := runCompaction_eq_ok hrun
    refine ⟨hfresh.alloc, ?_⟩
    rintro n ⟨t, ht, rfl⟩ hle
    rcases mem_append.1 ht with ht | ht
    · exact ⟨t, (mem_keptTables.1 ht).1, rfl⟩
    · have := (hfresh.nums t ht).1
      omega

theorem compact_removes (hnums : ∀ t ∈ s.tables, t.num ≤ s.alloc) {depth : Nat}
    {p : CompactionPlan} (hplan : planCompact s.tables depth cc = some p)
    (h : compact fmt s depth retain cc now = .ok s') :
    ∃ n ∈ s.liveNums, n ∉ s'.liveNums := by
  obtain ⟨metas, alloc, hrun, rfl⟩ := compact_of_plan hplan h
  obtain ⟨t, ht⟩ := exists_mem_of_ne_nil _ (planCompact_inputs_ne_nil hplan)
  have hmem := planCompact_subset hplan t ht
  obtain ⟨_, _, _, _, _, hfresh⟩ := runCompaction_eq_ok hrun
  refine ⟨t.num, ⟨t, hmem, rfl⟩, ?_⟩
  rintro ⟨u, hu, hnum⟩
  rcases mem_append.1 hu with hu | hu
  · exact (mem_keptTables.1 hu).2 t ht hnum.symm
  · have := (hfresh.nums u hu).1
    have := hnums t hmem
    omega

theorem compact_memtables {depth : Nat} (h : compact fmt s depth retain cc now = .ok s') :
    s'.mem = s.mem ∧ s'.imm = s.imm := by
  cases hplan : planCompact s.tables depth cc with
  | none =>
    rw [compact, hplan] at h
    cases h
    exact ⟨rfl, rfl⟩
  | some p =>
    obtain ⟨metas, alloc, _, rfl⟩ := compact_of_plan hplan h
    exact ⟨rfl, rfl⟩

theorem relocate_memtables {depths : List Nat} (h : relocate fmt retain cc now depths s = .ok s') :
    s'.mem = s.mem ∧ s'.imm = s.imm := by
  induction depths generalizing s with
  | nil =>
    cases h
    exact ⟨rfl, rfl⟩
  | cons depth depths ih =>
    obtain ⟨s₁, hhop, h⟩ := bind_eq_ok.1 h
    obtain ⟨hmem, himm⟩ := compact_memtables hhop
    obtain ⟨hmem', himm'⟩ := ih h
    exact ⟨hmem'.trans hmem, himm'.trans himm⟩

theorem later_relocate {depths : List Nat} (h : relocate fmt retain cc now depths s = .ok s') :
    Later s s' := by
  induction depths generalizing s with
  | nil =>
    obtain rfl := Except.ok.inj h
    exact later_refl s
  | cons depth depths ih =>
    obtain ⟨s₁, hhop, h⟩ := bind_eq_ok.1 h
    exact (later_compact hhop).trans (ih h)

theorem relocate_of_single (hcc : cc.rewriteSingle = false) (depths : List Nat)
    (hsingle : ∀ d ∈ depths, (tierTables s.tables d).length ≤ 1) :
    ∃ s', relocate fmt retain cc now depths s = .ok s' ∧ s'.tables = s.tables := by
  induction depths generalizing s with
  | nil => exact ⟨s, rfl, rfl⟩
  | cons depth depths ih =>
    rw [forall_mem_cons] at hsingle
    have hcc' : ({ cc with filter := none } : CompactionConfig).rewriteSingle = false := hcc
    have hplan := (planCompact_hop_eq_none_iff hcc').2 hsingle.1
    obtain ⟨s', hrest, htables⟩ := ih (s := { s with lastCompactionDone := false }) hsingle.2
    refine ⟨s', ?_, htables⟩
    rw [relocate, compact, hplan]
    exact hrest

theorem relocate_removes (hs : s.Housed readSeq) (hcc : cc.rewriteSingle = false)
    {depths : List Nat} (h : relocate fmt retain cc now depths s = .ok s')
    (hkeeps : ∀ n ∈ s.liveNums, n ∈ s'.liveNums) :
    ∀ d ∈ depths, (tierTables s.tables d).length ≤ 1 := by
  induction depths generalizing s with
  | nil => simp
  | cons depth depths ih =>
    obtain ⟨s₁, hhop, hrest⟩ := bind_eq_ok.1 h
    cases hplan : planCompact s.tables depth { cc with filter := none } with
    | none =>
      rw [compact, hplan] at hhop
      cases hhop
      have hs₁ : ({ s with lastCompactionDone := false } : Engine).Housed readSeq :=
        ⟨hs.bounded, hs.uniqueNums, hs.tableNums, hs.blobNums, hs.room, hs.blobFileSize,
          hs.values, hs.points, hs.rangeDels⟩
      have hcc' : ({ cc with filter := none } : CompactionConfig).rewriteSingle = false := hcc
      have hlater := ih hs₁ hrest hkeeps
      exact forall_mem_cons.2 ⟨(planCompact_hop_eq_none_iff hcc').1 hplan, hlater⟩
    | some p =>
      obtain ⟨n, hn, hgone⟩ := compact_removes hs.tableNums hplan hhop
      obtain ⟨t, ht, rfl⟩ := id hn
      refine absurd ((later_relocate hrest).nums t.num (hkeeps t.num hn) ?_) hgone
      exact Nat.le_trans (hs.tableNums t ht) (later_compact hhop).alloc

theorem flush_imm (h : s.flush fmt = .ok s') : s'.imm = none := by
  unfold Engine.flush at h
  have hsealed := s.rotate_sealed
  generalize s.rotate = r at h hsealed
  obtain ⟨s₁, sealed⟩ := r
  cases sealed with
  | false =>
    cases h
    exact Option.isNone_iff_eq_none.1 (by simpa using hsealed.symm)
  | true =>
    obtain ⟨out, _, h⟩ := bind_eq_ok.1 h
    cases h
    rfl

theorem flush_mem_empty (hmem : s.imm = none ∨ s.mem.empty = true)
    (h : s.flush fmt = .ok s') : s'.mem.empty = true := by
  have hempty : s.rotate.1.mem.empty = true := by
    unfold Engine.rotate
    split_ifs with hkeep
    · rcases hmem with himm | hmem
      · exact hkeep.resolve_left (by simp [himm])
      · exact hmem
    · rfl
  rcases Engine.flush_cases h with rfl | ⟨imm, out, _, _, rfl⟩
  · exact hempty
  · exact hempty

theorem flush_of_nothing (hmem : s.mem.empty = true) (himm : s.imm = none) :
    s.flush fmt = .ok s := by
  unfold Engine.flush Engine.rotate
  rw [if_pos (.inr hmem), himm]
  rfl

end Steps

section Twice

variable {fmt : TableFormat} {o : Options} {s s₁ : Engine} {readSeq safe : Nat} {now : Time}

theorem compactTiered_of_settled (fmt : TableFormat) (retain : Nat) (now : Time)
    {cc : CompactionConfig} (hcc : cc.rewriteSingle = false) (hfilter : cc.filter = none)
    (hsettled : Settled s.tables) :
    ∃ s', compactTiered fmt s retain cc now = .ok s' ∧ s'.tables = s.tables := by
  obtain ⟨s', hhops, htables⟩ :=
    relocate_of_single hcc (List.range (maxDepthOf s.tables)) fun d _ => hsettled.single d
  have hplan := (planCompact_final_eq_none_iff hfilter).2 ⟨hsettled.single _, hsettled.clean⟩
  refine ⟨{ s' with lastCompactionDone := false }, ?_, htables⟩
  rw [compactTiered, hhops]
  change compact fmt s' (maxDepthOf s.tables) retain cc.final now = _
  rw [compact, htables, hplan]

theorem settled_of_compactTiered {retain : Nat} {cc : CompactionConfig} {s' : Engine}
    (hs : s.Housed readSeq) (hcc : cc.rewriteSingle = false) (hfilter : cc.filter = none)
    (h : compactTiered fmt s retain cc now = .ok s') (hsame : s'.liveNums = s.liveNums) :
    Settled s.tables := by
  obtain ⟨s₁, hhops, hlast⟩ := bind_eq_ok.1 h
  have hkeeps : ∀ n ∈ s.liveNums, n ∈ s₁.liveNums := by
    rintro n ⟨t, ht, rfl⟩
    refine (later_compact hlast).nums t.num (hsame ▸ ⟨t, ht, rfl⟩) ?_
    exact Nat.le_trans (hs.tableNums t ht) (later_relocate hhops).alloc
  have hsingle := relocate_removes hs hcc hhops hkeeps
  obtain ⟨s₁', hhops', htables⟩ := relocate_of_single hcc _ hsingle
  rw [hhops] at hhops'
  cases hhops'
  have hnums : s₁.liveNums = s.liveNums := by rw [Engine.liveNums, htables, Engine.liveNums]
  rw [← htables] at hlast
  have hplan : planCompact s₁.tables (maxDepthOf s₁.tables) cc.final = none := by
    cases hplan : planCompact s₁.tables (maxDepthOf s₁.tables) cc.final with
    | none => rfl
    | some p =>
      have halloc : ∀ t ∈ s₁.tables, t.num ≤ s₁.alloc := fun t ht =>
        Nat.le_trans (hs.tableNums t (htables ▸ ht)) (later_relocate hhops).alloc
      obtain ⟨n, hn, hgone⟩ := compact_removes halloc hplan hlast
      exact absurd (hsame ▸ hnums ▸ hn) hgone
  rw [htables] at hplan
  obtain ⟨hbottom, hclean⟩ := (planCompact_final_eq_none_iff hfilter).1 hplan
  refine ⟨fun d => ?_, hclean⟩
  rcases Nat.lt_trichotomy d (maxDepthOf s.tables) with hd | hd | hd
  · exact hsingle d (mem_range.2 hd)
  · exact hd ▸ hbottom
  · have hnone : tierTables s.tables d = [] := filter_eq_nil_iff.2 fun t ht => by
      have := le_maxDepthOf ht
      simp only [decide_eq_true_eq]
      omega
    rw [hnone]
    exact Nat.zero_le 1

/-- The second of two manual compactions leaves the live files as they are exactly when
the first left at most one table in every tier, and no tombstone in the deepest one. -/
theorem compactRange_again_iff (hs : s.Housed readSeq) (hmem : s.imm = none ∨ s.mem.empty = true)
    (h : compactRange fmt o none s readSeq safe now = .ok s₁) :
    (Settled s₁.tables → ∃ s₂, compactRange fmt o none s₁ readSeq safe now = .ok s₂) ∧
      ∀ s₂, compactRange fmt o none s₁ readSeq safe now = .ok s₂ →
        (s₂.liveNums = s₁.liveNums ↔ Settled s₁.tables) := by
  set cc := o.runConfig (manualRunConfig none readSeq safe now) with hcc
  have hsingle : cc.rewriteSingle = false := rfl
  have hfilter : cc.filter = none := by
    rw [hcc, manualRunConfig]
    split_ifs <;> rfl
  obtain ⟨s₀, hflush, htiered⟩ := bind_eq_ok.1 h
  obtain ⟨sr, hhops, hlast⟩ := bind_eq_ok.1 htiered
  have hs₀ := hs.flush hflush
  have hin : cc.collapseInPlace = false := rfl
  obtain ⟨hsr, _⟩ := relocate_keeps hs₀ hin (fun d hd => mem_range.1 hd) hhops
  have hs₁ := hsr.compact hlast
  obtain ⟨hmem₁, himm₁⟩ := relocate_memtables hhops
  obtain ⟨hmem₂, himm₂⟩ := compact_memtables hlast
  have hagain : compactRange fmt o none s₁ readSeq safe now =
      compactTiered fmt s₁ readSeq cc now := by
    have hnothing : s₁.flush fmt = .ok s₁ := by
      refine flush_of_nothing ?_ ?_
      · rw [hmem₂, hmem₁]
        exact flush_mem_empty hmem hflush
      · rw [himm₂, himm₁]
        exact flush_imm hflush
    change s₁.flush fmt >>= _ = _
    rw [hnothing]
    rfl
  rw [hagain]
  refine ⟨fun hsettled => ?_, fun s₂ hsecond => ⟨?_, fun hsettled => ?_⟩⟩
  · obtain ⟨s₂, hsecond, _⟩ := compactTiered_of_settled fmt readSeq now hsingle hfilter hsettled
    exact ⟨s₂, hsecond⟩
  · exact settled_of_compactTiered hs₁ hsingle hfilter hsecond
  · obtain ⟨s₂', hsecond', htables⟩ :=
      compactTiered_of_settled fmt readSeq now hsingle hfilter hsettled
    rw [hsecond] at hsecond'
    cases hsecond'
    rw [Engine.liveNums, htables, Engine.liveNums]

end Twice

def splitBottomStore : Engine where
  cfg := lowCapOptions.engineConfig
  alloc := 2
  mem := newMemtable
  imm := none
  recoveryMems := []
  tables :=
    [finishTable unitFormat 10 1 0 ⟨[⟨⟨[97], 1, .set⟩, [0]⟩], pairwise_singleton _ _⟩ [],
      finishTable unitFormat 10 2 0 ⟨[⟨⟨[98], 2, .set⟩, [0]⟩], pairwise_singleton _ _⟩ []]
  blobs := []
  lastCompactionDone := false

def splitBottomAfter : Engine :=
  { splitBottomStore with
    alloc := 4
    tables :=
      [finishTable unitFormat 10 3 0 ⟨[⟨⟨[97], 1, .set⟩, [0]⟩], pairwise_singleton _ _⟩ [],
        finishTable unitFormat 10 4 0 ⟨[⟨⟨[98], 2, .set⟩, [0]⟩], pairwise_singleton _ _⟩ []]
    lastCompactionDone := true }

theorem splitBottomStore_housed : splitBottomStore.Housed 2 where
  bounded t ht := by
    rcases mem_pair.1 ht with rfl | rfl <;> exact finishTable_bounded _ _ _ _ _ _
  uniqueNums := by unfold UniqueNums; decide
  tableNums := by decide
  blobNums := by decide
  room := by decide
  blobFileSize := by decide
  values := by decide
  points := by decide
  rangeDels := by decide

theorem compactRange_splitBottomStore :
    compactRange unitFormat lowCapOptions none splitBottomStore 2 2 100 =
      .ok splitBottomAfter := rfl

theorem compactRange_again_iff_splitBottom :
    ∃ s₂, compactRange unitFormat lowCapOptions none splitBottomAfter 2 2 100 = .ok s₂ ∧
      (s₂.liveNums = splitBottomAfter.liveNums ↔ Settled splitBottomAfter.tables) :=
  ⟨_, rfl, (compactRange_again_iff splitBottomStore_housed (.inl rfl)
    compactRange_splitBottomStore).2 _ rfl⟩

/-- The first call leaves tables 3 and 4, the second replaces both. -/
theorem compactRange_again_rewrites :
    ∃ s₁ s₂, compactRange unitFormat lowCapOptions none splitBottomStore 2 2 100 = .ok s₁ ∧
      compactRange unitFormat lowCapOptions none s₁ 2 2 100 = .ok s₂ ∧
      s₁.tables.map (·.num) = [3, 4] ∧ s₂.tables.map (·.num) = [5, 6] ∧
      s₂.liveNums ≠ s₁.liveNums := by
  refine ⟨splitBottomAfter, _, compactRange_splitBottomStore, rfl, rfl, rfl, fun hsame => ?_⟩
  have hthree : 3 ∈ splitBottomAfter.liveNums := ⟨_, mem_cons_self .., rfl⟩
  rw [← hsame] at hthree
  obtain ⟨t, ht, hnum⟩ := hthree
  rcases mem_pair.1 ht with rfl | rfl <;> cases hnum

end LevisDB
