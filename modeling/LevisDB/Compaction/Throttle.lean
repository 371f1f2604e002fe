import LevisDB.Compaction.Drain

/-!
# The hard stop

A writer that meets too many fresh tables waits until background compaction has
taken the fresh tier below the stop mark, or until a background error is latched.
With a second tier to merge into, every round of the compactor takes at least two
tables out of the fresh tier. With a single tier the fresh tier is also the cap,
which the picker leaves alone, and the writer waits for ever.
-/

namespace LevisDB

open List

/-- What the scheduler finds when it wakes: whether a snapshot holds the watermark
back, and the configuration it gets for a run. -/
structure Wakeup where
  pinned : Bool
  config : Except Err RunConfig

namespace Options

/-- Pinned tombstones cannot be reclaimed, so their trigger is off. -/
def gated (o : Options) (pinned : Bool) : Options :=
  if pinned then { o with tombstoneCompactionRatio := some 0 } else o

end Options

inductive StallEnd where
  | released (s : Engine)
  | latched (err : Err)

/-- One poll of a stopped writer, and the round of the compactor it signals. -/
def throttleWrite (fl : Rounding) (fmt : TableFormat) (o : Options) :
    (Nat → Wakeup) × Engine → StallEnd ⊕ ((Nat → Wakeup) × Engine)
  | (wakeups, s) =>
    if (depth0Count s : Int) < o.l0StopTables then .inl (.released s)
    else
      match pickCompaction fl (o.gated (wakeups 0).pinned) s with
      | none => .inr (fun n => wakeups (n + 1), s)
      | some depth =>
        match (wakeups 0).config with
        | .error err => .inl (.latched err)
        | .ok r =>
          match compact fmt s depth r.retain (o.runConfig r) r.now with
          | .error err => .inl (.latched err)
          | .ok s' => .inr (fun n => wakeups (n + 1), s')

section Round

variable {fl : Rounding} {fmt : TableFormat} {o : Options} {s s' : Engine}

theorem pickCompaction_stopped (hlevels : 2 ≤ o.maxLevels) (hcfg : s.cfg.maxLevels = o.maxLevels)
    (hratio : 2 ≤ o.tierRatio) (hfull : o.tierRatio ≤ (depth0Count s : Int)) (pinned : Bool) :
    pickCompaction fl (o.gated pinned) s = some 0 := by
  have hgated : (o.gated pinned).tierRatio = o.tierRatio := by
    unfold Options.gated
    split_ifs <;> rfl
  have hcap : 0 < resolveMaxDepth s.cfg.maxLevels := by
    rw [hcfg, resolveMaxDepth, if_neg (by omega)]
    omega
  refine pickCompaction_of_ready_zero ?_ ?_
  · obtain ⟨t, ht⟩ := exists_mem_of_length_pos (by omega : 0 < depth0Count s)
    obtain ⟨hmem, hdepth⟩ := mem_filter.1 ht
    exact ⟨t, hmem, by simpa using hdepth⟩
  · have hcount : o.tierRatio ≤ ((tierTables s.tables 0).length : Int) := hfull
    simp [tierReady, tierHasOverlapToResolve, hgated, hcap, hcount]

theorem compact_lowers_depth0Count (hlevels : 2 ≤ o.maxLevels) {r : RunConfig}
    (htwo : 2 ≤ depth0Count s) (h : compact fmt s 0 r.retain (o.runConfig r) r.now = .ok s') :
    s'.cfg = s.cfg ∧ depth0Count s' + 2 ≤ depth0Count s := by
  have hout : resolveOutDepth 0 (o.runConfig r) ≠ 0 := by
    have hcap : 1 ≤ resolveMaxDepth o.maxLevels := by
      rw [resolveMaxDepth, if_neg (by omega)]
      omega
    change (if 0 + 1 ≤ resolveMaxDepth o.maxLevels then 0 + 1 else resolveMaxDepth o.maxLevels) ≠ 0
    rw [if_pos hcap]
    omega
  obtain ⟨p, hplan, hpout, hptwo, hinputs⟩ := planCompact_hop htwo hout
  obtain ⟨metas, alloc, hrun, rfl⟩ := compact_of_plan hplan h
  refine ⟨rfl, ?_⟩
  have hfresh : tierTables p.inputs 0 = p.inputs := by
    refine filter_eq_self.2 fun t ht => ?_
    rw [hinputs] at ht
    exact (mem_filter.1 ((scopeCompactionInputs_subperm _ _ _).subset ht)).2
  have hmetas : tierTables metas 0 = [] := by
    refine filter_eq_nil_iff.2 fun t ht => ?_
    simpa [runCompaction_depth hrun t ht, hpout] using hout
  have hsub : p.inputs.Subperm s.tables :=
    hinputs ▸ (scopeCompactionInputs_subperm _ _ _).trans filter_sublist.subperm
  have hcount := ((inputs_append_kept_subperm hsub).filter fun t => decide (t.depth = 0)).length_le
  change (tierTables (p.inputs ++ keptTables s.tables p.inputs) 0).length ≤ depth0Count s at hcount
  change (tierTables (keptTables s.tables p.inputs ++ metas) 0).length + 2 ≤ depth0Count s
  rw [tierTables, filter_append, length_append] at hcount ⊢
  change (tierTables p.inputs 0).length + _ ≤ _ at hcount
  change _ + (tierTables metas 0).length + 2 ≤ _
  rw [hfresh] at hcount
  rw [hmetas, length_nil]
  omega

theorem throttleWrite_lowers (hlevels : 2 ≤ o.maxLevels) (hratio : 2 ≤ o.tierRatio)
    (hstop : o.tierRatio ≤ o.l0StopTables) (hcfg : s.cfg.maxLevels = o.maxLevels)
    {wakeups wakeups' : Nat → Wakeup}
    (h : throttleWrite fl fmt o (wakeups, s) = .inr (wakeups', s')) :
    s'.cfg.maxLevels = o.maxLevels ∧ depth0Count s' < depth0Count s := by
  rw [throttleWrite] at h
  by_cases hbelow : (depth0Count s : Int) < o.l0StopTables
  · rw [if_pos hbelow] at h
    cases h
  · have hfull : o.tierRatio ≤ (depth0Count s : Int) := by omega
    rw [if_neg hbelow, pickCompaction_stopped hlevels hcfg hratio hfull] at h
    dsimp only at h
    cases hconfig : (wakeups 0).config with
    | error err =>
      rw [hconfig] at h
      cases h
    | ok r =>
      rw [hconfig] at h
      dsimp only at h
      cases hrun : compact fmt s 0 r.retain (o.runConfig r) r.now with
      | error err =>
        rw [hrun] at h
        cases h
      | ok s₁ =>
        rw [hrun] at h
        obtain ⟨hsame, hlower⟩ := compact_lowers_depth0Count hlevels (by omega) hrun
        cases h
        exact ⟨by rw [hsame, hcfg], by omega⟩

theorem throttleWrite_stops {wakeups : Nat → Wakeup} {b : StallEnd}
    (h : throttleWrite fl fmt o (wakeups, s) = .inl b) :
    (b = .released s ∧ (depth0Count s : Int) < o.l0StopTables) ∨ ∃ err, b = .latched err := by
  rw [throttleWrite] at h
  split_ifs at h with hbelow
  · exact Or.inl ⟨(Sum.inl.inj h).symm, hbelow⟩
  · refine Or.inr ?_
    split at h
    · cases h
    · split at h
      · exact ⟨_, (Sum.inl.inj h).symm⟩
      · split at h
        · exact ⟨_, (Sum.inl.inj h).symm⟩
        · cases h

end Round

/-- What a stopped writer relies on: the fresh tier is picked, a merge of it makes
it smaller, and the wait is over after as many polls as it holds tables. -/
def StopDrains (o : Options) : Prop :=
  ∀ (fl : Rounding) (fmt : TableFormat) (s : Engine) (wakeups : Nat → Wakeup),
    s.cfg.maxLevels = o.maxLevels → o.l0StopTables ≤ (depth0Count s : Int) →
      pickCompaction fl (o.gated (wakeups 0).pinned) s = some 0 ∧
      (∀ (r : RunConfig) (s' : Engine),
        compact fmt s 0 r.retain (o.runConfig r) r.now = .ok s' →
          depth0Count s' < depth0Count s) ∧
      ∃ b, Loop.run (throttleWrite fl fmt o) (depth0Count s + 1) (wakeups, s) = some b ∧
        ((∃ s', b = .released s' ∧ (depth0Count s' : Int) < o.l0StopTables) ∨
          ∃ err, b = .latched err)

theorem stopDrains_of_levels {o : Options} (haccepted : o.Accepted) (hstop : 0 < o.l0StopTables)
    (hlevels : 2 ≤ o.maxLevels) : StopDrains o := by
  intro fl fmt s wakeups hcfg hfull
  have hratio := haccepted.tierRatio
  have hmark := haccepted.stop hstop
  refine ⟨pickCompaction_stopped hlevels hcfg hratio (by omega) _, fun r s' hrun => ?_, ?_⟩
  · have := (compact_lowers_depth0Count hlevels (by omega) hrun).2
    omega
  · obtain ⟨b, ⟨wakeups₁, s₁⟩, hrun, _, _, hend⟩ := Loop.run_within
      (P := fun st : (Nat → Wakeup) × Engine => st.2.cfg.maxLevels = o.maxLevels)
      (fun st => depth0Count st.2)
      (fun st st' hP hround => throttleWrite_lowers hlevels hratio hmark hP hround)
      (s := (wakeups, s)) hcfg (Nat.lt_succ_self (depth0Count s))
    refine ⟨b, hrun, ?_⟩
    rcases throttleWrite_stops hend with ⟨hb, hbelow⟩ | hb
    · exact Or.inl ⟨s₁, hb, hbelow⟩
    · exact Or.inr hb

/-- A fresh tier of single puts, one flush each. -/
def freshTables (fmt : TableFormat) (n : Nat) : List TableMeta :=
  (List.range n).map fun i =>
    finishTable fmt 10 (i + 1) 0 ⟨[⟨⟨[], i + 1, .set⟩, []⟩], pairwise_singleton _ _⟩ []

def freshTier (fmt : TableFormat) (o : Options) (n : Nat) : Engine where
  cfg := o.engineConfig
  alloc := n
  mem := newMemtable
  imm := none
  recoveryMems := []
  tables := freshTables fmt n
  blobs := []
  lastCompactionDone := false

theorem mem_freshTables {fmt : TableFormat} {n : Nat} {t : TableMeta}
    (h : t ∈ freshTables fmt n) : t.depth = 0 ∧ t.tombstones = 0 := by
  obtain ⟨i, _, rfl⟩ := mem_map.1 h
  exact ⟨rfl, rfl⟩

theorem depth0Count_freshTier (fmt : TableFormat) (o : Options) (n : Nat) :
    depth0Count (freshTier fmt o n) = n := by
  have hall : tierTables (freshTables fmt n) 0 = freshTables fmt n :=
    filter_eq_self.2 fun t ht => by simpa using (mem_freshTables ht).1
  change (tierTables (freshTables fmt n) 0).length = n
  rw [hall, freshTables, length_map, length_range]

theorem pickCompaction_freshTier (fl : Rounding) (fmt : TableFormat) {o : Options}
    (hlevels : o.maxLevels = 1) (o' : Options) (n : Nat) :
    pickCompaction fl o' (freshTier fmt o n) = none := by
  refine List.min?_eq_none_iff.2 (filter_eq_nil_iff.2 fun depth hdepth hready => ?_)
  have hcap : resolveMaxDepth (freshTier fmt o n).cfg.maxLevels ≤ depth := by
    change resolveMaxDepth o.maxLevels ≤ depth
    rw [hlevels]
    exact Nat.zero_le depth
  have hpos := tombstones_pos_of_tierReady hcap hready
  refine absurd (sum_eq_zero fun m hm => ?_) (Nat.pos_iff_ne_zero.1 hpos)
  obtain ⟨t, ht, rfl⟩ := mem_map.1 hm
  exact (mem_freshTables (mem_filter.1 ht).1).2

/-- A stopped writer is released exactly when there is a second tier. -/
theorem stopDrains_iff_two_levels (o : Options) (haccepted : o.fillDefaults.validate = .ok ())
    (hstop : 0 < o.fillDefaults.l0StopTables) :
    StopDrains o.fillDefaults ↔ 2 ≤ o.fillDefaults.maxLevels := by
  have hok := Options.accepted_of_validate haccepted
  refine ⟨fun hdrains => ?_, stopDrains_of_levels hok hstop⟩
  by_contra hlevels
  have hone : o.fillDefaults.maxLevels = 1 := by
    have := hok.maxLevels.1
    omega
  have hcount := depth0Count_freshTier unitFormat o.fillDefaults o.fillDefaults.l0StopTables.toNat
  obtain ⟨hpick, _⟩ := hdrains .exact unitFormat
    (freshTier unitFormat o.fillDefaults o.fillDefaults.l0StopTables.toNat)
    (fun _ => ⟨false, .ok ⟨0, none, 0, 0, 0⟩⟩) rfl (by rw [hcount]; omega)
  rw [pickCompaction_freshTier _ _ hone] at hpick
  cases hpick

theorem stopDrains_iff_two_levels_defaultOptions :
    defaultOptions.fillDefaults.validate = .ok () ∧ 0 < defaultOptions.fillDefaults.l0StopTables ∧
      (StopDrains defaultOptions.fillDefaults ↔ 2 ≤ defaultOptions.fillDefaults.maxLevels) := by
  have haccepted : defaultOptions.fillDefaults.validate = .ok () := by decide +kernel
  have hstop : 0 < defaultOptions.fillDefaults.l0StopTables := by decide
  exact ⟨haccepted, hstop, stopDrains_iff_two_levels defaultOptions haccepted hstop⟩

def oneTierOptions : Options := { defaultOptions with maxLevels := 1 }

/-- The fresh tier stands at the mark and no poll changes it. -/
theorem throttleWrite_oneTierOptions_waits :
    oneTierOptions.fillDefaults.validate = .ok () ∧
      oneTierOptions.fillDefaults.l0StopTables = 24 ∧
      depth0Count (freshTier unitFormat oneTierOptions.fillDefaults 24) = 24 ∧
      ∀ fl wakeups fuel, Loop.run (throttleWrite fl unitFormat oneTierOptions.fillDefaults) fuel
        (wakeups, freshTier unitFormat oneTierOptions.fillDefaults 24) = none := by
  have hcount := depth0Count_freshTier unitFormat oneTierOptions.fillDefaults 24
  refine ⟨by decide +kernel, by decide, hcount, ?_⟩
  intro fl wakeups fuel
  induction fuel generalizing wakeups with
  | zero => rfl
  | succ fuel ih =>
    rw [Loop.run, throttleWrite, hcount, if_neg (by decide),
      pickCompaction_freshTier fl unitFormat (by decide)]
    exact ih _

end LevisDB
