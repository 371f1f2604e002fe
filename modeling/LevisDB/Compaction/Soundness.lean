import LevisDB.Compaction.Run

/-!
# Garbage collection is invisible

A merge replaces its inputs by a collapse of them.
-/

namespace LevisDB

open List

def tablesStore (tables : List TableMeta) : Mvcc.Store Key Payload :=
  storeOf (tablePoints tables) (tableRangeDels tables)

theorem collectInputRangeDels_eq_ok {inputs : List TableMeta} {rts : List RangeTombstone}
    (h : collectInputRangeDels inputs = .ok rts) : rts = tableRangeDels inputs := by
  have hfold : ∀ (inputs : List TableMeta) (acc : List RangeTombstone),
      inputs.foldlM (fun out t => (t.reader.rangeTombstones).map (out ++ ·)) acc = .ok rts →
        rts = acc ++ tableRangeDels inputs := by
    intro inputs
    induction inputs with
    | nil =>
      intro acc h
      simpa [tableRangeDels] using (Except.ok.inj h).symm
    | cons t inputs ih =>
      intro acc h
      rw [foldlM_cons] at h
      obtain ⟨acc', hacc, h⟩ := Except.bind_eq_ok.1 h
      have hread : acc' = acc ++ t.rangeDels := by
        unfold TableReader.rangeTombstones at hacc
        split at hacc
        · cases hacc
        · exact (Except.ok.inj hacc).symm
      rw [ih acc' h, hread, append_assoc]
      rfl
  simpa using hfold inputs [] h

theorem merge_newIterator {inputs : List TableMeta}
    (h : (KMerge.merge IKeyOrder (inputs.map (·.reader.newIterator))).2 = none) :
    (KMerge.merge IKeyOrder (inputs.map (·.reader.newIterator))).1.Pairwise IKeyOrder ∧
      (KMerge.merge IKeyOrder (inputs.map (·.reader.newIterator))).1.Perm (tablePoints inputs) := by
  have hhealthy : ∀ t ∈ inputs, t.reader.newIterator.err = none := by
    intro t ht
    by_contra herr
    have hfail : (KMerge.merge IKeyOrder (inputs.map (·.reader.newIterator))).2 ≠ none :=
      (KMerge.merge_err_iff _).2 ⟨_, mem_map.2 ⟨t, ht, rfl⟩, herr⟩
    exact hfail h
  have hsorted : ∀ src ∈ inputs.map (·.reader.newIterator), src.items.Pairwise IKeyOrder := by
    intro src hsrc
    obtain ⟨t, _, rfl⟩ := mem_map.1 hsrc
    exact t.reader.newIterator_sorted
  obtain ⟨hord, _, hperm⟩ := KMerge.merge_spec hsorted
  refine ⟨hord, (hperm h).trans (List.Perm.of_eq ?_)⟩
  rw [flatMap_map, tablePoints]
  exact flatMap_congr fun t ht => TableReader.newIterator_items (hhealthy t ht)

theorem runCompaction_merged {fmt : TableFormat} {s : Engine} {p : CompactionPlan}
    {retainSeq : Nat} {cc : CompactionConfig} {now : Time} {metas : List TableMeta} {alloc : Nat}
    (h : runCompaction fmt s p retainSeq cc now = .ok (metas, alloc)) :
    (KMerge.merge IKeyOrder (p.inputs.map (·.reader.newIterator))).2 = none ∧
      collapse (resolveBlob s) (p.mergeWrite retainSeq cc now (tableRangeDels p.inputs))
        ⟨none, false⟩ (KMerge.merge IKeyOrder (p.inputs.map (·.reader.newIterator))).1 =
          .ok (tablePoints metas) ∧
      tableRangeDels metas = rangeDelsToPersist (tableRangeDels p.inputs)
        (p.dropTombstones && p.noDeeperTier.isNone) retainSeq ∧
      CompactionSink.Fresh s.alloc p.outDepth ⟨alloc, none, metas, []⟩ := by
  unfold runCompaction at h
  obtain ⟨rts, hrts, h⟩ := Except.bind_eq_ok.1 h
  obtain rfl := collectInputRangeDels_eq_ok hrts
  exact writeMerged_eq_ok h

theorem runCompaction_eq_ok {fmt : TableFormat} {s : Engine} {p : CompactionPlan} {retainSeq : Nat}
    {cc : CompactionConfig} {now : Time} {metas : List TableMeta} {alloc : Nat}
    (h : runCompaction fmt s p retainSeq cc now = .ok (metas, alloc)) :
    ∃ es, es.Pairwise IKeyOrder ∧ es.Perm (tablePoints p.inputs) ∧
      collapse (resolveBlob s) (p.mergeWrite retainSeq cc now (tableRangeDels p.inputs))
        ⟨none, false⟩ es = .ok (tablePoints metas) ∧
      tableRangeDels metas = rangeDelsToPersist (tableRangeDels p.inputs)
        (p.dropTombstones && p.noDeeperTier.isNone) retainSeq ∧
      CompactionSink.Fresh s.alloc p.outDepth ⟨alloc, none, metas, []⟩ := by
  obtain ⟨hread, hcol, hpersist, hfresh⟩ := runCompaction_merged h
  obtain ⟨hsorted, hperm⟩ := merge_newIterator hread
  exact ⟨_, hsorted, hperm, hcol, hpersist, hfresh⟩

section Run

variable {fmt : TableFormat} {s : Engine} {p : CompactionPlan} {retainSeq : Nat}
  {cc : CompactionConfig} {now : Time} {metas : List TableMeta} {alloc : Nat}

theorem runCompaction_isCollapse {V : Type} {live : Payload → Time → Option V}
    (hlive : ReadsThrough live) (hfilter : cc.filter = none)
    {T : Time} (hT : cc.expiry now ≤ T) (hagree : (tablesStore p.inputs).AgreeFrom live T)
    (h : runCompaction fmt s p retainSeq cc now = .ok (metas, alloc)) :
    Mvcc.Store.Collapse live retainSeq T (fun k => p.reclaims k = true)
      (tablesStore p.inputs) (tablesStore metas) := by
  obtain ⟨es, hsorted, hperm, hcol, hrts, _⟩ := runCompaction_eq_ok h
  have hstore : tablesStore p.inputs = storeOf es (tableRangeDels p.inputs) :=
    storeOf_congr (fun e => hperm.mem_iff.symm) fun _ => Iff.rfl
  have hout : tablesStore metas = storeOf (tablePoints metas)
      (rangeDelsToPersist (tableRangeDels p.inputs)
        (p.dropTombstones && p.noDeeperTier.isNone) retainSeq) := by
    rw [← hrts, tablesStore]
  rw [hstore] at hagree ⊢
  rw [hout]
  exact collapse_isCollapse (p.mergeWrite retainSeq cc now (tableRangeDels p.inputs)) hlive hsorted
    (fun e _ w hw => restates_of_resolve hfilter hw) hT hagree hcol

end Run

theorem mem_keptTables {tables inputs : List TableMeta} {t : TableMeta} :
    t ∈ keptTables tables inputs ↔ t ∈ tables ∧ ∀ u ∈ inputs, u.num ≠ t.num := by
  simp [keptTables]

theorem mem_inputs_or_kept {tables inputs : List TableMeta} (huniq : UniqueNums tables)
    (hsub : ∀ t ∈ inputs, t ∈ tables) {t : TableMeta} :
    t ∈ tables ↔ t ∈ inputs ∨ t ∈ keptTables tables inputs := by
  rw [mem_keptTables]
  constructor
  · intro ht
    by_cases hnum : ∃ u ∈ inputs, u.num = t.num
    · obtain ⟨u, hu, hnum⟩ := hnum
      exact Or.inl (huniq.eq_of_num (hsub u hu) ht hnum ▸ hu)
    · exact Or.inr ⟨ht, fun u hu h => hnum ⟨u, hu, h⟩⟩
  · rintro (ht | ⟨ht, _⟩)
    · exact hsub t ht
    · exact ht

/-- Everything an engine holds besides the inputs of a merge. -/
def Engine.restStore (s : Engine) (inputs : List TableMeta) : Mvcc.Store Key Payload :=
  storeOf (memPoints s.memtables ++ tablePoints (keptTables s.tables inputs))
    (memRangeDels s.memtables ++ tableRangeDels (keptTables s.tables inputs))

theorem Engine.store_eq_union {s : Engine} {inputs : List TableMeta} (huniq : UniqueNums s.tables)
    (hsub : ∀ t ∈ inputs, t ∈ s.tables) : s.store = tablesStore inputs ∪ s.restStore inputs := by
  unfold tablesStore restStore store
  rw [← storeOf_append]
  refine storeOf_congr (fun e => ?_) (fun rt => ?_)
  · simp only [entries, mem_append, mem_tablePoints, mem_inputs_or_kept huniq hsub,
      or_and_right, exists_or]
    exact or_left_comm
  · simp only [rangeDels, mem_append, mem_tableRangeDels, mem_inputs_or_kept huniq hsub,
      or_and_right, exists_or]
    exact or_left_comm

theorem commitCompaction_store (s : Engine) (inputs metas : List TableMeta) (alloc : Nat) :
    (commitCompaction s inputs metas alloc).store = tablesStore metas ∪ s.restStore inputs := by
  unfold tablesStore Engine.restStore Engine.store
  rw [← storeOf_append]
  refine storeOf_congr (fun e => ?_) (fun rt => ?_)
  · simp only [Engine.entries, commitCompaction, Engine.memtables, mem_append,
      tablePoints, flatMap_append]
    tauto
  · simp only [Engine.rangeDels, commitCompaction, Engine.memtables, mem_append,
      tableRangeDels, flatMap_append]
    tauto

theorem CompactionPlan.Separated.kept_newer {tables : List TableMeta} {p : CompactionPlan}
    (hsep : p.Separated tables) (hbounded : ∀ t ∈ tables, t.Bounded) :
    Mvcc.Store.Outranks (fun k => p.reclaims k = true) (tablesStore p.inputs)
      (tablesStore (keptTables tables p.inputs)) := by
  rintro k hrec _ ⟨e, he, rfl⟩ hqk
  have huser : e.user = k := hqk
  obtain ⟨u, hu, heu⟩ := mem_tablePoints.1 he
  obtain ⟨hutab, hunum⟩ := mem_keptTables.1 hu
  have hout : u ∉ p.inputs := fun hin => hunum u hin rfl
  have hclash : ∀ t ∈ p.inputs, t.mayContain k = true → False := by
    intro t ht htk
    have hno := hsep.outside k hrec t ht htk u hutab hout
    rw [← huser, (hbounded u hutab).points e heu] at hno
    cases hno
  refine ⟨?_, fun rt hrt hcon => ?_⟩
  · rintro _ ⟨v, hv, rfl⟩ hvk
    obtain ⟨t, ht, hvt⟩ := mem_tablePoints.1 hv
    have hvk' : v.user = k := hvk
    exact (hclash t ht (hvk' ▸ (hbounded t (hsep.subset t ht)).points v hvt)).elim
  · obtain ⟨t, ht, hrtt⟩ := mem_tableRangeDels.1 hrt
    exact (hclash t ht ((hbounded t (hsep.subset t ht)).rangeDels rt hrtt k hcon)).elim

/-- The states a compaction with cutoff `T₀` is invisible in. -/
structure Engine.Collectable (T₀ : Time) (s : Engine) : Prop where
  bounded : ∀ t ∈ s.tables, t.Bounded
  uniqueNums : UniqueNums s.tables
  copies : ∀ t, T₀ ≤ t → CopiesAgreeAt t s.entries
  memNewer : ∀ e ∈ memPoints s.memtables, ∀ e' ∈ tablePoints s.tables, e'.user = e.user →
    e'.seq < e.seq
  memUncovered : ∀ e ∈ memPoints s.memtables, ∀ rt ∈ tableRangeDels s.tables,
    rt.Contains e.user → rt.seq ≤ e.seq

theorem agreeFrom_storeOf_iff {T₀ : Time} {es : List Entry} {rts : List RangeTombstone} :
    (storeOf es rts).AgreeFrom Payload.liveAt T₀ ↔ ∀ t, T₀ ≤ t → CopiesAgreeAt t es := by
  constructor
  · intro h t ht e he e' he' huser hseq
    exact h e.version ⟨e, he, rfl⟩ e'.version ⟨e', he', rfl⟩ huser hseq t ht
  · rintro h _ ⟨e, he, rfl⟩ _ ⟨e', he', rfl⟩ huser hseq t ht
    exact h t ht e he e' he' huser hseq

theorem Engine.Collectable.rest_newer {T₀ : Time} {s : Engine} (hs : s.Collectable T₀)
    {p : CompactionPlan} (hsep : p.Separated s.tables) :
    Mvcc.Store.Outranks (fun k => p.reclaims k = true) (tablesStore p.inputs)
      (s.restStore p.inputs) := by
  rintro k hrec _ ⟨e, he, rfl⟩ hqk
  have huser : e.user = k := hqk
  rcases mem_append.1 he with he | he
  · refine ⟨?_, fun rt hrt hcon => ?_⟩
    · rintro _ ⟨v, hv, rfl⟩ hvk
      obtain ⟨t, ht, hvt⟩ := mem_tablePoints.1 hv
      exact hs.memNewer e he v (mem_tablePoints.2 ⟨t, hsep.subset t ht, hvt⟩)
        (hvk.trans huser.symm)
    · obtain ⟨t, ht, hrtt⟩ := mem_tableRangeDels.1 hrt
      exact hs.memUncovered e he rt (mem_tableRangeDels.2 ⟨t, hsep.subset t ht, hrtt⟩)
        (huser ▸ hcon)
  · exact hsep.kept_newer hs.bounded k hrec _ ⟨e, he, rfl⟩ hqk

section View

variable {fmt : TableFormat} {s s' : Engine} {p : CompactionPlan} {retainSeq : Nat}
  {cc : CompactionConfig} {now : Time}

theorem runPlan_view (hfilter : cc.filter = none) (hs : s.Collectable (cc.expiry now))
    (hsep : p.Separated s.tables) (h : runPlan fmt s p retainSeq cc now = .ok s') {r : Nat}
    (hr : retainSeq ≤ r) {t : Time} (ht : cc.expiry now ≤ t) (key : Key) :
    s'.view r t key = s.view r t key := by
  obtain ⟨⟨metas, alloc⟩, hrun, h⟩ := Except.bind_eq_ok.1 h
  cases h
  have hstore := s.store_eq_union hs.uniqueNums hsep.subset
  have hagree : (tablesStore p.inputs ∪ s.restStore p.inputs).AgreeFrom Payload.liveAt
      (cc.expiry now) := by
    rw [← hstore]
    exact agreeFrom_storeOf_iff.2 hs.copies
  have hc := runCompaction_isCollapse readsThrough_liveAt hfilter (le_refl _)
    (fun v hv u hu => hagree v (Or.inl hv) u (Or.inl hu)) hrun
  have hcopies' : CopiesAgreeAt t (commitCompaction s p.inputs metas alloc).entries := by
    have hagree' := hc.agreeFrom hagree
    rw [← commitCompaction_store s p.inputs metas alloc] at hagree'
    exact agreeFrom_storeOf_iff.1 hagree' t ht
  refine visibleAt_congr hcopies' (hs.copies t ht) fun x => ?_
  change (commitCompaction s p.inputs metas alloc).store.Sees _ _ _ _ _ ↔ s.store.Sees _ _ _ _ _
  rw [commitCompaction_store, hstore]
  exact (hc.sees_iff hagree (hs.rest_newer hsep) hr ht).symm

/-- A successful `Compact` or `CompactAll` leaves every view from the watermark and
the cutoff on as it was. -/
theorem compaction_view_unchanged (hfilter : cc.filter = none) (hexpire : 0 < cc.expireBefore)
    (hs : s.Collectable cc.expireBefore)
    (h : (∃ depth, compact fmt s depth retainSeq cc now = .ok s') ∨
      compactAll fmt s retainSeq cc now = .ok s') (key : Key) {r : Nat} (hr : retainSeq ≤ r)
    {t : Time} (ht : cc.expireBefore ≤ t) : s'.view r t key = s.view r t key := by
  have hcut : cc.expiry now = cc.expireBefore := if_neg (ne_of_gt hexpire)
  rw [← hcut] at hs ht
  rcases h with ⟨depth, h⟩ | h
  · unfold compact at h
    cases hplan : planCompact s.tables depth cc with
    | none =>
      rw [hplan] at h
      cases h
      rfl
    | some p =>
      rw [hplan] at h
      exact runPlan_view hfilter hs (planCompact_separated hs.uniqueNums hplan) h hr ht key
  · unfold compactAll at h
    cases hplan : planCompactAll s.tables with
    | none =>
      rw [hplan] at h
      cases h
      rfl
    | some p =>
      rw [hplan] at h
      exact runPlan_view hfilter hs (planCompactAll_separated hplan) h hr ht key

end View

def shadowedFormat : TableFormat := ⟨fun _ _ => 0, fun _ => 0⟩

/-- A table that deleted `[a, z)` at 7 after storing `k` at 3, and a memtable with
a version of `k`. -/
def shadowedStore (memSeq : Nat) : Engine where
  cfg := ⟨4096, 10, 7, 0, 0, false⟩
  alloc := 1
  mem := newMemtable.put memSeq [107] [118]
  imm := none
  recoveryMems := []
  tables := [finishTable shadowedFormat 10 1 0
    ⟨[⟨⟨[107], 3, .set⟩, [117]⟩], pairwise_singleton _ _⟩ [⟨[97], [122], 7⟩]]
  blobs := []
  lastCompactionDone := false

def shadowedConfig : CompactionConfig := ⟨10, 0, 0, 0, 7, 1, none, 0, 0, false, false, false⟩

theorem shadowedStore_bounded (memSeq : Nat) : ∀ t ∈ (shadowedStore memSeq).tables, t.Bounded := by
  intro t ht
  obtain rfl := mem_singleton.1 ht
  exact finishTable_bounded _ _ _ _ _ _

theorem shadowedStore_collectable : (shadowedStore 9).Collectable shadowedConfig.expireBefore where
  bounded := shadowedStore_bounded 9
  uniqueNums := nodup_singleton _
  copies t _ := CopiesIdentical.agreeAt (by decide) t
  memNewer := by decide
  memUncovered := by decide

theorem compaction_view_unchanged_shadowedStore :
    (shadowedStore 9).Collectable shadowedConfig.expireBefore ∧
      ∃ s', compactAll shadowedFormat (shadowedStore 9) 10 shadowedConfig 1 = .ok s' ∧
        s'.view 10 1 [107] = (shadowedStore 9).view 10 1 [107] := by
  cases h : compactAll shadowedFormat (shadowedStore 9) 10 shadowedConfig 1 with
  | error err =>
    have hok : (compactAll shadowedFormat (shadowedStore 9) 10 shadowedConfig 1).isOk = true := by
      decide +kernel
    rw [h] at hok
    cases hok
  | ok s' =>
    exact ⟨shadowedStore_collectable, s', rfl,
      compaction_view_unchanged rfl (by decide) shadowedStore_collectable (Or.inr h) [107]
        (Nat.le_refl _) (by decide)⟩

/-- The memtable's version of `k` is newer than the table's, but older than the
table's range tombstone: collecting the tombstone brings it back. -/
theorem compactAll_shadowedStore_resurrects :
    (∀ t ∈ (shadowedStore 5).tables, t.Bounded) ∧ UniqueNums (shadowedStore 5).tables ∧
      CopiesIdentical (shadowedStore 5).entries ∧
      (∀ e ∈ memPoints (shadowedStore 5).memtables, ∀ e' ∈ tablePoints (shadowedStore 5).tables,
        e'.user = e.user → e'.seq < e.seq) ∧
      shadowedConfig.filter = none ∧ 0 < shadowedConfig.expireBefore ∧
      (shadowedStore 5).view 10 1 [107] = none ∧
      (compactAll shadowedFormat (shadowedStore 5) 10 shadowedConfig 1).map
        (fun s' => s'.view 10 1 [107]) = .ok (some ⟨.inline [118], 0⟩) := by
  refine ⟨shadowedStore_bounded 5, nodup_singleton _, by decide, by decide, rfl, by decide,
    by decide, ?_⟩
  decide +kernel

end LevisDB
