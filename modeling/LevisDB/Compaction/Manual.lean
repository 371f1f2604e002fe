import LevisDB.Compaction.Latest
import LevisDB.Compaction.Drain
import LevisDB.Engine.Flush

/-!
# Manual compaction

`CompactRange` flushes, relocates every tier one step down in turn, and rewrites
the deepest tier in place. The last pass merges only the overlap groups that reach
the deepest tier, and not even those when the tier is a single table without
tombstones; whatever it leaves alone keeps its dead versions.
-/

namespace LevisDB

open List

/-- Compacts the given tiers in turn, each without the filter. -/
def relocate (fmt : TableFormat) (retain : Nat) (cc : CompactionConfig) (now : Time) :
    List Nat → Engine → Except Err Engine
  | [], s => .ok s
  | depth :: depths, s => do
      let s' ← compact fmt s depth retain { cc with filter := none } now
      relocate fmt retain cc now depths s'

def CompactionConfig.final (cc : CompactionConfig) : CompactionConfig :=
  { cc with collapseInPlace := true, rewriteSingle := true }

def compactTiered (fmt : TableFormat) (s : Engine) (retain : Nat) (cc : CompactionConfig)
    (now : Time) : Except Err Engine := do
  let bottom := maxDepthOf s.tables
  let s' ← relocate fmt retain cc now (List.range bottom) s
  compact fmt s' bottom retain cc.final now

/-- Retires the WAL through the latest sequence, unless that was done; the sequence
a filter may judge. The new WAL segment takes a file number. -/
def prepareCompactionFilter (fmt : TableFormat) (s : Engine) (readSeq safe : Nat) :
    Except Err (Engine × Nat) :=
  if readSeq ≤ safe then .ok (s, safe)
  else
    match allocNext s.alloc with
    | none => .error .fileNumberExhausted
    | some num => do
        let s₁ ← Engine.flush fmt { s with alloc := num }
        let s₂ ← Engine.flush fmt s₁
        pure (s₂, readSeq)

/-- A filter is used only when some sequence is safe. -/
def manualRunConfig (filter : Option CompactionFilter) (readSeq safe : Nat) (now : Time) :
    RunConfig :=
  if safe = 0 then ⟨readSeq, none, 0, now, now⟩
  else ⟨readSeq, filter, if filter.isSome then safe else 0, now, now⟩

def compactEngineFully (fmt : TableFormat) (o : Options) (filter : Option CompactionFilter)
    (s : Engine) (readSeq safe : Nat) (now : Time) : Except Err Engine := do
  let s' ← s.flush fmt
  compactTiered fmt s' readSeq (o.runConfig (manualRunConfig filter readSeq safe now)) now

/-- `CompactRange` of an open, writable database that nobody else reads or writes. -/
def compactRange (fmt : TableFormat) (o : Options) (filter : Option CompactionFilter) (s : Engine)
    (readSeq safe : Nat) (now : Time) : Except Err Engine :=
  match filter with
  | none => compactEngineFully fmt o none s readSeq safe now
  | some f => do
      let (s', safe') ← prepareCompactionFilter fmt s readSeq safe
      compactEngineFully fmt o (some f) s' readSeq safe' now

/-- The files of an engine: tables with sound bounds under their own numbers, all
handed out, and nothing stored outside the sequences up to the latest. -/
structure Engine.Housed (readSeq : Nat) (s : Engine) : Prop where
  bounded : ∀ t ∈ s.tables, t.Bounded
  uniqueNums : UniqueNums s.tables
  tableNums : ∀ t ∈ s.tables, t.num ≤ s.alloc
  blobNums : ∀ b ∈ s.blobs, b.1 ≤ s.alloc
  room : s.alloc ≤ 2 ^ 32 - 1
  blobFileSize : s.cfg.blobFileSize < 2 ^ 63
  values : ∀ m ∈ s.memtables, ∀ e ∈ m.points, e.value.length < 2 ^ 32
  points : ∀ e ∈ s.entries, 0 < e.seq ∧ e.seq ≤ readSeq
  rangeDels : ∀ rt ∈ s.rangeDels, rt.seq ≤ readSeq

section Steps

variable {fmt : TableFormat} {readSeq : Nat} {s s' : Engine}

theorem UniqueNums.add {tables news : List TableMeta} (h : UniqueNums tables)
    (hnew : ∀ t ∈ news, ∀ u ∈ tables, u.num ≠ t.num)
    (hasc : news.Pairwise fun t u => t.num < u.num) : UniqueNums (tables ++ news) := by
  unfold UniqueNums
  rw [map_append]
  refine List.Nodup.append h ((pairwise_map.2 hasc).imp fun hlt => ne_of_lt hlt) ?_
  intro n hn hn'
  obtain ⟨u, hu, rfl⟩ := List.mem_map.1 hn
  obtain ⟨t, ht, hnum⟩ := List.mem_map.1 hn'
  exact hnew t ht u hu hnum.symm

theorem UniqueNums.append {tables news : List TableMeta} {n : Nat} (h : UniqueNums tables)
    (hold : ∀ t ∈ tables, t.num ≤ n) (hnew : ∀ t ∈ news, n < t.num)
    (hasc : news.Pairwise fun t u => t.num < u.num) : UniqueNums (tables ++ news) :=
  h.add (fun t ht u hu => Nat.ne_of_lt (Nat.lt_of_le_of_lt (hold u hu) (hnew t ht))) hasc

theorem rangeDelsToPersist_subset {rts : List RangeTombstone} {drop : Bool} {retain : Nat}
    {rt : RangeTombstone} (h : rt ∈ rangeDelsToPersist rts drop retain) : rt ∈ rts := by
  unfold rangeDelsToPersist at h
  split_ifs at h
  · exact h
  · exact (mem_filter.1 h).1

theorem Engine.Housed.commit (hs : s.Housed readSeq) {p : CompactionPlan}
    (hsub : ∀ t ∈ p.inputs, t ∈ s.tables) {retain : Nat} {cc : CompactionConfig} {now : Time}
    {metas : List TableMeta} {alloc : Nat}
    (h : runCompaction fmt s p retain cc now = .ok (metas, alloc)) :
    (commitCompaction s p.inputs metas alloc).Housed readSeq := by
  obtain ⟨es, _, hperm, hcol, hrts, hfresh⟩ := runCompaction_eq_ok h
  have halloc : s.alloc ≤ alloc := hfresh.alloc
  have hinput : ∀ e ∈ tablePoints p.inputs, 0 < e.seq ∧ e.seq ≤ readSeq := by
    intro e he
    obtain ⟨t, ht, het⟩ := mem_tablePoints.1 he
    exact hs.points e (mem_append_right _ (mem_tablePoints.2 ⟨t, hsub t ht, het⟩))
  have hout : ∀ w ∈ tablePoints metas, 0 < w.seq ∧ w.seq ≤ readSeq := by
    intro w hw
    obtain ⟨e, he, hwritten⟩ := mem_collapse hcol hw
    rw [(resolveCompactionEntry_key hwritten.resolved).2]
    exact hinput e (hperm.mem_iff.1 he)
  have hspan : ∀ rt ∈ tableRangeDels metas, rt.seq ≤ readSeq := by
    intro rt hrt
    rw [hrts] at hrt
    obtain ⟨t, ht, hrtt⟩ := mem_tableRangeDels.1 (rangeDelsToPersist_subset hrt)
    exact hs.rangeDels rt (mem_append_right _ (mem_tableRangeDels.2 ⟨t, hsub t ht, hrtt⟩))
  have hkept : ∀ t ∈ keptTables s.tables p.inputs, t ∈ s.tables :=
    fun t ht => (mem_keptTables.1 ht).1
  refine ⟨?_, ?_, ?_, ?_, hfresh.room hs.room, hs.blobFileSize, hs.values, ?_, ?_⟩
  · intro t ht
    rcases mem_append.1 ht with ht | ht
    · exact hs.bounded t (hkept t ht)
    · exact (hfresh.tables t ht).1
  · refine (hs.uniqueNums.sublist (keptTables_sublist _ _)).append (n := s.alloc) ?_ ?_
      hfresh.ascending
    · exact fun t ht => hs.tableNums t (hkept t ht)
    · exact fun t ht => (hfresh.nums t ht).1
  · intro t ht
    rcases mem_append.1 ht with ht | ht
    · exact Nat.le_trans (hs.tableNums t (hkept t ht)) halloc
    · exact (hfresh.nums t ht).2
  · exact fun b hb => Nat.le_trans (hs.blobNums b hb) halloc
  · intro e he
    rcases mem_append.1 he with he | he
    · exact hs.points e (mem_append_left _ he)
    · obtain ⟨t, ht, het⟩ := mem_tablePoints.1 he
      rcases mem_append.1 ht with ht | ht
      · exact hs.points e (mem_append_right _ (mem_tablePoints.2 ⟨t, hkept t ht, het⟩))
      · exact hout e (mem_tablePoints.2 ⟨t, ht, het⟩)
  · intro rt hrt
    rcases mem_append.1 hrt with hrt | hrt
    · exact hs.rangeDels rt (mem_append_left _ hrt)
    · obtain ⟨t, ht, hrtt⟩ := mem_tableRangeDels.1 hrt
      rcases mem_append.1 ht with ht | ht
      · exact hs.rangeDels rt (mem_append_right _ (mem_tableRangeDels.2 ⟨t, hkept t ht, hrtt⟩))
      · exact hspan rt (mem_tableRangeDels.2 ⟨t, ht, hrtt⟩)

theorem Engine.Housed.compact (hs : s.Housed readSeq) {depth retain : Nat} {cc : CompactionConfig}
    {now : Time} (h : compact fmt s depth retain cc now = .ok s') : s'.Housed readSeq := by
  cases hplan : planCompact s.tables depth cc with
  | none =>
    rw [LevisDB.compact, hplan] at h
    cases h
    exact ⟨hs.bounded, hs.uniqueNums, hs.tableNums, hs.blobNums, hs.room, hs.blobFileSize,
      hs.values, hs.points, hs.rangeDels⟩
  | some p =>
    obtain ⟨metas, alloc, hrun, rfl⟩ := compact_of_plan hplan h
    exact hs.commit (planCompact_subset hplan) hrun

theorem Engine.rotate_sealed (s : Engine) : s.rotate.2 = s.rotate.1.imm.isSome := by
  unfold Engine.rotate
  split_ifs <;> rfl

theorem Engine.flush_cases (h : s.flush fmt = .ok s') :
    s' = s.rotate.1 ∨ ∃ imm out, s.rotate.1.imm = some imm ∧
      writeTable fmt s.rotate.1 imm = .ok out ∧
      s' = (s.rotate.1.created out).installFlush out.table := by
  unfold Engine.flush at h
  have hsealed := s.rotate_sealed
  generalize s.rotate = r at h hsealed ⊢
  obtain ⟨s₁, sealed⟩ := r
  cases sealed with
  | false => exact Or.inl (Except.ok.inj h).symm
  | true =>
    obtain ⟨imm, himm⟩ := Option.isSome_iff_exists.1 hsealed.symm
    dsimp only at himm
    obtain ⟨out, hout, h⟩ := Except.bind_eq_ok.1 h
    rw [himm, Option.getD_some] at hout
    exact Or.inr ⟨imm, out, himm, hout, (Except.ok.inj h).symm⟩

theorem Engine.rotate_memtables (s : Engine) :
    s.rotate.1.memtables = s.memtables ∨ s.rotate.1.memtables = newMemtable :: s.memtables := by
  unfold Engine.rotate
  split_ifs with hkeep
  · exact Or.inl rfl
  · have himm : s.imm = none := by
      cases himm : s.imm with
      | none => rfl
      | some imm => exact absurd (Or.inl (by rw [himm]; rfl)) hkeep
    refine Or.inr ?_
    simp [Engine.memtables, himm]

theorem Engine.rotate_rest (s : Engine) :
    s.rotate.1.cfg = s.cfg ∧ s.rotate.1.alloc = s.alloc ∧ s.rotate.1.tables = s.tables ∧
      s.rotate.1.blobs = s.blobs := by
  unfold Engine.rotate
  split_ifs <;> exact ⟨rfl, rfl, rfl, rfl⟩

theorem Engine.rotate_contents (s : Engine) :
    memPoints s.rotate.1.memtables = memPoints s.memtables ∧
      memRangeDels s.rotate.1.memtables = memRangeDels s.memtables := by
  rcases s.rotate_memtables with h | h <;> rw [h]
  · exact ⟨rfl, rfl⟩
  · simp [memPoints, memRangeDels, newMemtable]

theorem Engine.rotate_entries (s : Engine) :
    s.rotate.1.entries = s.entries ∧ s.rotate.1.rangeDels = s.rangeDels := by
  obtain ⟨hpts, hrts⟩ := s.rotate_contents
  refine ⟨?_, ?_⟩
  · rw [Engine.entries, Engine.entries, hpts, s.rotate_rest.2.2.1]
  · rw [Engine.rangeDels, Engine.rangeDels, hrts, s.rotate_rest.2.2.1]

theorem FlushOutput.Stores.nums {imm : Memtable} {out : FlushOutput} (h : out.Stores s imm)
    (huniq : UniqueNums s.tables) (htables : ∀ t ∈ s.tables, t.num ≤ s.alloc)
    (hblobs : ∀ b ∈ s.blobs, b.1 ≤ s.alloc) :
    UniqueNums (s.tables ++ [out.table]) ∧ (∀ t ∈ s.tables ++ [out.table], t.num ≤ out.alloc) ∧
      ∀ b ∈ s.blobs ++ out.blobs, b.1 ≤ out.alloc := by
  have hnum := h.num
  have halloc := h.alloc
  refine ⟨huniq.append htables ?_ (pairwise_singleton _ _), fun t ht => ?_, fun b hb => ?_⟩
  · simp [hnum]
  · rcases mem_append.1 ht with ht | ht
    · have := htables t ht
      omega
    · rw [mem_singleton.1 ht]
      omega
  · rcases mem_append.1 hb with hb | hb
    · have := hblobs b hb
      omega
    · exact (h.blobNums b hb).2

section

variable (hs : s.Housed readSeq)
include hs

theorem Engine.Housed.rotate : s.rotate.1.Housed readSeq := by
  obtain ⟨hcfg, halloc, htables, hblobs⟩ := s.rotate_rest
  refine ⟨?_, ?_, ?_, ?_, ?_, ?_, ?_, ?_, ?_⟩
  · rw [htables]
    exact hs.bounded
  · rw [htables]
    exact hs.uniqueNums
  · rw [htables, halloc]
    exact hs.tableNums
  · rw [hblobs, halloc]
    exact hs.blobNums
  · rw [halloc]
    exact hs.room
  · rw [hcfg]
    exact hs.blobFileSize
  · intro m hm
    rcases s.rotate_memtables with h | h <;> rw [h] at hm
    · exact hs.values m hm
    · rcases mem_cons.1 hm with rfl | hm
      · exact fun e he => absurd he not_mem_nil
      · exact hs.values m hm
  · exact fun e he => hs.points e (s.rotate_entries.1 ▸ he)
  · exact fun rt hrt => hs.rangeDels rt (s.rotate_entries.2 ▸ hrt)

theorem Engine.Housed.stores {imm : Memtable} (himm : s.imm = some imm)
    {out : FlushOutput} (h : writeTable fmt s imm = .ok out) : out.Stores s imm := by
  have hmem : imm ∈ s.memtables := by simp [Engine.memtables, himm]
  exact writeTable_eq_ok hs.blobNums hs.room hs.blobFileSize (hs.values imm hmem) h

theorem Engine.Housed.install {imm : Memtable} (himm : s.imm = some imm)
    {out : FlushOutput} (hout : out.Stores s imm) :
    ((s.created out).installFlush out.table).Housed readSeq := by
  obtain ⟨huniq, hnums, hblobs⟩ := hout.nums hs.uniqueNums hs.tableNums hs.blobNums
  refine ⟨?_, huniq, hnums, hblobs, hout.room, hs.blobFileSize,
    fun m hm => hs.values m (Engine.mem_memtables_installed himm hm), ?_,
    fun rt hrt => hs.rangeDels rt ((hout.mem_rangeDels himm).1 hrt)⟩
  · intro t ht
    rcases mem_append.1 ht with ht | ht
    · exact hs.bounded t ht
    · obtain rfl := mem_singleton.1 ht
      exact hout.bounded
  · intro e he
    rcases Engine.mem_entries_installed.1 he with he | he
    · exact hs.points e ((Engine.mem_entries_sealed himm).2 (Or.inl he))
    · obtain ⟨p, hp, hstored⟩ := hout.source he
      rw [hstored.seq]
      exact hs.points p ((Engine.mem_entries_sealed himm).2 (Or.inr hp))

theorem Engine.Housed.flush (h : s.flush fmt = .ok s') :
    s'.Housed readSeq := by
  rcases Engine.flush_cases h with rfl | ⟨imm, out, himm, hout, rfl⟩
  · exact hs.rotate
  · exact hs.rotate.install himm (hs.rotate.stores himm hout)

end

end Steps

section Hops

variable {fmt : TableFormat} {readSeq : Nat} {s s' : Engine} {cc : CompactionConfig} {now : Time}

theorem mem_tableRangeDels_split {tables inputs : List TableMeta} (huniq : UniqueNums tables)
    (hsub : ∀ t ∈ inputs, t ∈ tables) {rt : RangeTombstone} (h : rt ∈ tableRangeDels tables) :
    rt ∈ tableRangeDels inputs ∨ rt ∈ tableRangeDels (keptTables tables inputs) := by
  obtain ⟨t, ht, hrt⟩ := mem_tableRangeDels.1 h
  rcases (mem_inputs_or_kept huniq hsub).1 ht with ht | ht
  · exact Or.inl (mem_tableRangeDels.2 ⟨t, ht, hrt⟩)
  · exact Or.inr (mem_tableRangeDels.2 ⟨t, ht, hrt⟩)

theorem planCompact_above {tables : List TableMeta} {depth : Nat}
    (hin : cc.collapseInPlace = false) (hdepth : depth < maxDepthOf tables) {p : CompactionPlan}
    (h : planCompact tables depth cc = some p) :
    resolveOutDepth depth cc ≤ maxDepthOf tables ∧
      p = hopPlan (scopeCompactionInputs (tierTables tables depth) (outsideRanges tables depth) cc)
        (resolveOutDepth depth cc) false := by
  have hwhole : wholeTierMerge tables depth cc = false := by
    simp [wholeTierMerge, Nat.ne_of_lt hdepth]
  have hout : resolveOutDepth depth cc ≤ maxDepthOf tables := by
    unfold resolveOutDepth
    rw [hin]
    dsimp only
    split_ifs <;> omega
  unfold planCompact at h
  dsimp only at h
  rw [hwhole] at h
  simp only [Bool.and_false, Bool.or_false, Bool.false_eq_true, if_false] at h
  rw [decide_eq_false (Nat.not_lt.2 hout)] at h
  split_ifs at h
  exact ⟨hout, (Option.some.inj h).symm⟩

theorem compact_hop_keeps (hs : s.Housed readSeq) (hin : cc.collapseInPlace = false) {depth : Nat}
    (hdepth : depth < maxDepthOf s.tables) {retain : Nat}
    (h : compact fmt s depth retain cc now = .ok s') :
    maxDepthOf s'.tables = maxDepthOf s.tables ∧
      ∀ rt ∈ tableRangeDels s.tables, rt ∈ tableRangeDels s'.tables := by
  cases hplan : planCompact s.tables depth cc with
  | none =>
    rw [compact, hplan] at h
    cases h
    exact ⟨rfl, fun rt hrt => hrt⟩
  | some p =>
    obtain ⟨metas, alloc, hrun, rfl⟩ := compact_of_plan hplan h
    have hsub := planCompact_subset hplan
    obtain ⟨hout, hhop⟩ := planCompact_above hin hdepth hplan
    have hmetas := runCompaction_depth hrun
    refine ⟨Nat.le_antisymm ?_ ?_, fun rt hrt => ?_⟩
    · refine maxDepthOf_le fun t ht => ?_
      rcases mem_append.1 ht with ht | ht
      · exact le_maxDepthOf (mem_keptTables.1 ht).1
      · rw [hmetas t ht, hhop]
        exact hout
    · refine maxDepthOf_le fun t ht => ?_
      by_cases hin : t ∈ p.inputs
      · have htier : t.depth = depth := by
          rw [hhop] at hin
          simpa using (mem_filter.1 (scopeCompactionInputs_subset hin)).2
        obtain ⟨u, hu, hdeep⟩ := exists_maxDepthOf (by omega : 0 < maxDepthOf s.tables)
        have hkept : u ∈ keptTables s.tables p.inputs := by
          refine mem_keptTables.2 ⟨hu, fun v hv hnum => ?_⟩
          obtain rfl := hs.uniqueNums.eq_of_num (hsub v hv) hu hnum
          rw [hhop] at hv
          have := (mem_filter.1 (scopeCompactionInputs_subset hv)).2
          simp only [decide_eq_true_eq] at this
          omega
        have hle : u.depth ≤ maxDepthOf (keptTables s.tables p.inputs ++ metas) :=
          le_maxDepthOf (mem_append_left metas hkept)
        change t.depth ≤ maxDepthOf (keptTables s.tables p.inputs ++ metas)
        omega
      · have hkept : t ∈ keptTables s.tables p.inputs :=
          ((mem_inputs_or_kept hs.uniqueNums hsub).1 ht).resolve_left hin
        exact le_maxDepthOf (mem_append_left metas hkept)
    · obtain ⟨_, _, _, _, hrts, _⟩ := runCompaction_eq_ok hrun
      change rt ∈ tableRangeDels (keptTables s.tables p.inputs ++ metas)
      rw [tableRangeDels, flatMap_append, mem_append]
      rcases mem_tableRangeDels_split hs.uniqueNums hsub hrt with hrt | hrt
      · refine Or.inr ?_
        have hcarry : p.dropTombstones = false := by rw [hhop]; rfl
        change rt ∈ tableRangeDels metas
        rw [hrts, hcarry, Bool.false_and, rangeDelsToPersist, if_pos rfl]
        exact hrt
      · exact Or.inl hrt

theorem relocate_keeps (hs : s.Housed readSeq) (hin : cc.collapseInPlace = false) {retain : Nat}
    {depths : List Nat} (hdepths : ∀ d ∈ depths, d < maxDepthOf s.tables)
    (h : relocate fmt retain cc now depths s = .ok s') :
    s'.Housed readSeq ∧ maxDepthOf s'.tables = maxDepthOf s.tables ∧
      ∀ rt ∈ tableRangeDels s.tables, rt ∈ tableRangeDels s'.tables := by
  induction depths generalizing s with
  | nil =>
    cases h
    exact ⟨hs, rfl, fun rt hrt => hrt⟩
  | cons depth depths ih =>
    obtain ⟨s₁, hhop, h⟩ := Except.bind_eq_ok.1 h
    have hin' : ({ cc with filter := none } : CompactionConfig).collapseInPlace = false := hin
    obtain ⟨hmax, hrts⟩ := compact_hop_keeps hs hin' (hdepths depth mem_cons_self) hhop
    obtain ⟨hs', hmax', hrts'⟩ := ih (hs.compact hhop)
      (fun d hd => by rw [hmax]; exact hdepths d (mem_cons_of_mem _ hd)) h
    exact ⟨hs', hmax'.trans hmax, fun rt hrt => hrts' rt (hrts rt hrt)⟩

end Hops

/-- Nothing in these tables can be reclaimed: one live version of each key and no
range tombstone. -/
structure Tidy (T : Time) (tables : List TableMeta) : Prop where
  single : ((tablePoints tables).map (·.user)).Nodup
  live : ∀ e ∈ tablePoints tables, e.payload.liveAt T ≠ none
  spans : tableRangeDels tables = []

/-- The tables the last pass does not read. -/
def leftAlone (tables : List TableMeta) (cc : CompactionConfig) : List TableMeta :=
  match planCompact tables (maxDepthOf tables) cc.final with
  | none => tables
  | some p => keptTables tables p.inputs

section Last

variable {fmt : TableFormat} {readSeq : Nat} {s s' : Engine} {cc : CompactionConfig} {now : Time}

theorem planCompact_final {tables : List TableMeta} {p : CompactionPlan}
    (h : planCompact tables (maxDepthOf tables) cc.final = some p) :
    p = ⟨wholeTierInputs tables (maxDepthOf tables), maxDepthOf tables, true, none⟩ := by
  have hstay : resolveOutDepth (maxDepthOf tables) cc.final = maxDepthOf tables := rfl
  have hwhole : wholeTierMerge tables (maxDepthOf tables) cc.final = true := by
    simp [wholeTierMerge, hstay]
  unfold planCompact at h
  dsimp only at h
  rw [hwhole, hstay] at h
  simp only [Bool.or_true, if_true] at h
  split_ifs at h
  exact (Option.some.inj h).symm

theorem runCompaction_tidy {p : CompactionPlan} (hrec : ∀ k, p.reclaims k = true)
    (hdrop : (p.dropTombstones && p.noDeeperTier.isNone) = true)
    (hpts : ∀ e ∈ tablePoints p.inputs, e.seq ≤ readSeq)
    (hspans : ∀ rt ∈ tableRangeDels p.inputs, rt.seq ≤ readSeq) {metas : List TableMeta}
    {alloc : Nat} (h : runCompaction fmt s p readSeq cc now = .ok (metas, alloc)) :
    Tidy (cc.expiry now) metas ∧ ∀ e ∈ tablePoints metas, e ∈ tablePoints p.inputs ∧
      ∀ rt ∈ tableRangeDels p.inputs, rt.Contains e.user → rt.seq ≤ e.seq := by
  obtain ⟨es, hsorted, hperm, hcol, hrts, _⟩ := runCompaction_eq_ok h
  have hseq : ∀ e ∈ es, e.seq ≤ readSeq := fun e he => hpts e (hperm.mem_iff.1 he)
  have hrec' : ∀ k, (p.mergeWrite readSeq cc now (tableRangeDels p.inputs)).reclaims k = true :=
    hrec
  obtain ⟨hsub, hout⟩ := collapse_latest hsorted hseq hrec' hcol
  refine ⟨⟨?_, fun e he => (hout e he).1, ?_⟩, fun e he => ⟨?_, fun rt hrt hcon => ?_⟩⟩
  · have hasc : (heads none es).Pairwise fun a b => a.user < b.user :=
      (heads_ascending hsorted (by simp)).1
    exact ((pairwise_map.2 hasc).imp fun hlt => ne_of_lt hlt).sublist (hsub.map _)
  · rw [hrts, hdrop, rangeDelsToPersist, if_neg (by simp), filter_eq_nil_iff]
    intro rt hrt
    have := hspans rt hrt
    simpa using this
  · exact hperm.mem_iff.1 ((heads_sublist none es).subset (hsub.subset he))
  · by_contra hlt
    have hcov := (hout e he).2
    refine absurd (lt_maxCoveringRangeDelSeqLE_iff.2 ⟨rt, hrt, hcon, ?_, hspans rt hrt⟩)
      (Nat.not_lt.2 hcov)
    omega

theorem Tidy.sublist {T : Time} {tables sub : List TableMeta} (h : Tidy T tables)
    (hsub : sub.Sublist tables) : Tidy T sub := by
  have hpts : (tablePoints sub).Sublist (tablePoints tables) := hsub.flatMap _
  have hrts : (tableRangeDels sub).Sublist (tableRangeDels tables) := hsub.flatMap _
  refine ⟨h.single.sublist (hpts.map _), fun e he => h.live e (hpts.subset he), ?_⟩
  rw [h.spans] at hrts
  exact sublist_nil.1 hrts

theorem wholeTierInputs_apart {tables : List TableMeta} {depth : Nat}
    (hbounded : ∀ t ∈ tables, t.Bounded) {k : Key} {t u : TableMeta}
    (ht : t ∈ wholeTierInputs tables depth) (htk : t.mayContain k = true)
    (hu : u ∈ keptTables tables (wholeTierInputs tables depth)) {e : Entry} (he : e ∈ u.points) :
    e.user ≠ k := by
  rintro rfl
  obtain ⟨hmem, hnum⟩ := mem_keptTables.1 hu
  have hout : u ∉ wholeTierInputs tables depth := fun hin => hnum u hin rfl
  have hno := wholeTierInputs_outside ht htk hmem hout
  rw [(hbounded u hmem).points e he] at hno
  cases hno

theorem leftAlone_sublist (h : compact fmt s (maxDepthOf s.tables) readSeq cc.final now = .ok s') :
    (leftAlone s.tables cc).Sublist s'.tables := by
  cases hplan : planCompact s.tables (maxDepthOf s.tables) cc.final with
  | none =>
    rw [compact, hplan] at h
    cases h
    rw [leftAlone, hplan]
  | some p =>
    obtain ⟨metas, alloc, _, rfl⟩ := compact_of_plan hplan h
    rw [leftAlone, hplan]
    exact sublist_append_left _ _

theorem compact_final_tidy (hs : s.Housed readSeq)
    (h : compact fmt s (maxDepthOf s.tables) readSeq cc.final now = .ok s')
    (hkept : Tidy (cc.expiry now) (leftAlone s.tables cc)) :
    Tidy (cc.expiry now) s'.tables ∧ ∀ e ∈ tablePoints s'.tables, ∀ rt ∈ tableRangeDels s.tables,
      rt.Contains e.user → rt.seq ≤ e.seq := by
  cases hplan : planCompact s.tables (maxDepthOf s.tables) cc.final with
  | none =>
    have hleft : leftAlone s.tables cc = s.tables := by rw [leftAlone, hplan]
    rw [compact, hplan] at h
    cases h
    rw [hleft] at hkept
    refine ⟨hkept, fun e _ rt hrt => ?_⟩
    rw [hkept.spans] at hrt
    cases hrt
  | some p =>
    have hleft : leftAlone s.tables cc = keptTables s.tables p.inputs := by rw [leftAlone, hplan]
    obtain ⟨metas, alloc, hrun, rfl⟩ := compact_of_plan hplan h
    have hsub := planCompact_subset hplan
    obtain rfl := planCompact_final hplan
    set inputs := wholeTierInputs s.tables (maxDepthOf s.tables) with hinputs
    change Tidy _ (keptTables s.tables inputs ++ metas) ∧
      ∀ e ∈ tablePoints (keptTables s.tables inputs ++ metas), _
    rw [hleft] at hkept
    obtain ⟨hmetas, hsource⟩ := runCompaction_tidy (fun _ => rfl) rfl
      (fun e he => by
        obtain ⟨t, ht, het⟩ := mem_tablePoints.1 he
        exact (hs.points e (mem_append_right _
          (mem_tablePoints.2 ⟨t, hsub t ht, het⟩))).2)
      (fun rt hrt => by
        obtain ⟨t, ht, hrtt⟩ := mem_tableRangeDels.1 hrt
        exact hs.rangeDels rt
          (mem_append_right _ (mem_tableRangeDels.2 ⟨t, hsub t ht, hrtt⟩)))
      hrun
    have hpoints : tablePoints (keptTables s.tables inputs ++ metas) =
        tablePoints (keptTables s.tables inputs) ++ tablePoints metas := flatMap_append
    rw [hpoints]
    refine ⟨⟨?_, fun e he => ?_, ?_⟩, fun e he rt hrt hcon => ?_⟩
    · rw [hpoints, map_append]
      refine hkept.single.append hmetas.single fun k hk hk' => ?_
      obtain ⟨e, he, rfl⟩ := List.mem_map.1 hk
      obtain ⟨w, hw, huser⟩ := List.mem_map.1 hk'
      obtain ⟨u, hu, heu⟩ := mem_tablePoints.1 he
      obtain ⟨t, ht, hwt⟩ := mem_tablePoints.1 (hsource w hw).1
      refine wholeTierInputs_apart hs.bounded ht ?_ hu heu rfl
      rw [← huser]
      exact (hs.bounded t (hsub t ht)).points w hwt
    · rw [hpoints] at he
      exact (mem_append.1 he).elim (hkept.live e) (hmetas.live e)
    · rw [tableRangeDels, flatMap_append]
      exact append_eq_nil_iff.2 ⟨hkept.spans, hmetas.spans⟩
    · rcases mem_tableRangeDels_split hs.uniqueNums hsub hrt with hrt | hrt
      · rcases mem_append.1 he with he | he
        · obtain ⟨u, hu, heu⟩ := mem_tablePoints.1 he
          obtain ⟨t, ht, hrtt⟩ := mem_tableRangeDels.1 hrt
          exact absurd rfl (wholeTierInputs_apart hs.bounded ht
            ((hs.bounded t (hsub t ht)).rangeDels rt hrtt e.user hcon) hu heu)
        · exact (hsource e he).2 rt hrt hcon
      · change rt ∈ tableRangeDels (keptTables s.tables inputs) at hrt
        rw [hkept.spans] at hrt
        cases hrt

end Last

end LevisDB
