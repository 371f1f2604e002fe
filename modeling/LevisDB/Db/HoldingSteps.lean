import LevisDB.Compaction.Manual
import LevisDB.Db.Holdings

/-!
# Steps that keep a history

One lemma for each way the engine changes: a batch is buffered, the memtable is
sealed, a sealed memtable becomes a table, an ingested table is installed, and
the outputs of a merge replace its inputs.
-/

namespace LevisDB

open List

namespace Engine.Holds

variable {f h : History} {w : Nat} {T : Time} {walSeq : Nat} {s : Engine}

theorem raise (hs : s.Holds f h w T walSeq) {walSeq' : Nat} (hle : walSeq ≤ walSeq') :
    s.Holds f h w T walSeq' :=
  { hs with
    pointSeqs := fun p hp => Nat.le_trans (hs.pointSeqs p hp) hle
    spanSeqs := fun rt hrt => Nat.le_trans (hs.spanSeqs rt hrt) hle }

theorem allocate (hs : s.Holds f h w T walSeq) {n : Nat} (hle : s.alloc ≤ n)
    (hroom : n ≤ 2 ^ 32 - 1) : ({ s with alloc := n } : Engine).Holds f h w T walSeq :=
  { hs with
    tableNums := fun t ht => Nat.le_trans (hs.tableNums t ht) hle
    blobNums := fun b hb => Nat.le_trans (hs.blobNums b hb) hle
    room := hroom }

theorem entry_seq (hs : s.Holds f h w T walSeq) {e : Entry} (he : e ∈ s.entries) :
    e.seq ≤ walSeq := by
  rcases mem_append.1 he with he | he
  · exact hs.pointSeqs e ((hs.points e).2 (Or.inr he))
  · obtain ⟨p, hp, hform⟩ := hs.contents.forms e he
    rw [hform.seq]
    exact hs.pointSeqs p ((hs.points p).2 (Or.inl hp))

theorem mem_memPoints_applyEntries {es : List WalEntry} {e : Entry} :
    e ∈ memPoints (s.applyEntries es).memtables ↔
      e ∈ memPoints s.memtables ∨ e ∈ logPoints es := by
  simp only [memtables, applyEntries, memPoints, flatMap_cons, mem_append,
    (foldl_applyEntry_points_perm s.mem es).mem_iff]
  tauto

theorem mem_memRangeDels_applyEntries {es : List WalEntry} {rt : RangeTombstone} :
    rt ∈ memRangeDels (s.applyEntries es).memtables ↔
      rt ∈ memRangeDels s.memtables ∨ rt ∈ logRangeDels es := by
  simp only [memtables, applyEntries, memRangeDels, flatMap_cons, mem_append,
    foldl_applyEntry_rts]
  tauto

theorem entries_applyEntries_perm (s : Engine) (es : List WalEntry) :
    (s.applyEntries es).entries.Perm (s.entries ++ logPoints es) := by
  have hmem := (foldl_applyEntry_points_perm s.mem es).append_right
    (memPoints (s.imm.toList ++ s.recoveryMems) ++ tablePoints s.tables)
  simp only [entries, memtables, applyEntries, memPoints, flatMap_cons] at hmem ⊢
  rw [append_assoc]
  refine hmem.trans ?_
  rw [append_assoc, append_assoc, append_assoc]
  exact (perm_append_comm.trans (by rw [append_assoc])).append_left _

theorem logPoints_distinct {es : List WalEntry} (hasc : Ascending es) :
    ((logPoints es).map Entry.place).Nodup := by
  refine pairwise_map.2 (List.Pairwise.filterMap _ ?_ hasc)
  intro a b hlt p hp q hq hplace
  have hseq : p.seq = q.seq := congrArg Prod.snd hplace
  rw [WalEntry.seq_of_point? hp, WalEntry.seq_of_point? hq] at hseq
  exact absurd hseq (Nat.ne_of_lt hlt)

section

variable (hs : s.Holds f h w T walSeq)
include hs

theorem apply {es : List WalEntry} (hvalid : ∀ e ∈ es, e.Valid)
    (hasc : Ascending es) (hlow : ∀ e ∈ es, walSeq < e.seq) {walSeq' : Nat}
    (hhigh : ∀ e ∈ es, e.seq ≤ walSeq') (hle : walSeq ≤ walSeq') :
    (s.applyEntries es).Holds f (h.log es) w T walSeq' := by
  have hnewPoint : ∀ p ∈ logPoints es, walSeq < p.seq ∧ p.seq ≤ walSeq' := by
    intro p hp
    obtain ⟨e, he, hpe⟩ := mem_logPoints.1 hp
    rw [WalEntry.seq_of_point? hpe]
    exact ⟨hlow e he, hhigh e he⟩
  have hnewSpan : ∀ rt ∈ logRangeDels es, walSeq < rt.seq ∧ rt.seq ≤ walSeq' := by
    intro rt hrt
    obtain ⟨e, he, hrte⟩ := mem_logRangeDels.1 hrt
    rw [WalEntry.seq_of_span? hrte]
    exact ⟨hlow e he, hhigh e he⟩
  have hflushed : ∀ p ∈ f.points, p.seq ≤ walSeq := fun p hp =>
    hs.pointSeqs p ((hs.points p).2 (Or.inl hp))
  have hflushedSpan : ∀ rt ∈ f.spans, rt.seq ≤ walSeq := fun rt hrt =>
    hs.spanSeqs rt ((hs.spans rt).2 (Or.inl hrt))
  have hlogged := logPoints_distinct hasc
  refine { hs with
    points := fun p => ?_
    spans := fun rt => ?_
    plain := fun p hp => ?_
    pointSeqs := fun p hp => ?_
    spanSeqs := fun rt hrt => ?_
    copies := ?_
    newer := fun e he p hp huser => ?_
    uncovered := fun e he rt hrt hcon => ?_
    older := fun imm himm e he => ?_
    lengths := fun e he => ?_
    distinct := ?_ }
  · rw [mem_memPoints_applyEntries, ← or_assoc, ← hs.points]
    exact mem_append
  · rw [mem_memRangeDels_applyEntries, ← or_assoc, ← hs.spans]
    exact mem_append
  · rcases mem_append.1 hp with hp | hp
    · exact hs.plain p hp
    · obtain ⟨e, he, hpe⟩ := mem_logPoints.1 hp
      exact ⟨WalEntry.kind_of_point? hpe, WalEntry.decodes_of_point? (hvalid e he) hpe⟩
  · rcases mem_append.1 hp with hp | hp
    · exact Nat.le_trans (hs.pointSeqs p hp) hle
    · exact (hnewPoint p hp).2
  · rcases mem_append.1 hrt with hrt | hrt
    · exact Nat.le_trans (hs.spanSeqs rt hrt) hle
    · exact (hnewSpan rt hrt).2
  · intro p hp q hq huser hseq
    rcases mem_append.1 hp with hp | hp <;> rcases mem_append.1 hq with hq | hq
    · exact hs.copies p hp q hq huser hseq
    · have := hs.pointSeqs p hp
      have := hnewPoint q hq
      omega
    · have := hs.pointSeqs q hq
      have := hnewPoint p hp
      omega
    · exact inj_on_of_nodup_map hlogged hp hq (Prod.ext huser hseq)
  · rcases mem_memPoints_applyEntries.1 he with he | he
    · exact hs.newer e he p hp huser
    · have := hflushed p hp
      have := hnewPoint e he
      omega
  · rcases mem_memPoints_applyEntries.1 he with he | he
    · exact hs.uncovered e he rt hrt hcon
    · have := hflushedSpan rt hrt
      have := hnewPoint e he
      omega
  · have he' : e ∈ s.mem.points ++ logPoints es :=
      (foldl_applyEntry_points_perm s.mem es).mem_iff.1 he
    rcases mem_append.1 he' with he | he
    · exact hs.older imm himm e he
    · have hnew := hnewPoint e he
      have himem : imm ∈ s.memtables := by
        have himm' : s.imm = some imm := himm
        simp [memtables, himm']
      refine ⟨fun p hp => ?_, fun rt hrt => ?_⟩
      · have := hs.pointSeqs p ((hs.points p).2 (Or.inr (mem_memPoints.2 ⟨imm, himem, hp⟩)))
        omega
      · have := hs.spanSeqs rt ((hs.spans rt).2 (Or.inr (mem_memRangeDels.2 ⟨imm, himem, hrt⟩)))
        omega
  · rcases mem_memPoints_applyEntries.1 he with he | he
    · exact hs.lengths e he
    · obtain ⟨x, hx, hex⟩ := mem_logPoints.1 he
      exact WalEntry.length_of_point? (hvalid x hx) hex
  · rw [((entries_applyEntries_perm s es).map _).nodup_iff, map_append]
    refine hs.distinct.append hlogged ?_
    intro place hplace hplace'
    obtain ⟨e, he, rfl⟩ := mem_map.1 hplace
    obtain ⟨p, hp, heq⟩ := mem_map.1 hplace'
    have hseq : p.seq = e.seq := congrArg Prod.snd heq
    have := hs.entry_seq he
    have := hnewPoint p hp
    omega

theorem rotate : s.rotate.1.Holds f h w T walSeq := by
  unfold Engine.rotate
  split_ifs with hkeep
  · exact hs
  · have hnone : s.imm = none := by
      cases himm : s.imm with
      | none => rfl
      | some imm => simp [himm] at hkeep
    have hmems : ({ s with imm := some s.mem, mem := newMemtable } : Engine).memtables =
        newMemtable :: s.memtables := by
      simp [memtables, hnone]
    have hpts : memPoints ({ s with imm := some s.mem, mem := newMemtable } : Engine).memtables =
        memPoints s.memtables := by
      rw [hmems]
      rfl
    have hrts : memRangeDels ({ s with imm := some s.mem, mem := newMemtable } : Engine).memtables =
        memRangeDels s.memtables := by
      rw [hmems]
      rfl
    refine { hs with
      points := fun p => by rw [hpts]; exact hs.points p
      spans := fun rt => by rw [hrts]; exact hs.spans rt
      newer := by rw [hpts]; exact hs.newer
      uncovered := by rw [hpts]; exact hs.uncovered
      older := fun imm _ e he => absurd he not_mem_nil
      lengths := by rw [hpts]; exact hs.lengths
      distinct := ?_ }
    change ((memPoints _ ++ tablePoints s.tables).map Entry.place).Nodup
    rw [hpts]
    exact hs.distinct

theorem stores {fmt : TableFormat} {imm : Memtable}
    (himm : s.imm = some imm) {out : FlushOutput} (h : writeTable fmt s imm = .ok out) :
    out.Stores s imm := by
  refine writeTable_eq_ok hs.blobNums hs.room hs.blobFileSize (fun e he => ?_) h
  refine hs.lengths e (mem_memPoints.2 ⟨imm, ?_, he⟩)
  simp [memtables, himm]

theorem install {imm : Memtable} (himm : s.imm = some imm)
    {out : FlushOutput} (hout : out.Stores s imm) :
    ((s.created out).installFlush out.table).Holds
      ⟨f.points ++ imm.points, f.spans ++ imm.rts⟩ h w T walSeq := by
  obtain ⟨huniq, hnums, hblobs⟩ := hout.nums hs.uniqueNums hs.tableNums hs.blobNums
  have hmems : s.memtables = [s.mem, imm] := by simp [memtables, himm, hs.recovered]
  have hmems' : ((s.created out).installFlush out.table).memtables = [s.mem] := by
    simp [memtables, installFlush, created, hs.recovered]
  have hpts : memPoints s.memtables = s.mem.points ++ imm.points := by simp [hmems, memPoints]
  have hrts : memRangeDels s.memtables = s.mem.rts ++ imm.rts := by simp [hmems, memRangeDels]
  have hpts' : memPoints ((s.created out).installFlush out.table).memtables = s.mem.points := by
    simp [hmems', memPoints]
  have hrts' : memRangeDels ((s.created out).installFlush out.table).memtables = s.mem.rts := by
    simp [hmems', memRangeDels]
  have himmHist : ∀ p ∈ imm.points, p ∈ h.points := fun p hp =>
    (hs.points p).2 (Or.inr (by rw [hpts]; exact mem_append_right _ hp))
  have hkeep : ∀ e ∈ s.mem.points, e ∈ memPoints s.memtables := fun e he => by
    rw [hpts]
    exact mem_append_left _ he
  have hplaces : out.table.points.map Entry.place = imm.points.map Entry.place := by
    have hall := hout.points
    generalize imm.points = es at hall
    generalize out.table.points = es' at hall
    induction hall with
    | nil => rfl
    | cons hstored _ ih =>
      rw [map_cons, map_cons, ih]
      exact congrArg (· :: _) (Prod.ext hstored.user hstored.seq)
  refine
    { contents := ?_
      points := fun p => ?_
      spans := fun rt => ?_
      plain := hs.plain
      pointSeqs := hs.pointSeqs
      spanSeqs := hs.spanSeqs
      copies := hs.copies
      newer := fun e he p hp huser => ?_
      uncovered := fun e he rt hrt hcon => ?_
      older := fun imm' himm' => by cases himm'
      lengths := fun e he => ?_
      distinct := ?_
      uniqueNums := huniq
      tableNums := hnums
      blobNums := hblobs
      room := hout.room
      blobFileSize := hs.blobFileSize
      resolves := ?_
      recovered := hs.recovered }
  · refine hs.contents.add (blobsExtend_append out.blobs) (fun p hp => ?_) ?_ ?_ ?_ ?_ ?_ ?_
    · exact (hs.plain p ((hs.points p).2 (Or.inl hp))).1
    · simpa using hout.bounded
    · simpa using hout.healthy
    · intro e he
      exact hout.source (by simpa [tablePoints] using he)
    · intro p hp
      obtain ⟨e, he, hstored⟩ := hout.copy hp
      exact ⟨e, by simpa [tablePoints] using he, hstored⟩
    · intro rt
      simp [tableRangeDels, hout.rangeDels]
    · intro p hp r _ m hm hlt _
      have hpm : p ∈ memPoints s.memtables := by
        rw [hpts]
        exact mem_append_right _ hp
      rcases hm with ⟨_, ⟨q, hq, rfl⟩, hk, rfl⟩ | ⟨rt, hrt, hcon, rfl⟩
      · exact absurd hlt (not_lt.2 (le_of_lt (hs.newer p hpm q hq hk)))
      · exact absurd hlt (not_lt.2 (hs.uncovered p hpm rt hrt hcon))
  · rw [hpts', hs.points, hpts, mem_append, mem_append]
    tauto
  · rw [hrts', hs.spans, hrts, mem_append, mem_append]
    tauto
  · rw [hpts'] at he
    rcases mem_append.1 hp with hp | hp
    · exact hs.newer e (hkeep e he) p hp huser
    · exact (hs.older imm himm e he).1 p hp
  · rw [hpts'] at he
    rcases mem_append.1 hrt with hrt | hrt
    · exact hs.uncovered e (hkeep e he) rt hrt hcon
    · exact le_of_lt ((hs.older imm himm e he).2 rt hrt)
  · rw [hpts'] at he
    exact hs.lengths e (hkeep e he)
  · have hold := hs.distinct
    have hentries : ((s.created out).installFlush out.table).entries =
        s.mem.points ++ (tablePoints s.tables ++ out.table.points) := by
      rw [entries, hpts']
      simp [installFlush, created, tablePoints]
    rw [hentries, map_append, map_append, hplaces]
    rw [entries, hpts, map_append, map_append, append_assoc] at hold
    exact ((perm_append_comm.append_left _).nodup_iff).1 hold
  · rcases hs.resolves with hpath | hnone
    · exact Or.inl hpath
    · by_cases hpath : s.cfg.blobPath = true
      · exact Or.inl hpath
      · refine Or.inr fun t ht e he => ?_
        rcases mem_append.1 ht with ht | ht
        · exact hnone t ht e he
        · obtain rfl := mem_singleton.1 ht
          have hoff : valueSeparationOn s = false := by simp [valueSeparationOn, hpath]
          rw [(hout.inline hoff).2.1] at he
          exact (hs.plain e (himmHist e he)).1

end

end Engine.Holds

/-- A table written for ingestion at `seq`, above everything accepted so far, whose
keys no memtable holds. -/
structure Engine.Awaits (s : Engine) (h : History) (seq : Nat) (table : TableMeta) : Prop where
  bounded : table.Bounded
  healthy : table.reader.fault = none
  rangeDels : table.rangeDels = []
  stamped : ∀ e ∈ table.points, e.seq = seq
  plain : ∀ e ∈ table.points, e.kind ≠ .blobRef ∧ e.payload.Decodes
  ascending : table.points.Pairwise fun a b => a.user < b.user
  apart : ∀ e ∈ memPoints s.memtables, ∀ p ∈ table.points, e.user ≠ p.user
  allocated : table.num ≤ s.alloc
  fresh : ∀ t ∈ s.tables, t.num ≠ table.num
  above : ∀ p ∈ h.points, p.seq < seq
  aboveSpans : ∀ rt ∈ h.spans, rt.seq < seq

theorem Ingested.awaits {f h : History} {w : Nat} {T : Time} {walSeq : Nat} {s : Engine}
    (hs : s.Holds f h w T walSeq) {src : TableReader} (hsrc : ExternalFile src) {table : TableMeta}
    {seq : Nat} (hin : Ingested s walSeq src table seq) :
    ({ s with alloc := table.num } : Engine).Awaits h seq table where
  bounded := hin.bounded
  healthy := hin.healthy
  rangeDels := hin.rangeDels
  stamped e he := by
    rw [hin.points] at he
    obtain ⟨p, _, rfl⟩ := mem_map.1 he
    rfl
  plain e he := by
    rw [hin.points] at he
    obtain ⟨p, hp, rfl⟩ := mem_map.1 he
    exact ⟨hsrc.kinds p hp, hsrc.decodes p hp⟩
  ascending := by
    rw [hin.points, pairwise_map]
    exact hsrc.ascending
  apart e he p hp := by
    rw [hin.points] at hp
    obtain ⟨q, hq, rfl⟩ := mem_map.1 hp
    obtain ⟨m, hm, hem⟩ := mem_memPoints.1 he
    have hmem : m ∈ s.mem :: (s.imm.toList ++ s.recoveryMems) := hm
    rw [hs.recovered, append_nil] at hmem
    exact hin.apart m hmem e hem q hq
  allocated := le_refl _
  fresh t ht := by
    have := hs.tableNums t ht
    have := hin.num
    omega
  above p hp := by
    have := hs.pointSeqs p hp
    have := hin.reserved
    omega
  aboveSpans rt hrt := by
    have := hs.spanSeqs rt hrt
    have := hin.reserved
    omega

theorem Engine.Awaits.get_ingest {s : Engine} {h : History} {seq : Nat} {table : TableMeta}
    (ha : s.Awaits h seq table) (hold : CopiesIdentical h.points)
    (hcopies : CopiesIdentical (h.ingest table.points).points) (r : Nat) (t : Time) (key : Key) :
    (h.ingest table.points).get r t key =
      (table.points.find? fun e => e.user = key ∧ e.seq ≤ r).elim (h.get r t key) fun e =>
        (e.payload.liveAt t).bind (liveReference []) := by
  unfold History.get
  cases hfind : table.points.find? fun e => e.user = key ∧ e.seq ≤ r with
  | none =>
    have hnone : IsNewestIn key r table.points none := by simpa [IsNewestIn] using hfind
    have hnil : IsNewestIn key r [] none := by simp [IsNewestIn]
    have hbest : IsNewestIn key r h.points _ := foldl_newerVersion_isNewestIn h.points hnil
    have happend : IsNewestIn key r (h.ingest table.points).points _ := hbest.append hnone
    rw [visibleAt_eq (hcopies.agreeAt t) happend, visibleAt_eq (hold.agreeAt t) hbest]
    cases h.points.foldl (newerVersion key r) none <;> rfl
  | some e =>
    have he : e ∈ table.points := List.mem_of_find?_eq_some hfind
    have hstamp := ha.stamped e he
    obtain ⟨huser, hseq⟩ : e.user = key ∧ e.seq ≤ r := by simpa using List.find?_some hfind
    have hbest : IsNewestIn key r (h.ingest table.points).points (some e) := by
      refine ⟨mem_append_right _ he, huser, hseq, fun p hp _ _ => hstamp ▸ ?_⟩
      exact (mem_append.1 hp).elim (fun hp => (ha.above p hp).le) fun hp => (ha.stamped p hp).le
    have hlive : ¬ rangeDeleted h.spans key e.seq r = true := by
      rw [rangeDeleted_iff]
      rintro ⟨rt, hrt, _, hlt, _⟩
      have := ha.aboveSpans rt hrt
      omega
    rw [visibleAt_eq (hcopies.agreeAt t) hbest, Option.bind_some]
    exact congrArg (Option.bind · _) (if_neg hlive)

namespace Engine.Holds

variable {f h : History} {w : Nat} {T : Time} {walSeq : Nat} {s : Engine}

theorem ingest (hs : s.Holds f h w T walSeq) {seq : Nat} {table : TableMeta}
    (ha : s.Awaits h seq table) (hseq : seq ≤ walSeq) :
    ({ s with tables := s.tables ++ [table] } : Engine).Holds (f.ingest table.points)
      (h.ingest table.points) w T walSeq := by
  have hflushed : ∀ p ∈ f.points, p.seq < seq := fun p hp =>
    ha.above p ((hs.points p).2 (Or.inl hp))
  have hentries : ∀ e ∈ s.entries, e.seq < seq := by
    intro e he
    rcases mem_append.1 he with he | he
    · exact ha.above e ((hs.points e).2 (Or.inr he))
    · obtain ⟨p, hp, hform⟩ := hs.contents.forms e he
      rw [hform.seq]
      exact hflushed p hp
  refine { hs with
    contents := ?_
    points := fun p => ?_
    plain := fun p hp => ?_
    pointSeqs := fun p hp => ?_
    copies := fun p hp q hq huser hsame => ?_
    newer := fun e he p hp huser => ?_
    distinct := ?_
    uniqueNums := ?_
    tableNums := fun t ht => ?_
    resolves := ?_ }
  · have hadd : Contents s.blobs w T (f.points ++ table.points) (f.spans ++ [])
        (s.tables ++ [table]) := by
      refine hs.contents.add (BlobsExtend.refl _)
        (fun p hp => (hs.plain p ((hs.points p).2 (Or.inl hp))).1) (by simpa using ha.bounded)
        (by simpa using ha.healthy) (fun e he => ⟨e, by simpa [tablePoints] using he, .inline⟩)
        (fun e he => ⟨e, by simpa [tablePoints] using he, .inline⟩)
        (fun rt => by simp [tableRangeDels, ha.rangeDels]) ?_
      intro p hp r _ m hm hlt _
      rw [ha.stamped p hp] at hlt
      rcases hm with ⟨_, ⟨q, hq, rfl⟩, _, rfl⟩ | ⟨rt, hrt, _, rfl⟩
      · exact absurd hlt (not_lt.2 (le_of_lt (hflushed q hq)))
      · have := ha.aboveSpans rt ((hs.spans rt).2 (Or.inl hrt))
        exact absurd hlt (not_lt.2 (le_of_lt this))
    rwa [append_nil] at hadd
  · change p ∈ h.points ++ table.points ↔ p ∈ f.points ++ table.points ∨ _
    rw [mem_append, mem_append, hs.points]
    exact or_right_comm
  · exact (mem_append.1 hp).elim (hs.plain p) (ha.plain p)
  · rcases mem_append.1 hp with hp | hp
    · exact hs.pointSeqs p hp
    · exact Nat.le_trans (Nat.le_of_eq (ha.stamped p hp)) hseq
  · rcases mem_append.1 hp with hp | hp <;> rcases mem_append.1 hq with hq | hq
    · exact hs.copies p hp q hq huser hsame
    · have := ha.above p hp
      have := ha.stamped q hq
      omega
    · have := ha.above q hq
      have := ha.stamped p hp
      omega
    · have hne : table.points.Pairwise fun a b => a.user ≠ b.user := ha.ascending.imp ne_of_lt
      exact inj_on_of_nodup_map (pairwise_map.2 hne) hp hq huser
  · rcases mem_append.1 hp with hp | hp
    · exact hs.newer e he p hp huser
    · exact absurd huser.symm (ha.apart e he p hp)
  · have hlist : ({ s with tables := s.tables ++ [table] } : Engine).entries =
        s.entries ++ table.points := by
      simp [entries, memtables, tablePoints]
    rw [hlist, map_append]
    refine hs.distinct.append ?_ ?_
    · refine pairwise_map.2 (ha.ascending.imp fun hlt hplace => ?_)
      exact ne_of_lt hlt (congrArg Prod.fst hplace)
    · intro place hold hnew
      obtain ⟨e, he, rfl⟩ := mem_map.1 hold
      obtain ⟨p, hp, hplace⟩ := mem_map.1 hnew
      have hsame : p.seq = e.seq := congrArg Prod.snd hplace
      have := hentries e he
      have := ha.stamped p hp
      omega
  · refine hs.uniqueNums.add (fun t ht u hu => ?_) (pairwise_singleton _ _)
    obtain rfl := mem_singleton.1 ht
    exact ha.fresh u hu
  · rcases mem_append.1 ht with ht | ht
    · exact hs.tableNums t ht
    · obtain rfl := mem_singleton.1 ht
      exact ha.allocated
  · refine hs.resolves.imp_right fun hnone t ht e he => ?_
    rcases mem_append.1 ht with ht | ht
    · exact hnone t ht e he
    · obtain rfl := mem_singleton.1 ht
      exact (ha.plain e he).1

end Engine.Holds

/-- A merge has written the tables `metas`; its inputs are still live, and what was
installed since is newer than anything it reclaims. -/
structure Engine.Merging (fmt : TableFormat) (s : Engine) (p : CompactionPlan) (retain : Nat)
    (cutoff : Time) (places : List (Key × Nat)) (metas : List TableMeta) : Prop where
  ran : ∃ s₀ cc now alloc, runCompaction fmt s₀ p retain cc now = .ok (metas, alloc) ∧
    cc.expiry now = cutoff ∧ p.discarded s₀ cc now = places
  subset : ∀ t ∈ p.inputs, t ∈ s.tables
  outside : ∀ k, p.reclaims k = true →
    ∀ q ∈ (tablesStore (keptTables s.tables p.inputs)).versions, q.key = k →
      (∀ v ∈ (tablesStore p.inputs).versions, v.key = k → v.seq < q.seq) ∧
        ∀ rt ∈ (tablesStore p.inputs).spans, rt.Contains k → rt.seq ≤ q.seq
  nums : ∀ t ∈ metas, t.num ≤ s.alloc ∧ ∀ u ∈ s.tables, u.num ≠ t.num

theorem Engine.Holds.inputs_apart {f h : History} {w : Nat} {T : Time} {walSeq : Nat} {s : Engine}
    (hs : s.Holds f h w T walSeq) {inputs : List TableMeta} (hsub : ∀ t ∈ inputs, t ∈ s.tables)
    {e : Entry} (he : e ∈ tablePoints inputs) {e' : Entry}
    (he' : e' ∈ memPoints s.memtables ∨ e' ∈ tablePoints (keptTables s.tables inputs)) :
    e.place ≠ e'.place := by
  obtain ⟨t, ht, het⟩ := mem_tablePoints.1 he
  have hdistinct := hs.distinct
  rw [entries, map_append, nodup_append'] at hdistinct
  obtain ⟨_, htables, hdisj⟩ := hdistinct
  rcases he' with he' | he'
  · intro hplace
    refine hdisj (mem_map.2 ⟨e', he', rfl⟩) (mem_map.2 ⟨e, ?_, hplace⟩)
    exact mem_tablePoints.2 ⟨t, hsub t ht, het⟩
  · obtain ⟨u, hu, heu⟩ := mem_tablePoints.1 he'
    obtain ⟨hutab, hunum⟩ := mem_keptTables.1 hu
    have hne : t ≠ u := fun hsame => hunum t ht (congrArg TableMeta.num hsame)
    rw [tablePoints, map_flatMap, nodup_flatMap] at htables
    have : Std.Symm (Function.onFun List.Disjoint fun t : TableMeta => t.points.map Entry.place) :=
      ⟨fun _ _ hab _ hb ha => hab ha hb⟩
    have hpair := htables.2.forall (hsub t ht) hutab hne
    intro hplace
    exact hpair (mem_map.2 ⟨e, het, rfl⟩) (mem_map.2 ⟨e', heu, hplace.symm⟩)

theorem CompactionPlan.mem_discarded {p : CompactionPlan} {s : Engine} {cc : CompactionConfig}
    {now : Time} {place : Key × Nat} (h : place ∈ p.discarded s cc now) :
    ∃ e ∈ tablePoints p.inputs, e.place = place := by
  obtain ⟨e, he, hplace⟩ := mem_map.1 h
  exact ⟨e, (mem_filter.1 he).1, hplace⟩

theorem runCompaction_forms_discard {fmt : TableFormat} {s : Engine} {pl : CompactionPlan}
    {retain : Nat} {cc : CompactionConfig} {now T : Time} {metas : List TableMeta} {alloc : Nat}
    {blobs : List (Nat × Bytes)} {f : History}
    (hrun : runCompaction fmt s pl retain cc now = .ok (metas, alloc))
    (hcopies : CopiesIdentical (tablePoints pl.inputs))
    (hpoints : ∀ p ∈ f.points, p.kind ≠ .blobRef)
    (hT : cc.expiry now ≤ T)
    (hforms : ∀ e ∈ tablePoints pl.inputs, ∃ p ∈ f.points, StoredForm blobs T p e) :
    ∀ e ∈ tablePoints metas,
      ∃ p ∈ (f.discard (pl.discarded s cc now)).points, StoredForm blobs T p e := by
  intro w hw
  obtain ⟨e, he, _, hres⟩ := (runCompaction_distinct hrun).2 w hw
  obtain ⟨p, hp, hform⟩ := hforms e he
  have hplace : p.place = e.place := Prod.ext hform.user.symm hform.seq.symm
  have hjudged := resolve_afterFilter hres
  rw [afterFilter_eq_place hcopies he] at hjudged
  by_cases hgone : e.place ∈ pl.discarded s cc now
  · rw [if_pos hgone] at hjudged
    have hw : w = e.asTombstone := (resolveCompactionEntry_form hjudged).elim id id
    have hsame : p.asTombstone = e.asTombstone := by
      unfold Entry.asTombstone
      rw [hform.user, hform.seq]
    refine ⟨p.asTombstone, mem_map.2 ⟨p, hp, if_pos (hplace ▸ hgone)⟩, ?_⟩
    rw [hw, hsame]
    exact .stored .inline
  · rw [if_neg hgone] at hjudged
    exact ⟨p, History.mem_discard_of_not_mem hp (hplace ▸ hgone),
      hform.resolve (hpoints p hp) rfl hT hjudged⟩

theorem Engine.Holds.commit {f h : History} {w : Nat} {T : Time} {walSeq : Nat} {s : Engine}
    (hs : s.Holds f h w T walSeq) {fmt : TableFormat} {p : CompactionPlan} {retain : Nat}
    {cutoff : Time} {places : List (Key × Nat)} {metas : List TableMeta}
    (hm : s.Merging fmt p retain cutoff places metas) :
    (commitCompaction s p.inputs metas s.alloc).Holds (f.discard places) (h.discard places)
      (max w retain) (max T cutoff) walSeq := by
  obtain ⟨s₀, cc, now, alloc, hrun, rfl, rfl⟩ := hm.ran
  obtain ⟨_, _, _, _, _, hfresh⟩ := runCompaction_eq_ok hrun
  obtain ⟨hmetas, hsource⟩ := runCompaction_distinct hrun
  have hinput : ∀ e ∈ tablePoints p.inputs, e ∈ tablePoints s.tables := by
    intro e he
    obtain ⟨t, ht, het⟩ := mem_tablePoints.1 he
    exact mem_tablePoints.2 ⟨t, hm.subset t ht, het⟩
  have hkeptSub : ∀ t ∈ keptTables s.tables p.inputs, t ∈ s.tables := fun t ht =>
    (mem_keptTables.1 ht).1
  have hcopies : CopiesIdentical (tablePoints p.inputs) := fun a ha b hb =>
    hs.copies_entries a (mem_append_right _ (hinput a ha)) b
      (mem_append_right _ (hinput b hb))
  have hapart : ∀ e, e ∈ memPoints s.memtables ∨ e ∈ tablePoints (keptTables s.tables p.inputs) →
      e.place ∉ p.discarded s₀ cc now := by
    intro e he hmem
    obtain ⟨e', he', hplace⟩ := CompactionPlan.mem_discarded hmem
    exact hs.inputs_apart hm.subset he' he hplace
  have hpoints : ∀ q ∈ f.points, q.kind ≠ .blobRef := fun q hq =>
    (hs.plain q ((hs.points q).2 (Or.inl hq))).1
  have hlater := hs.contents.later (le_max_left w retain) (le_max_left T (cc.expiry now))
  refine
    { contents := ?_
      points := fun q => ?_
      spans := hs.spans
      plain := fun q hq => ?_
      pointSeqs := fun q hq => ?_
      spanSeqs := hs.spanSeqs
      copies := History.copies_discard hs.copies _
      newer := fun e he q hq huser => ?_
      uncovered := hs.uncovered
      older := hs.older
      lengths := hs.lengths
      distinct := ?_
      uniqueNums := ?_
      tableNums := fun t ht => ?_
      blobNums := hs.blobNums
      room := hs.room
      blobFileSize := hs.blobFileSize
      resolves := ?_
      recovered := hs.recovered }
  · refine hlater.compactErased hs.copies_flushed hs.uniqueNums hm.subset
      (fun t ht => (hfresh.tables t ht).1) (fun t ht => (hfresh.tables t ht).2.1) ?_ (le_refl _)
      (le_max_right _ _) (le_max_right _ _)
      (runCompaction_isCollapse_erased (readsThrough_bytesAt s.blobs) hcopies hrun)
      (fun e he => hapart e (Or.inr he)) hm.outside
    exact runCompaction_forms_discard hrun hcopies hpoints (le_max_right _ _)
      fun e he => hlater.forms e (hinput e he)
  · constructor
    · intro hq
      obtain ⟨r, hr, rfl⟩ := mem_map.1 hq
      rcases (hs.points r).1 hr with hr | hr
      · exact Or.inl (mem_map.2 ⟨r, hr, rfl⟩)
      · rw [if_neg (hapart r (Or.inl hr))]
        exact Or.inr hr
    · rintro (hq | hq)
      · obtain ⟨r, hr, rfl⟩ := mem_map.1 hq
        exact mem_map.2 ⟨r, (hs.points r).2 (Or.inl hr), rfl⟩
      · exact History.mem_discard_of_not_mem ((hs.points q).2 (Or.inr hq)) (hapart q (Or.inl hq))
  · obtain ⟨r, hr, _, rfl | rfl⟩ := History.mem_points_discard hq
    · exact hs.plain q hr
    · exact ⟨by simp [Entry.asTombstone], trivial⟩
  · obtain ⟨r, hr, hplace, _⟩ := History.mem_points_discard hq
    have hseq : q.seq = r.seq := congrArg Prod.snd hplace
    rw [hseq]
    exact hs.pointSeqs r hr
  · obtain ⟨r, hr, hplace, _⟩ := History.mem_points_discard hq
    have hseq : q.seq = r.seq := congrArg Prod.snd hplace
    have hkey : q.user = r.user := congrArg Prod.fst hplace
    rw [hseq]
    exact hs.newer e he r hr (hkey ▸ huser)
  · have hlist : (commitCompaction s p.inputs metas s.alloc).entries =
        (memPoints s.memtables ++ tablePoints (keptTables s.tables p.inputs)) ++
          tablePoints metas := by
      simp [entries, commitCompaction, memtables, tablePoints]
    rw [hlist, map_append]
    refine List.Nodup.append ?_ hmetas ?_
    · refine hs.distinct.sublist (List.Sublist.map _ (List.Sublist.append_left ?_ _))
      exact List.Sublist.flatMap (keptTables_sublist _ _) _
    · intro place hold hnew
      obtain ⟨e, he, rfl⟩ := mem_map.1 hold
      obtain ⟨v, hv, hplace⟩ := mem_map.1 hnew
      obtain ⟨e', he', hplace', _⟩ := hsource v hv
      exact hs.inputs_apart hm.subset he' (mem_append.1 he) (hplace'.trans hplace)
  · refine (hs.uniqueNums.sublist (keptTables_sublist _ _)).add (fun t ht u hu => ?_)
      hfresh.ascending
    exact (hm.nums t ht).2 u (hkeptSub u hu)
  · rcases mem_append.1 ht with ht | ht
    · exact hs.tableNums t (hkeptSub t ht)
    · exact (hm.nums t ht).1
  · refine hs.resolves.imp_right fun hnone t ht e he => ?_
    rcases mem_append.1 ht with ht | ht
    · exact hnone t (hkeptSub t ht) e he
    · obtain ⟨e', he', _, hres⟩ := hsource e (mem_tablePoints.2 ⟨t, ht, he⟩)
      rcases resolveCompactionEntry_form hres with rfl | rfl
      · obtain ⟨u, hu, heu⟩ := mem_tablePoints.1 (hinput e he')
        exact hnone u hu e heu
      · simp [Entry.asTombstone]

namespace Engine

variable {s s' : Engine} {fmt : TableFormat} {p : CompactionPlan} {retain : Nat} {cutoff : Time}
  {places : List (Key × Nat)} {metas : List TableMeta}

theorem Merging.frame (hm : s.Merging fmt p retain cutoff places metas)
    (htables : s'.tables = s.tables) (halloc : s.alloc ≤ s'.alloc) :
    s'.Merging fmt p retain cutoff places metas where
  ran := hm.ran
  subset := by rw [htables]; exact hm.subset
  outside := by rw [htables]; exact hm.outside
  nums t ht := by
    rw [htables]
    exact ⟨Nat.le_trans (hm.nums t ht).1 halloc, (hm.nums t ht).2⟩

theorem Merging.start {f h : History} {w : Nat} {T : Time} {walSeq : Nat}
    (hs : s.Holds f h w T walSeq) (hsep : p.Separated s.tables) {cc : CompactionConfig} {now : Time}
    {alloc : Nat} (hrun : runCompaction fmt s p retain cc now = .ok (metas, alloc)) :
    ({ s with alloc := alloc } : Engine).Merging fmt p retain (cc.expiry now)
      (p.discarded s cc now) metas := by
  obtain ⟨_, _, _, _, _, hfresh⟩ := runCompaction_eq_ok hrun
  refine ⟨⟨s, cc, now, alloc, hrun, rfl, rfl⟩, hsep.subset, hsep.kept_newer hs.contents.bounded,
    fun t ht => ⟨(hfresh.nums t ht).2, fun u hu => ?_⟩⟩
  have := hs.tableNums u hu
  have := (hfresh.nums t ht).1
  omega

theorem Merging.ingest {f h : History} {w : Nat} {T : Time} {walSeq : Nat}
    (hm : s.Merging fmt p retain cutoff places metas) (hs : s.Holds f h w T walSeq) {seq : Nat}
    {table : TableMeta} (ha : s.Awaits h seq table) (hnum : ∀ t ∈ metas, t.num ≠ table.num) :
    ({ s with tables := s.tables ++ [table] } : Engine).Merging fmt p retain cutoff places metas :=
    by
  have hin : ∀ t ∈ p.inputs, t ∈ s.tables := hm.subset
  refine ⟨hm.ran, fun t ht => mem_append_left _ (hin t ht), fun k hk q hq hqk => ?_,
    fun t ht => ⟨(hm.nums t ht).1, fun u hu => ?_⟩⟩
  · obtain ⟨e, he, rfl⟩ := hq
    obtain ⟨u, hu, heu⟩ := mem_tablePoints.1 he
    obtain ⟨hutab, hunum⟩ := mem_keptTables.1 hu
    rcases mem_append.1 hutab with hutab | hutab
    · exact hm.outside k hk _ ⟨e, mem_tablePoints.2 ⟨u, mem_keptTables.2 ⟨hutab, hunum⟩, heu⟩,
        rfl⟩ hqk
    · obtain rfl := mem_singleton.1 hutab
      have hstamp := ha.stamped e heu
      refine ⟨?_, fun rt hrt _ => ?_⟩
      · rintro _ ⟨v, hv, rfl⟩ _
        obtain ⟨t, ht, hvt⟩ := mem_tablePoints.1 hv
        obtain ⟨r, hr, hform⟩ := hs.form (hin t ht) hvt
        have := ha.above r hr
        have := hform.seq
        simp only [Entry.version_seq]
        omega
      · obtain ⟨t, ht, hrtt⟩ := mem_tableRangeDels.1 hrt
        have hspan : rt ∈ f.spans := hs.contents.summary.image.spans_subset
          (mem_tableRangeDels.2 ⟨t, hin t ht, hrtt⟩)
        have := ha.aboveSpans rt ((hs.spans rt).2 (Or.inl hspan))
        simp only [Entry.version_seq]
        omega
  · rcases mem_append.1 hu with hu | hu
    · exact (hm.nums t ht).2 u hu
    · obtain rfl := mem_singleton.1 hu
      exact (hnum t ht).symm

theorem Awaits.frame {h h' : History} {seq : Nat} {table : TableMeta} (ha : s.Awaits h seq table)
    (hmem : ∀ e ∈ memPoints s'.memtables, e ∈ memPoints s.memtables) (halloc : s.alloc ≤ s'.alloc)
    (htables : ∀ t ∈ s'.tables, t.num ≠ table.num)
    (hpts : ∀ p ∈ h'.points, ∃ q ∈ h.points, p.seq = q.seq) (hrts : ∀ rt ∈ h'.spans, rt ∈ h.spans) :
    s'.Awaits h' seq table :=
  { ha with
    apart := fun e he => ha.apart e (hmem e he)
    allocated := Nat.le_trans ha.allocated halloc
    fresh := htables
    above := fun p hp => by
      obtain ⟨q, hq, hseq⟩ := hpts p hp
      rw [hseq]
      exact ha.above q hq
    aboveSpans := fun rt hrt => ha.aboveSpans rt (hrts rt hrt) }

/-- The tables and memtables of `s`, read through the blob files of `e`. -/
def throughBlobs (s e : Engine) : Engine := { s with blobs := e.blobs, alloc := e.alloc }

theorem Holds.throughBlobs {f h : History} {w : Nat} {T : Time} {walSeq : Nat}
    (hs : s.Holds f h w T walSeq)
    {e : Engine} (hext : BlobsExtend s.blobs e.blobs) (halloc : s.alloc ≤ e.alloc)
    (hnums : ∀ b ∈ e.blobs, b.1 ≤ e.alloc) (hroom : e.alloc ≤ 2 ^ 32 - 1) :
    (s.throughBlobs e).Holds f h w T walSeq :=
  { hs with
    contents := hs.contents.reblob (fun p hp => (hs.plain p ((hs.points p).2 (Or.inl hp))).1)
      fun _ _ _ _ hform => hform.extend hext
    tableNums := fun t ht => Nat.le_trans (hs.tableNums t ht) halloc
    blobNums := hnums
    room := hroom }

end Engine

end LevisDB
