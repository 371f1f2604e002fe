import LevisDB.Compaction.Discard
import LevisDB.Db.Contents
import LevisDB.Db.ExternalFile
import LevisDB.Engine.Iterator

/-!
# What an engine holds of a history

A history lists the mutations a database has accepted. The engine keeps the
latest of them in its memtables as they are; the tables hold the rest, as far as
reads from a watermark and a cutoff on can tell.
-/

namespace LevisDB

open List Option

/-- The accepted mutations: points as they were logged or ingested, and range deletes. -/
structure History where
  points : List Entry
  spans : List RangeTombstone

namespace History

def store (h : History) : Mvcc.Store Key Payload := storeOf h.points h.spans

/-- What a read of `key` at `seq` and `now` should return. -/
def get (h : History) (seq : Nat) (now : Time) (key : Key) : Option (Bytes × Time) :=
  (visibleAt h.points h.spans key seq now).bind (liveReference [])

def empty : History := ⟨[], []⟩

def log (h : History) (es : List WalEntry) : History :=
  ⟨h.points ++ logPoints es, h.spans ++ logRangeDels es⟩

def ingest (h : History) (es : List Entry) : History := ⟨h.points ++ es, h.spans⟩

/-- A filter's verdict: the values at the given places are deleted. -/
def discard (h : History) (places : List (Key × Nat)) : History :=
  ⟨h.points.map fun p => if p.place ∈ places then p.asTombstone else p, h.spans⟩

@[simp] theorem discard_nil (h : History) : h.discard [] = h := by simp [discard]

theorem store_discard (h : History) (places : List (Key × Nat)) :
    (h.discard places).store = eraseAt places h.store :=
  storeOf_map_eraseAt h.points h.spans places

theorem mem_points_discard {h : History} {places : List (Key × Nat)} {q : Entry}
    (hq : q ∈ (h.discard places).points) :
    ∃ p ∈ h.points, q.place = p.place ∧ (q = p ∨ q = p.asTombstone) := by
  obtain ⟨p, hp, rfl⟩ := mem_map.1 hq
  refine ⟨p, hp, ?_⟩
  split_ifs
  · exact ⟨rfl, Or.inr rfl⟩
  · exact ⟨rfl, Or.inl rfl⟩

theorem mem_discard_of_not_mem {h : History} {places : List (Key × Nat)} {p : Entry}
    (hp : p ∈ h.points) (hkept : p.place ∉ places) : p ∈ (h.discard places).points :=
  mem_map.2 ⟨p, hp, if_neg hkept⟩

theorem get_eq_some_iff {h : History} (hcopies : CopiesIdentical h.points) {seq : Nat} {now : Time}
    {key : Key} {x : Bytes × Time} :
    h.get seq now key = some x ↔ h.store.Sees (Payload.bytesAt []) key seq now x := by
  unfold get
  rw [bind_eq_some_iff]
  constructor
  · rintro ⟨live, hview, hlive⟩
    obtain ⟨v, hnew, hv, hunc⟩ := (sees_storeOf_iff (hcopies.agreeAt now)).2 hview
    exact ⟨v, hnew, bind_eq_some_iff.2 ⟨live, hv, hlive⟩, hunc⟩
  · rintro ⟨v, hnew, hv, hunc⟩
    obtain ⟨live, hlive, hx⟩ := bind_eq_some_iff.1 hv
    exact ⟨live, (sees_storeOf_iff (hcopies.agreeAt now)).1 ⟨v, hnew, hlive, hunc⟩, hx⟩

/-- Two histories hold the same mutations at or below `n`. -/
structure AgreeBelow (n : Nat) (h g : History) : Prop where
  points : ∀ p, p.seq ≤ n → (p ∈ h.points ↔ p ∈ g.points)
  spans : ∀ rt, rt.seq ≤ n → (rt ∈ h.spans ↔ rt ∈ g.spans)

theorem AgreeBelow.refl (n : Nat) (h : History) : AgreeBelow n h h :=
  ⟨fun _ _ => Iff.rfl, fun _ _ => Iff.rfl⟩

section

variable {g h : History} {n : Nat} (hagree : AgreeBelow n h g)
include hagree

theorem AgreeBelow.extend {h' : History}
    (hpts : ∀ p, p ∈ h'.points ↔ p ∈ h.points ∨ (p ∈ h'.points ∧ n < p.seq))
    (hrts : ∀ rt, rt ∈ h'.spans ↔ rt ∈ h.spans ∨ (rt ∈ h'.spans ∧ n < rt.seq)) :
    AgreeBelow n h' g where
  points p hp := by
    rw [hpts, ← hagree.points p hp]
    exact or_iff_left fun habove => by omega
  spans rt hrt := by
    rw [hrts, ← hagree.spans rt hrt]
    exact or_iff_left fun habove => by omega

theorem AgreeBelow.log {es : List WalEntry}
    (hes : ∀ e ∈ es, n < e.seq) : AgreeBelow n (h.log es) g := by
  refine hagree.extend (fun p => ?_) fun rt => ?_
  · refine ⟨fun hp => ?_, fun hp => hp.elim (mem_append_left _) And.left⟩
    refine (mem_append.1 hp).imp_right fun hnew => ⟨hp, ?_⟩
    obtain ⟨e, he, hpe⟩ := mem_logPoints.1 hnew
    exact (WalEntry.seq_of_point? hpe).symm ▸ hes e he
  · refine ⟨fun hrt => ?_, fun hrt => hrt.elim (mem_append_left _) And.left⟩
    refine (mem_append.1 hrt).imp_right fun hnew => ⟨hrt, ?_⟩
    obtain ⟨e, he, hrte⟩ := mem_logRangeDels.1 hnew
    exact (WalEntry.seq_of_span? hrte).symm ▸ hes e he

theorem AgreeBelow.ingest {es : List Entry}
    (hes : ∀ e ∈ es, n < e.seq) : AgreeBelow n (h.ingest es) g := by
  refine hagree.extend (fun p => ?_) fun rt => (or_iff_left_of_imp And.left).symm
  refine ⟨fun hp => ?_, fun hp => hp.elim (mem_append_left _) And.left⟩
  exact (mem_append.1 hp).imp_right fun hnew => ⟨hp, hes p hnew⟩

theorem AgreeBelow.get_eq
    (hh : CopiesIdentical h.points) (hg : CopiesIdentical g.points) (now : Time) (key : Key) :
    h.get n now key = g.get n now key := by
  have hversions : ∀ v : Mvcc.Version Key Payload, v.seq ≤ n →
      (v ∈ h.store.versions ↔ v ∈ g.store.versions) := by
    intro v hv
    constructor
    · rintro ⟨p, hp, rfl⟩
      exact ⟨p, (hagree.points p hv).1 hp, rfl⟩
    · rintro ⟨p, hp, rfl⟩
      exact ⟨p, (hagree.points p hv).2 hp, rfl⟩
  apply ext
  intro x
  rw [get_eq_some_iff hh, get_eq_some_iff hg]
  exact Mvcc.Store.sees_congr_below hversions fun rt hrt => hagree.spans rt hrt

end

end History

theorem History.copies_discard {h : History} (hcopies : CopiesIdentical h.points)
    (places : List (Key × Nat)) : CopiesIdentical (h.discard places).points := by
  intro a ha b hb huser hseq
  obtain ⟨p, hp, rfl⟩ := mem_map.1 ha
  obtain ⟨q, hq, rfl⟩ := mem_map.1 hb
  have hkey : ∀ r : Entry, (if r.place ∈ places then r.asTombstone else r).user = r.user ∧
      (if r.place ∈ places then r.asTombstone else r).seq = r.seq := by
    intro r
    split_ifs <;> exact ⟨rfl, rfl⟩
  rw [hcopies p hp q hq ((hkey p).1.symm.trans (huser.trans (hkey q).1))
    ((hkey p).2.symm.trans (hseq.trans (hkey q).2))]

theorem agreeFrom_of_copies {es : List Entry} {rts : List RangeTombstone} (h : CopiesIdentical es)
    {V : Type} (live : Payload → Time → Option V) (T : Time) : (storeOf es rts).AgreeFrom live T :=
    by
  rintro _ ⟨p, hp, rfl⟩ _ ⟨q, hq, rfl⟩ huser hseq t _
  rw [h p hp q hq huser hseq]

theorem Contents.compactErased {blobs : List (Nat × Bytes)} {w : Nat} {T T' : Time} {f : History}
    {tables : List TableMeta} (h : Contents blobs w T f.points f.spans tables)
    (hcopies : CopiesIdentical f.points) (huniq : UniqueNums tables)
    {inputs metas : List TableMeta} (hsub : ∀ t ∈ inputs, t ∈ tables)
    (hbounded : ∀ t ∈ metas, t.Bounded) (hhealthy : ∀ t ∈ metas, t.reader.fault = none)
    {places : List (Key × Nat)}
    (hforms : ∀ e ∈ tablePoints metas, ∃ p ∈ (f.discard places).points, StoredForm blobs T' p e)
    (hT : T ≤ T') {retain : Nat} (hretain : retain ≤ w) {cut : Time} (hcut : cut ≤ T')
    {reclaim : Key → Prop}
    (hc : Mvcc.Store.Collapse (Payload.bytesAt blobs) retain cut reclaim
      (eraseAt places (tablesStore inputs)) (tablesStore metas))
    (hkept : ∀ e ∈ tablePoints (keptTables tables inputs), e.place ∉ places)
    (hrest : Mvcc.Store.Outranks reclaim (tablesStore inputs)
      (tablesStore (keptTables tables inputs))) :
    Contents blobs w T' (f.discard places).points (f.discard places).spans
      (keptTables tables inputs ++ metas) := by
  have hmem : ∀ t ∈ keptTables tables inputs, t ∈ tables := fun t ht => (mem_keptTables.1 ht).1
  refine ⟨?_, ?_, ?_, ?_⟩
  · intro t ht
    exact (mem_append.1 ht).elim (fun ht => h.bounded t (hmem t ht)) (hbounded t)
  · intro t ht
    exact (mem_append.1 ht).elim (fun ht => h.healthy t (hmem t ht)) (hhealthy t)
  · intro e he
    rw [tablePoints, flatMap_append, mem_append] at he
    rcases he with he | he
    · obtain ⟨t, ht, het⟩ := mem_flatMap.1 he
      obtain ⟨p, hp, hform⟩ := h.forms e (mem_tablePoints.2 ⟨t, hmem t ht, het⟩)
      have hplace : p.place = e.place := Prod.ext hform.user.symm hform.seq.symm
      refine ⟨p, History.mem_discard_of_not_mem hp ?_, hform.later hT⟩
      rw [hplace]
      exact hkept e he
    · exact hforms e he
  · have hsplit : tablesStore tables =
        tablesStore inputs ∪ tablesStore (keptTables tables inputs) := by
      rw [← tablesStore_append]
      refine storeOf_congr (fun e => ?_) fun rt => ?_
      · simp only [mem_tablePoints, mem_append, mem_inputs_or_kept huniq hsub]
      · simp only [mem_tableRangeDels, mem_append, mem_inputs_or_kept huniq hsub]
    have hdead : ∀ t, Payload.bytesAt blobs ⟨.delete, []⟩ t = none := fun _ => rfl
    have hw := h.summary.erase (D := fun k n => (k, n) ∈ places) hdead
    have hself : eraseAt places (tablesStore (keptTables tables inputs)) =
        tablesStore (keptTables tables inputs) := by
      refine Mvcc.Store.erase_eq_self ?_
      rintro _ ⟨e, he, rfl⟩
      exact hkept e he
    rw [hsplit, Mvcc.Store.erase_union] at hw
    change Mvcc.Store.Summary _ _ _ (eraseAt places f.store)
      (eraseAt places (tablesStore inputs) ∪
        eraseAt places (tablesStore (keptTables tables inputs))) at hw
    rw [hself, ← f.store_discard] at hw
    rw [tablesStore_append, Mvcc.Store.union_comm]
    refine hw.collapse (agreeFrom_of_copies (f.copies_discard hcopies places) _ _) hc ?_
      (Nat.le_refl w) hretain hT hcut
    intro k hk q hq hqk
    obtain ⟨hpts, hrts⟩ := hrest k hk q hq hqk
    refine ⟨fun v hv hvk => ?_, hrts⟩
    obtain ⟨u, hu, huk, hus⟩ := Mvcc.Store.mem_erase_iff hv
    rw [← hus]
    exact hpts u hu (huk.trans hvk)

/-- The engine holds the history `h`: the part `f` in its tables, for reads from
`(w, T)` on, and the rest in its memtables. -/
structure Engine.Holds (f h : History) (w : Nat) (T : Time) (walSeq : Nat) (s : Engine) : Prop where
  contents : Contents s.blobs w T f.points f.spans s.tables
  points : ∀ p, p ∈ h.points ↔ p ∈ f.points ∨ p ∈ memPoints s.memtables
  spans : ∀ rt, rt ∈ h.spans ↔ rt ∈ f.spans ∨ rt ∈ memRangeDels s.memtables
  plain : ∀ p ∈ h.points, p.kind ≠ .blobRef ∧ p.payload.Decodes
  pointSeqs : ∀ p ∈ h.points, p.seq ≤ walSeq
  spanSeqs : ∀ rt ∈ h.spans, rt.seq ≤ walSeq
  copies : CopiesIdentical h.points
  newer : ∀ e ∈ memPoints s.memtables, ∀ p ∈ f.points, p.user = e.user → p.seq < e.seq
  uncovered : ∀ e ∈ memPoints s.memtables, ∀ rt ∈ f.spans, rt.Contains e.user → rt.seq ≤ e.seq
  older : ∀ imm ∈ s.imm, ∀ e ∈ s.mem.points,
    (∀ p ∈ imm.points, p.seq < e.seq) ∧ ∀ rt ∈ imm.rts, rt.seq < e.seq
  lengths : ∀ e ∈ memPoints s.memtables, e.value.length < 2 ^ 32
  distinct : (s.entries.map Entry.place).Nodup
  uniqueNums : UniqueNums s.tables
  tableNums : ∀ t ∈ s.tables, t.num ≤ s.alloc
  blobNums : ∀ b ∈ s.blobs, b.1 ≤ s.alloc
  room : s.alloc ≤ 2 ^ 32 - 1
  blobFileSize : s.cfg.blobFileSize < 2 ^ 63
  resolves : s.ResolvesBlobs
  recovered : s.recoveryMems = []

namespace Engine.Holds

variable {f h : History} {w : Nat} {T : Time} {walSeq : Nat} {s : Engine}

section

variable (hs : s.Holds f h w T walSeq)
include hs

theorem copies_entries : CopiesIdentical s.entries := by
  intro e he e' he' huser hseq
  exact inj_on_of_nodup_map hs.distinct he he' (Prod.ext huser hseq)

theorem copies_flushed : CopiesIdentical f.points := fun p hp q hq =>
  hs.copies p ((hs.points p).2 (Or.inl hp)) q ((hs.points q).2 (Or.inl hq))

theorem mem_plain {m : Memtable} (hm : m ∈ s.memtables) {e : Entry}
    (he : e ∈ m.points) : e.kind ≠ .blobRef ∧ e.payload.Decodes :=
  hs.plain e ((hs.points e).2 (Or.inr (mem_memPoints.2 ⟨m, hm, he⟩)))

theorem form {t : TableMeta} (ht : t ∈ s.tables) {e : Entry}
    (he : e ∈ t.points) : ∃ p ∈ h.points, StoredForm s.blobs T p e := by
  obtain ⟨p, hp, hform⟩ := hs.contents.forms e (mem_tablePoints.2 ⟨t, ht, he⟩)
  exact ⟨p, (hs.points p).2 (Or.inl hp), hform⟩

theorem readable : s.Readable where
  memKinds m hm e he := (hs.mem_plain hm he).1
  healthy := hs.contents.healthy
  decodes t ht e he := by
    obtain ⟨p, hp, hform⟩ := hs.form ht he
    exact hform.decodes (hs.plain p hp).2
  bounded := hs.contents.bounded

theorem memDecodes : s.MemDecodes :=
  fun _ hm _ he => (hs.mem_plain hm he).2

theorem blobsPresent : s.BlobsPresent := by
  intro t ht e he ptr hkind hdec
  obtain ⟨p, hp, hform⟩ := hs.form ht he
  cases hform with
  | expired => cases hkind
  | stored hstored =>
    cases hstored with
    | inline => exact absurd hkind (hs.plain e hp).1
    | @separated ptr' raw _ hbytes =>
      rw [decodeBlobPointer_encode] at hdec
      cases hdec
      exact ⟨raw, hbytes⟩

theorem readsAgree (seq : Nat) (now : Time) (key : Key) :
    s.ReadsAgree seq now key :=
  readsAgree_of_resolvesBlobs hs.readable (hs.copies_entries.agreeAt now) hs.blobsPresent
    hs.resolves seq key

theorem scanAgrees (seq : Nat) (now : Time) (start stop : Option Key) :
    s.ScanAgrees seq now start stop :=
  scanAgrees_of_resolvesBlobs hs.readable hs.memDecodes (hs.copies_entries.agreeAt now)
    hs.blobsPresent hs.resolves seq start stop

theorem summary :
    Mvcc.Store.Summary (Payload.bytesAt s.blobs) w T h.store s.store := by
  have hmem : s.store = tablesStore s.tables ∪
      storeOf (memPoints s.memtables) (memRangeDels s.memtables) := by
    rw [Mvcc.Store.union_comm, tablesStore, ← storeOf_append]
    rfl
  have hhist : h.store = storeOf f.points f.spans ∪
      storeOf (memPoints s.memtables) (memRangeDels s.memtables) := by
    rw [← storeOf_append]
    exact storeOf_congr (fun p => by rw [hs.points, mem_append])
      fun rt => by rw [hs.spans, mem_append]
  rw [hmem, hhist]
  refine hs.contents.summary.extend ?_
  rintro _ ⟨e, he, rfl⟩ r _ m hm hlt _
  rcases hm with ⟨_, ⟨p, hp, rfl⟩, hk, rfl⟩ | ⟨rt, hrt, hcon, rfl⟩
  · have := hs.newer e he p hp hk
    exact absurd hlt (not_lt.2 (le_of_lt this))
  · exact absurd hlt (not_lt.2 (hs.uncovered e he rt hrt hcon))

theorem reference_eq {seq : Nat} (hseq : w ≤ seq) {now : Time}
    (hnow : T ≤ now) (key : Key) : s.reference seq now key = h.get seq now key := by
  apply ext
  intro x
  rw [Engine.reference_eq_some_iff (hs.copies_entries.agreeAt now), hs.summary.sees hseq hnow,
    History.get_eq_some_iff hs.copies]
  refine exists_congr fun v => and_congr_right fun hv => and_congr_left fun _ => ?_
  obtain ⟨p, hp, rfl⟩ := hv.1
  rw [Entry.version_payload, bytesAt_congr_blobs (hs.plain p hp).1]

end

end Engine.Holds

end LevisDB
