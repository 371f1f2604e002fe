import LevisDB.Db.Recovery
import LevisDB.Compaction.Soundness

/-!
# What the tables hold of a history

Every table entry is a stored form of one mutation of the history, and the live
tables together summarise the mutations that have reached them: every read at
the latest sequence resolves as over the whole history.
-/

namespace LevisDB

open List

/-- The form a table may hold a mutation in: as a flush stored it, or as the
tombstone a merge at or before `T` left of an expired value. -/
inductive StoredForm (blobs : List (Nat × Bytes)) (T : Time) (p : Entry) : Entry → Prop
  | stored {e : Entry} (h : StoredAs blobs p e) : StoredForm blobs T p e
  | expired {raw : Bytes} {expiresAt : Time} (hkind : p.kind = .setTTL)
      (hdec : decodeExpiringValue p.value = .ok (raw, expiresAt)) (hexp : expiresAt ≤ T) :
      StoredForm blobs T p p.asTombstone

namespace StoredForm

variable {blobs blobs' : List (Nat × Bytes)} {T T' : Time} {p e w : Entry}

section

variable (h : StoredForm blobs T p e)
include h

theorem user : e.user = p.user := by
  cases h with
  | stored h => exact h.user
  | expired => rfl

theorem seq : e.seq = p.seq := by
  cases h with
  | stored h => exact h.seq
  | expired => rfl

theorem bytesAt {t : Time} (ht : T ≤ t) :
    e.payload.bytesAt blobs t = p.payload.bytesAt blobs t := by
  cases h with
  | stored h => exact h.bytesAt t
  | expired hkind hdec hexp =>
    simp [Payload.bytesAt, Payload.liveAt, Entry.payload, Entry.asTombstone, hkind, hdec,
      le_trans hexp ht]

theorem decodes (hp : p.payload.Decodes) : e.payload.Decodes := by
  cases h with
  | stored h => exact h.decodes hp
  | expired => trivial

theorem extend (hext : BlobsExtend blobs blobs') :
    StoredForm blobs' T p e := by
  cases h with
  | stored h => exact .stored (h.extend hext)
  | expired hkind hdec hexp => exact .expired hkind hdec hexp

theorem later (hT : T ≤ T') : StoredForm blobs T' p e := by
  cases h with
  | stored h => exact .stored h
  | expired hkind hdec hexp => exact .expired hkind hdec (le_trans hexp hT)

theorem resolve (hp : p.kind ≠ .blobRef)
    {res : BlobPointer → Except Err Bytes} {cc : CompactionConfig} (hfilter : cc.filter = none)
    {cut : Time} (hcut : cut ≤ T) (hw : resolveCompactionEntry res cc e cut = .ok w) :
    StoredForm blobs T p w := by
  rcases resolveCompactionEntry_eq_ok hfilter hw with rfl | ⟨rfl, hview⟩
  · exact h
  · unfold filterView at hview
    cases h with
    | expired hkind hdec hexp => exact .expired hkind hdec hexp
    | stored h =>
      cases h with
      | inline =>
        cases hk : p.kind with
        | delete => simp [hk] at hview
        | set => simp [hk] at hview
        | blobRef => exact absurd hk hp
        | setTTL =>
          cases hdec : decodeExpiringValue p.value with
          | error err => simp [hk, hdec] at hview
          | ok r =>
            obtain ⟨raw, expiresAt⟩ := r
            simp only [hk, hdec] at hview
            split_ifs at hview with hexp
            · exact .expired hk hdec (le_trans hexp hcut)
            · cases hview
      | @separated ptr raw hkind hbytes =>
        simp only [decodeBlobPointer_encode] at hview
        by_cases hexp : ptr.expiresAt ≠ 0 ∧ ptr.expiresAt ≤ cut
        · rcases hkind with ⟨_, _, hzero⟩ | ⟨hk, hdec⟩
          · exact absurd hzero hexp.1
          · exact .expired hk hdec (le_trans hexp.2 hcut)
        · rw [if_neg hexp] at hview
          simp [hfilter] at hview

end

end StoredForm

theorem tablesStore_append (tables news : List TableMeta) :
    tablesStore (tables ++ news) = tablesStore tables ∪ tablesStore news := by
  simp only [tablesStore, tablePoints, tableRangeDels, flatMap_append, storeOf_append]

/-- The live tables hold the mutations `points` and `spans`, as far as reads from
sequence `w` and time `T` on can tell. -/
structure Contents (blobs : List (Nat × Bytes)) (w : Nat) (T : Time) (points : List Entry)
    (spans : List RangeTombstone) (tables : List TableMeta) : Prop where
  bounded : ∀ t ∈ tables, t.Bounded
  healthy : ∀ t ∈ tables, t.reader.fault = none
  forms : ∀ e ∈ tablePoints tables, ∃ p ∈ points, StoredForm blobs T p e
  summary : Mvcc.Store.Summary (Payload.bytesAt blobs) w T (storeOf points spans)
    (tablesStore tables)

theorem readsThrough_bytesAt (blobs : List (Nat × Bytes)) : ReadsThrough (Payload.bytesAt blobs) :=
  ⟨liveReference blobs, fun _ _ => rfl⟩

theorem bytesAt_congr_blobs {blobs blobs' : List (Nat × Bytes)} {p : Entry}
    (hp : p.kind ≠ .blobRef) (t : Time) :
    p.payload.bytesAt blobs' t = p.payload.bytesAt blobs t := by
  unfold Payload.bytesAt Payload.liveAt Entry.payload
  cases hk : p.kind with
  | delete => rfl
  | set => rfl
  | blobRef => exact absurd hk hp
  | setTTL =>
    cases decodeExpiringValue p.value with
    | error err => rfl
    | ok r =>
      dsimp only
      split_ifs <;> rfl

namespace Contents

variable {blobs blobs' : List (Nat × Bytes)} {w : Nat} {T T' : Time} {points : List Entry}
  {spans : List RangeTombstone} {tables : List TableMeta}

theorem empty (blobs : List (Nat × Bytes)) (w : Nat) (T : Time) : Contents blobs w T [] [] [] where
  bounded := by simp
  healthy := by simp
  forms := by simp [tablePoints]
  summary := .refl w T _

section

variable (h : Contents blobs w T points spans tables)
include h

theorem later {w' : Nat} (hw : w ≤ w') (hT : T ≤ T') :
    Contents blobs w' T' points spans tables where
  bounded := h.bounded
  healthy := h.healthy
  forms e he := by
    obtain ⟨p, hp, hform⟩ := h.forms e he
    exact ⟨p, hp, hform.later hT⟩
  summary := h.summary.mono hw hT

theorem reblob (hpoints : ∀ p ∈ points, p.kind ≠ .blobRef)
    (hforms : ∀ p ∈ points, ∀ e ∈ tablePoints tables, StoredForm blobs T p e →
      StoredForm blobs' T p e) : Contents blobs' w T points spans tables where
  bounded := h.bounded
  healthy := h.healthy
  forms e he := by
    obtain ⟨p, hp, hform⟩ := h.forms e he
    exact ⟨p, hp, hforms p hp e he hform⟩
  summary := by
    refine h.summary.congr_live ?_
    rintro v (⟨e, he, rfl⟩ | ⟨p, hp, rfl⟩) t ht
    · obtain ⟨p, hp, hform⟩ := h.forms e he
      rw [Entry.version_payload, (hforms p hp e he hform).bytesAt ht, hform.bytesAt ht,
        bytesAt_congr_blobs (hpoints p hp)]
    · exact bytesAt_congr_blobs (hpoints p hp) t

theorem add (hext : BlobsExtend blobs blobs')
    (hpoints : ∀ p ∈ points, p.kind ≠ .blobRef) {news : List TableMeta} {pts : List Entry}
    {rts : List RangeTombstone} (hbounded : ∀ t ∈ news, t.Bounded)
    (hhealthy : ∀ t ∈ news, t.reader.fault = none)
    (hstored : ∀ e ∈ tablePoints news, ∃ p ∈ pts, StoredAs blobs' p e)
    (hkept : ∀ p ∈ pts, ∃ e ∈ tablePoints news, StoredAs blobs' p e)
    (hspans : ∀ rt, rt ∈ tableRangeDels news ↔ rt ∈ rts)
    (hdom : ∀ p ∈ pts, ∀ r, w ≤ r → ∀ m, (storeOf points spans).Touches p.user m → p.seq < m →
      m ≤ r → ∃ m', (tablesStore tables ∪ storeOf pts rts).Touches p.user m' ∧ p.seq < m' ∧ m' ≤
      r) :
    Contents blobs' w T (points ++ pts) (spans ++ rts) (tables ++ news) := by
  have h' : Contents blobs' w T points spans tables :=
    h.reblob hpoints fun p _ e _ hform => hform.extend hext
  refine ⟨?_, ?_, ?_, ?_⟩
  · intro t ht
    exact (mem_append.1 ht).elim (h.bounded t) (hbounded t)
  · intro t ht
    exact (mem_append.1 ht).elim (h.healthy t) (hhealthy t)
  · intro e he
    rw [tablePoints, flatMap_append, mem_append] at he
    rcases he with he | he
    · obtain ⟨p, hp, hform⟩ := h'.forms e he
      exact ⟨p, mem_append_left _ hp, hform⟩
    · obtain ⟨p, hp, hs⟩ := hstored e he
      exact ⟨p, mem_append_right _ hp, .stored hs⟩
  · have hextended := h'.summary.extend (A := storeOf pts rts) (by
      rintro _ ⟨p, hp, rfl⟩ r hr m hm hlt hmr
      exact hdom p hp r hr m hm hlt hmr)
    rw [storeOf_append, tablesStore_append]
    refine hextended.restate ?_ ?_
    · refine (Mvcc.Store.Image.refl T _).union ⟨?_, fun rt hrt => (hspans rt).1 hrt⟩
      rintro _ ⟨e, he, rfl⟩
      obtain ⟨p, hp, hs⟩ := hstored e he
      exact ⟨p.version, ⟨p, hp, rfl⟩, hs.user.symm, hs.seq.symm, fun t _ => hs.bytesAt t⟩
    · refine (Mvcc.Store.Image.refl T _).union ⟨?_, fun rt hrt => (hspans rt).2 hrt⟩
      rintro _ ⟨p, hp, rfl⟩
      obtain ⟨e, he, hs⟩ := hkept p hp
      exact ⟨e.version, ⟨e, he, rfl⟩, hs.user, hs.seq, fun t _ => (hs.bytesAt t).symm⟩

end

end Contents

end LevisDB
