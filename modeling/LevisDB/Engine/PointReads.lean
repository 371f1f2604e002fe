import LevisDB.Engine.Read

/-!
# Point reads refine the multi-version reference

The reference answers a read with the bytes and the deadline of the visible
version. Every read path returns exactly that, for any distribution of versions
over memtables and tables, as long as the session can resolve the blob pointers
its tables hold.
-/

namespace LevisDB

open List Option

/-- Every blob pointer of a live table addresses bytes of a blob file on disk. -/
def Engine.BlobsPresent (s : Engine) : Prop :=
  ∀ t ∈ s.tables, ∀ e ∈ t.points, ∀ ptr, e.kind = .blobRef → decodeBlobPointer e.value = .ok ptr →
    ∃ value, blobBytes s.blobs ptr = some value

/-- The session can read every blob pointer its tables hold. -/
def Engine.ResolvesBlobs (s : Engine) : Prop :=
  s.cfg.blobPath = true ∨ ∀ t ∈ s.tables, ∀ e ∈ t.points, e.kind ≠ .blobRef

/-- A read of the key meets no pointer the session has no path for. -/
def Engine.Fetches (s : Engine) (seq : Nat) (now : Time) (key : Key) : Prop :=
  s.cfg.blobPath = true ∨ ∀ ptr expiresAt, s.view seq now key ≠ some ⟨.blob ptr, expiresAt⟩

/-- The bytes and deadline the reference gives a live value. -/
def liveReference (blobs : List (Nat × Bytes)) (live : Live) : Option (Bytes × Time) :=
  match live.content with
  | .inline value => some (value, live.expiresAt)
  | .blob ptr => (blobBytes blobs ptr).map fun value => (value, live.expiresAt)

/-- The value and deadline the reference finds, none when the key is absent. -/
def Engine.reference (s : Engine) (seq : Nat) (now : Time) (key : Key) : Option (Bytes × Time) :=
  (s.view seq now key).bind (liveReference s.blobs)

/-- The bytes and deadline a stored form means at a time, read through `blobs`. -/
def Payload.bytesAt (blobs : List (Nat × Bytes)) (p : Payload) (now : Time) :
    Option (Bytes × Time) :=
  (p.liveAt now).bind (liveReference blobs)

theorem Engine.reference_eq_some_iff {s : Engine} {seq : Nat} {now : Time} {key : Key}
    (hcopies : CopiesAgreeAt now s.entries) {x : Bytes × Time} :
    s.reference seq now key = some x ↔ s.store.Sees (Payload.bytesAt s.blobs) key seq now x := by
  unfold Engine.reference
  rw [bind_eq_some_iff]
  constructor
  · rintro ⟨live, hview, hlive⟩
    obtain ⟨v, hnew, hv, hunc⟩ := (sees_storeOf_iff hcopies).2 hview
    exact ⟨v, hnew, bind_eq_some_iff.2 ⟨live, hv, hlive⟩, hunc⟩
  · rintro ⟨v, hnew, hv, hunc⟩
    obtain ⟨live, hlive, hx⟩ := bind_eq_some_iff.1 hv
    exact ⟨live, (sees_storeOf_iff hcopies).1 ⟨v, hnew, hlive, hunc⟩, hx⟩

theorem Engine.reference_ages {s : Engine} {seq : Nat} {now : Time} {key : Key} {value : Bytes}
    {expiresAt : Time} (h : s.reference seq now key = some (value, expiresAt)) (t : Time) :
    s.reference seq t key =
      if expiresAt ≠ 0 ∧ expiresAt ≤ t then none else some (value, expiresAt) := by
  unfold Engine.reference Engine.view visibleAt at h ⊢
  cases hfound : s.entries.foldl (newerVersion key seq) none with
  | none => simp [hfound] at h
  | some e =>
    simp only [hfound] at h ⊢
    by_cases hdel : rangeDeleted s.rangeDels key e.seq seq = true
    · rw [if_pos hdel] at h
      cases h
    · rw [if_neg hdel] at h ⊢
      obtain ⟨live, hlive, href⟩ := bind_eq_some_iff.1 h
      have hsame : live.expiresAt = expiresAt := by
        unfold liveReference at href
        cases hc : live.content with
        | inline v =>
          simp only [hc, Option.some.injEq, Prod.mk.injEq] at href
          exact href.2
        | blob ptr =>
          simp only [hc, map_eq_some_iff, Prod.mk.injEq] at href
          obtain ⟨_, _, _, hexp⟩ := href
          exact hexp
      rw [Payload.liveAt_ages hlive t, hsame]
      split_ifs
      · rfl
      · exact href

/-- All four reads of `key` at `(seq, now)` succeed with what the reference says,
and the two presence answers are the same. -/
def Engine.ReadsAgree (s : Engine) (seq : Nat) (now : Time) (key : Key) : Prop :=
  getWithExpiry s seq key now = .ok (s.reference seq now key) ∧
    (∀ keys, getManyWithExpiry s seq now keys = .ok (keys.map (s.reference seq now))) ∧
    ∃ p : Presence, (p.found && !p.deleted) = (s.reference seq now key).isSome ∧
      hasAtTime s seq key now = .ok p ∧
      getAtTime s seq key now = .ok (((s.reference seq now key).map Prod.fst).getD [], p)

section

variable {s : Engine} {seq : Nat} {now : Time} {key : Key}

theorem exists_blobRef_of_view (hr : s.Readable) {ptr : BlobPointer} {expiresAt : Time}
    (h : s.view seq now key = some ⟨.blob ptr, expiresAt⟩) :
    ∃ t ∈ s.tables, ∃ e ∈ t.points, e.kind = .blobRef ∧ decodeBlobPointer e.value = .ok ptr := by
  unfold Engine.view visibleAt at h
  have hnil : IsNewestIn key seq [] none := by simp [IsNewestIn]
  have hfold := foldl_newerVersion_isNewestIn s.entries hnil
  rw [nil_append] at hfold
  generalize s.entries.foldl (newerVersion key seq) none = found at h hfold
  cases found with
  | none => cases h
  | some e =>
    dsimp only at h
    split_ifs at h
    have hkind : e.kind = .blobRef ∧ decodeBlobPointer e.value = .ok ptr := by
      unfold Payload.liveAt Entry.payload at h
      cases hk : e.kind with
      | delete => simp [hk] at h
      | set => simp [hk] at h
      | setTTL =>
        simp only [hk] at h
        split at h
        · split_ifs at h
          simp at h
        · cases h
      | blobRef =>
        simp only [hk] at h
        split at h
        · next p hp =>
            split_ifs at h
            simp only [Option.some.injEq, Live.mk.injEq, Content.blob.injEq] at h
            exact ⟨rfl, h.1 ▸ hp⟩
        · cases h
    rcases mem_append.1 hfold.1 with he | he
    · obtain ⟨m, hm, hem⟩ := mem_memPoints.1 he
      exact absurd hkind.1 (hr.memKinds m hm e hem)
    · obtain ⟨t, ht, het⟩ := mem_tablePoints.1 he
      exact ⟨t, ht, e, het, hkind⟩

theorem Engine.ResolvesBlobs.fetches (hres : s.ResolvesBlobs) (hr : s.Readable) :
    s.Fetches seq now key := by
  refine hres.imp_right fun hnone ptr expiresAt hview => ?_
  obtain ⟨t, ht, e, he, hkind, _⟩ := exists_blobRef_of_view hr hview
  exact hnone t ht e he hkind

theorem liveValue_eq_reference (hr : s.Readable) (hblobs : s.BlobsPresent)
    (hfetch : s.Fetches seq now key) {live : Live} (h : s.view seq now key = some live) :
    ∃ r, liveReference s.blobs live = some r ∧ liveValue s live = .ok r := by
  obtain ⟨content, expiresAt⟩ := live
  cases content with
  | inline value => exact ⟨_, rfl, rfl⟩
  | blob ptr =>
    obtain ⟨t, ht, e, he, hkind, hdec⟩ := exists_blobRef_of_view hr h
    obtain ⟨value, hvalue⟩ := hblobs t ht e he ptr hkind hdec
    have hpath : s.cfg.blobPath = true := hfetch.resolve_right fun hnone => hnone ptr expiresAt h
    refine ⟨(value, expiresAt), ?_, ?_⟩
    · simp [liveReference, hvalue]
    · simp only [liveValue, resolveBlob, hpath, hvalue]
      rfl

theorem getWithExpiry_eq_reference (hr : s.Readable) (hcopies : CopiesAgreeAt now s.entries)
    (hblobs : s.BlobsPresent) (hfetch : s.Fetches seq now key) :
    getWithExpiry s seq key now = .ok (s.reference seq now key) := by
  rw [getWithExpiry_eq hr hcopies]
  unfold Engine.reference
  cases hview : s.view seq now key with
  | none => rfl
  | some live =>
    obtain ⟨r, href, hval⟩ := liveValue_eq_reference hr hblobs hfetch hview
    simp only [elim_some, bind_some, href, hval]
    rfl

theorem getWithExpiry_eq_nilBlobPath (hr : s.Readable) (hcopies : CopiesAgreeAt now s.entries)
    (h : ¬ s.Fetches seq now key) : getWithExpiry s seq key now = .error .nilBlobPath := by
  unfold Engine.Fetches at h
  push Not at h
  obtain ⟨hpath, ptr, expiresAt, hview⟩ := h
  rw [getWithExpiry_eq hr hcopies, hview]
  simp only [elim_some, liveValue, resolveBlob, hpath]
  rfl

theorem readsAgree_of_resolvesBlobs (hr : s.Readable) (hcopies : CopiesAgreeAt now s.entries)
    (hblobs : s.BlobsPresent) (hres : s.ResolvesBlobs) (seq : Nat) (key : Key) :
    s.ReadsAgree seq now key := by
  refine ⟨getWithExpiry_eq_reference hr hcopies hblobs (hres.fetches hr), ?_, ?_⟩
  · intro keys
    induction keys with
    | nil => rfl
    | cons k keys ih =>
      unfold getManyWithExpiry at ih ⊢
      rw [mapM_cons, getWithExpiry_eq_reference hr hcopies hblobs (hres.fetches hr), ih]
      rfl
  · obtain ⟨p, hp, hhas, hget⟩ := getAtTime_eq hr hcopies seq key
    refine ⟨p, ?_, hhas, ?_⟩
    · rw [hp]
      unfold Engine.reference
      cases hview : s.view seq now key with
      | none => rfl
      | some live =>
        obtain ⟨r, href, _⟩ := liveValue_eq_reference hr hblobs (hres.fetches hr) hview
        simp [href]
    · rw [hget]
      unfold Engine.reference
      cases hview : s.view seq now key with
      | none => rfl
      | some live =>
        obtain ⟨r, href, hval⟩ := liveValue_eq_reference hr hblobs (hres.fetches hr) hview
        simp only [elim_some, bind_some, href, hval]
        rfl

end

section

variable {s : Engine}

theorem view_blobRef (hcopies : CopiesIdentical s.entries) {e : Entry} (he : e ∈ s.entries)
    (hkind : e.kind = .blobRef) {ptr : BlobPointer} (hdec : decodeBlobPointer e.value = .ok ptr)
    (hexp : 0 ≤ ptr.expiresAt) : s.view e.seq 0 e.user = some ⟨.blob ptr, ptr.expiresAt⟩ := by
  have hbest : IsNewestIn e.user e.seq s.entries (some e) :=
    ⟨he, rfl, Nat.le_refl _, fun _ _ _ h => h⟩
  have hview : s.view e.seq 0 e.user = _ := visibleAt_eq (hcopies.agreeAt 0) hbest
  have hnodel : rangeDeleted s.rangeDels e.user e.seq e.seq = false := by
    rw [Bool.eq_false_iff, ne_eq, rangeDeleted_iff]
    rintro ⟨rt, _, _, hlt, hle⟩
    omega
  have hlive : e.payload.liveAt 0 = some ⟨.blob ptr, ptr.expiresAt⟩ := by
    simp only [Payload.liveAt, Entry.payload, hkind, hdec]
    rw [if_neg]
    rintro ⟨hne, hle⟩
    exact hne (le_antisymm hle hexp)
  rw [hview, bind_some, if_neg (by simp [hnodel]), hlive]

/-- Point reads agree with the reference at every key, sequence and time exactly
when the session has a path for blob files or no live table holds a pointer. -/
theorem reads_agree_iff_resolvesBlobs (hr : s.Readable) (hcopies : CopiesIdentical s.entries)
    (hblobs : s.BlobsPresent) :
    (∀ seq now key, s.ReadsAgree seq now key) ↔ s.ResolvesBlobs := by
  constructor
  · intro hall
    by_contra hres
    unfold Engine.ResolvesBlobs at hres
    push Not at hres
    obtain ⟨hpath, t, ht, e, he, hkind⟩ := hres
    obtain ⟨ptr, hdec, hexp⟩ : ∃ ptr, decodeBlobPointer e.value = .ok ptr ∧ 0 ≤ ptr.expiresAt := by
      have := hr.decodes t ht e he
      simpa [Payload.Decodes, Entry.payload, hkind] using this
    have hview := view_blobRef hcopies (tablePoints_subset ht he) hkind hdec hexp
    have hget := (hall e.seq 0 e.user).1
    rw [getWithExpiry_eq hr (hcopies.agreeAt 0), hview] at hget
    simp [liveValue, resolveBlob, hpath, Except.map] at hget
  · intro hres seq now key
    exact readsAgree_of_resolvesBlobs hr (hcopies.agreeAt now) hblobs hres seq key

end

/-- A store whose only table holds one separated value, as a session with value
separation leaves it, opened by a session that configures `blobPath` or not. -/
def separatedStore (blobPath : Bool) : Engine where
  cfg := ⟨4096, 10, 7, 0, 0, blobPath⟩
  alloc := 2
  mem := newMemtable
  imm := none
  recoveryMems := []
  tables := [finishTable ⟨fun _ _ => 0, fun _ => 0⟩ 10 1 0
    ⟨[⟨⟨[107], 1, .blobRef⟩, encodeBlobPointer ⟨2, 0, 3, 0⟩⟩], pairwise_singleton _ _⟩ []]
  blobs := [(2, [118, 97, 108])]
  lastCompactionDone := false

theorem separatedStore_readable (blobPath : Bool) : (separatedStore blobPath).Readable where
  memKinds := by
    intro m hm e he
    obtain rfl : m = newMemtable := by simpa [Engine.memtables, separatedStore] using hm
    simp [newMemtable] at he
  healthy := by
    intro t ht
    obtain rfl := mem_singleton.1 ht
    rfl
  decodes := by
    intro t ht e he
    obtain rfl := mem_singleton.1 ht
    obtain rfl := mem_singleton.1 he
    exact ⟨⟨2, 0, 3, 0⟩, decodeBlobPointer_encode _, le_refl _⟩
  bounded := by
    intro t ht
    obtain rfl := mem_singleton.1 ht
    exact finishTable_bounded _ _ _ _ _ _

theorem separatedStore_copies (blobPath : Bool) :
    CopiesIdentical (separatedStore blobPath).entries := by
  cases blobPath <;> decide

theorem separatedStore_blobsPresent (blobPath : Bool) :
    (separatedStore blobPath).BlobsPresent := by
  intro t ht e he ptr _ hdec
  obtain rfl := mem_singleton.1 ht
  obtain rfl := mem_singleton.1 he
  rw [decodeBlobPointer_encode] at hdec
  cases hdec
  exact ⟨[118, 97, 108], rfl⟩

theorem reads_agree_iff_resolvesBlobs_separatedStore :
    (separatedStore true).Readable ∧ CopiesIdentical (separatedStore true).entries ∧
      (separatedStore true).BlobsPresent ∧
      ((∀ seq now key, (separatedStore true).ReadsAgree seq now key) ↔
        (separatedStore true).ResolvesBlobs) :=
  ⟨separatedStore_readable true, separatedStore_copies true, separatedStore_blobsPresent true,
    reads_agree_iff_resolvesBlobs (separatedStore_readable true) (separatedStore_copies true)
      (separatedStore_blobsPresent true)⟩

/-- Without a blob path the read of a stored value calls a nil function. -/
theorem getWithExpiry_separatedStore_nilBlobPath :
    (separatedStore false).Readable ∧ CopiesIdentical (separatedStore false).entries ∧
      (separatedStore false).BlobsPresent ∧
      (separatedStore false).reference 1 0 [107] = some ([118, 97, 108], 0) ∧
      getWithExpiry (separatedStore false) 1 [107] 0 = .error .nilBlobPath := by
  refine ⟨separatedStore_readable false, separatedStore_copies false,
    separatedStore_blobsPresent false, ?_, ?_⟩
  · decide
  · decide +kernel

end LevisDB
