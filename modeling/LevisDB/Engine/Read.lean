import LevisDB.Engine.State

/-!
# Point reads

`pickVersion` folds the newest visible version of every source into one pick,
first the memtables and then the tables the level index offers. The reads built
on it hide a pick behind a newer range tombstone, which is searched over all
tables, and fetch an out-of-line value from its blob file. `hasAtTime` repeats
the resolution with its own comparison of the candidates.
-/

namespace LevisDB

open List LevisDB.Except

/-- The bytes a pointer addresses, when its file holds all of them. -/
def blobBytes (blobs : List (Nat × Bytes)) (p : BlobPointer) : Option Bytes :=
  (blobs.find? fun b => decide (b.1 = p.num.toNat)).bind fun b =>
    if p.offset.toNat + p.length.toNat ≤ b.2.length then
      some ((b.2.drop p.offset.toNat).take p.length.toNat)
    else none

/-- Reads a value through the path function of the session; calling a nil path
function is a run-time panic. -/
def resolveBlob (s : Engine) (p : BlobPointer) : Except Err Bytes :=
  if s.cfg.blobPath = false then .error .nilBlobPath
  else
    match blobBytes s.blobs p with
    | some value => .ok value
    | none => .error (.blobRead p.num p.offset)

/-- Folds a candidate into the pick. A higher sequence wins; the same sequence
with another kind or value is a conflict. -/
def versionPickMerge (best : Option VersionAt) (v : VersionAt) (source : String) :
    Except Err (Option VersionAt) :=
  match best with
  | none => .ok (some v)
  | some b =>
    if b.seq < v.seq then .ok (some v)
    else if v.seq = b.seq ∧ (v.deleted ≠ b.deleted ∨ (v.deleted = false ∧ v.value ≠ b.value)) then
      .error (.conflictingVersions source v.seq)
    else .ok best

/-- Folds an out-of-line candidate; ties are not compared. -/
def versionPickMergeBlob (best : Option VersionAt) (v : VersionAt) : Option VersionAt :=
  match best with
  | none => some v
  | some b => if b.seq < v.seq then some v else best

def offerMemtable (source : String) (best : Option VersionAt) (found : Option VersionAt) :
    Except Err (Option VersionAt) :=
  match found with
  | none => .ok best
  | some v => versionPickMerge best v source

def offerTable (best : Option VersionAt) (found : Option VersionAt) :
    Except Err (Option VersionAt) :=
  match found with
  | none => .ok best
  | some v =>
    if v.blobPtr.isSome then .ok (versionPickMergeBlob best v)
    else versionPickMerge best v "table"

section Reads

variable (s : Engine) (seq : Nat) (key : Key) (now : Time)

def pickVersion : Except Err (Option VersionAt) := do
  let best := s.mem.getVersionAt seq key now
  let best ← s.imm.toList.foldlM (fun best imm =>
    offerMemtable "memtable" best (imm.getVersionAt seq key now)) best
  let best ← s.recoveryMems.foldlM (fun best recovered =>
    offerMemtable "recovery memtable" best (recovered.getVersionAt seq key now)) best
  (buildLevelIndex s.tables).candidates key (fun best table => do
    offerTable best (← table.reader.lookupAtTime key seq now)) best

/-- The newest range tombstone visible at `readSeq` that contains `key`. -/
def maxCoveringRangeDelSeq (readSeq : Nat) : Except Err Nat := do
  let best := s.memtables.foldl (fun best m => considerRangeDels key readSeq best m.rts) 0
  s.tables.foldlM (fun best table =>
    if table.mayContain key = false then pure best
    else do
      let rts ← table.reader.rangeTombstones
      pure (considerRangeDels key readSeq best rts)) best

/-- The value of a pick that survived the range tombstones. -/
def pickValue (best : VersionAt) : Except Err Bytes :=
  match best.blobPtr with
  | some ptr => resolveBlob s ptr
  | none => .ok best.value

def getWithExpiry : Except Err (Option (Bytes × Time)) := do
  match ← pickVersion s seq key now with
  | none => pure none
  | some best =>
    if best.deleted then pure none
    else
      let rdSeq ← maxCoveringRangeDelSeq s key seq
      if best.seq < rdSeq then pure none
      else
        let value ← pickValue s best
        pure (some (value, best.expiresAt))

/-- Resolves a batch of keys under one clock reading; an error aborts the batch. -/
def getManyWithExpiry (keys : List Key) : Except Err (List (Option (Bytes × Time))) :=
  keys.mapM fun key => getWithExpiry s seq key now

/-- The outcome of `getAtTime` and `hasAtTime`: whether a version was found and
whether it is deleted for the reader. -/
structure Presence where
  found : Bool
  deleted : Bool
  deriving DecidableEq

def getAtTime : Except Err (Bytes × Presence) := do
  match ← pickVersion s seq key now with
  | none => pure ([], ⟨false, false⟩)
  | some best =>
    if best.deleted then pure ([], ⟨true, true⟩)
    else
      let rdSeq ← maxCoveringRangeDelSeq s key seq
      if best.seq < rdSeq then pure ([], ⟨true, true⟩)
      else
        let value ← pickValue s best
        pure (value, ⟨true, false⟩)

structure HasPick where
  seq : Nat
  deleted : Bool
  deriving DecidableEq

def offerHas (source : String) (best : Option HasPick) (found : Option VersionAt) :
    Except Err (Option HasPick) :=
  match found, best with
  | none, _ => .ok best
  | some v, none => .ok (some ⟨v.seq, v.deleted⟩)
  | some v, some b =>
    if b.seq < v.seq then .ok (some ⟨v.seq, v.deleted⟩)
    else if v.seq = b.seq ∧ v.deleted ≠ b.deleted then .error (.conflictingKinds source v.seq)
    else .ok best

def hasPick : Except Err (Option HasPick) := do
  let best := (s.mem.getVersionAt seq key now).map fun v => HasPick.mk v.seq v.deleted
  let best ← s.imm.toList.foldlM (fun best imm =>
    offerHas "memtable" best (imm.getVersionAt seq key now)) best
  let best ← s.recoveryMems.foldlM (fun best recovered =>
    offerHas "recovery memtable" best (recovered.getVersionAt seq key now)) best
  (buildLevelIndex s.tables).candidates key (fun best table => do
    offerHas "table" best (← table.reader.lookupAtTime key seq now)) best

def hasAtTime : Except Err Presence := do
  match ← hasPick s seq key now with
  | none => pure ⟨false, false⟩
  | some best =>
    if best.deleted then pure ⟨true, true⟩
    else
      let rdSeq ← maxCoveringRangeDelSeq s key seq
      if best.seq < rdSeq then pure ⟨true, true⟩ else pure ⟨true, false⟩

end Reads

/-- The tables can be read and hold what their metadata says; the memtables hold
no blob pointers. -/
structure Engine.Readable (s : Engine) : Prop where
  memKinds : ∀ m ∈ s.memtables, ∀ e ∈ m.points, e.kind ≠ .blobRef
  healthy : ∀ t ∈ s.tables, t.reader.fault = none
  decodes : ∀ t ∈ s.tables, ∀ e ∈ t.points, e.payload.Decodes
  bounded : ∀ t ∈ s.tables, t.Bounded

section Resolution

variable {β : Type} {s : Engine} {seq : Nat} {key : Key} {now : Time}
variable {es : List Entry} {m : Memtable} {best : Option Entry}

/-- The common shape of `pickVersion` and `hasPick`: fold the report of each
source into a candidate. -/
def resolveWith (s : Engine) (seq : Nat) (key : Key) (now : Time) (init : Option β)
    (memtable : String → Option β → Option VersionAt → Except Err (Option β))
    (table : Option β → Option VersionAt → Except Err (Option β)) : Except Err (Option β) := do
  let best ← s.imm.toList.foldlM (fun best imm =>
    memtable "memtable" best (imm.getVersionAt seq key now)) init
  let best ← s.recoveryMems.foldlM (fun best recovered =>
    memtable "recovery memtable" best (recovered.getVersionAt seq key now)) best
  (buildLevelIndex s.tables).candidates key (fun best t => do
    table best (← t.reader.lookupAtTime key seq now)) best

theorem pickVersion_eq_resolveWith :
    pickVersion s seq key now =
      resolveWith s seq key now (s.mem.getVersionAt seq key now) offerMemtable offerTable := rfl

theorem hasPick_eq_resolveWith :
    hasPick s seq key now =
      resolveWith s seq key now
        ((s.mem.getVersionAt seq key now).map fun v => HasPick.mk v.seq v.deleted)
        offerHas (offerHas "table") := rfl

/-- `offer` keeps the newer of two versions of `key` drawn from `es`. -/
def Absorbs (enc : Entry → β) (es : List Entry) (key : Key) (now : Time)
    (offer : Option β → Option VersionAt → Except Err (Option β)) : Prop :=
  ∀ best found : Option Entry, (∀ b ∈ best, b ∈ es ∧ b.user = key) →
    (∀ f ∈ found, f ∈ es ∧ f.user = key) →
    offer (best.map enc) (found.map fun e => e.versionAt now) = .ok ((newer best found).map enc)

section

variable (hcopies : CopiesAgreeAt now es)
include hcopies

theorem versionAt_eq_of_copies {a b : Entry}
    (ha : a ∈ es ∧ a.user = key) (hb : b ∈ es ∧ b.user = key) (hseq : a.seq = b.seq) :
    a.versionAt now = b.versionAt now := by
  unfold Entry.versionAt
  rw [hseq, hcopies a ha.1 b hb.1 (ha.2.trans hb.2.symm) hseq]

theorem absorbs_merge (source : String)
    {a b : Entry} (ha : a ∈ es ∧ a.user = key) (hb : b ∈ es ∧ b.user = key) :
    versionPickMerge (some (a.versionAt now)) (b.versionAt now) source =
      .ok ((newer (some a) (some b)).map fun e => e.versionAt now) := by
  unfold versionPickMerge newer
  simp only [Entry.versionAt_seq]
  split_ifs with hlt hconf
  · rfl
  · rw [versionAt_eq_of_copies hcopies ha hb hconf.1.symm] at hconf
    simp at hconf
  · rfl

theorem absorbs_offerMemtable
    (source : String) : Absorbs (fun e => e.versionAt now) es key now (offerMemtable source) := by
  intro best found hbest hfound
  cases found with
  | none => cases best <;> rfl
  | some b =>
    cases best with
    | none => rfl
    | some a => exact absorbs_merge hcopies source (hbest a rfl) (hfound b rfl)

theorem absorbs_offerTable :
    Absorbs (fun e => e.versionAt now) es key now offerTable := by
  intro best found hbest hfound
  cases found with
  | none => cases best <;> rfl
  | some b =>
    change (if (b.versionAt now).blobPtr.isSome then _ else _) = _
    split_ifs with hblob
    · cases best with
      | none => rfl
      | some a =>
        simp only [Option.map_some, versionPickMergeBlob, Entry.versionAt_seq, newer]
        split_ifs <;> rfl
    · cases best with
      | none => rfl
      | some a => exact absorbs_merge hcopies "table" (hbest a rfl) (hfound b rfl)

theorem absorbs_offerHas (source : String) :
    Absorbs (fun e => HasPick.mk e.seq (e.versionAt now).deleted) es key now
      (offerHas source) := by
  intro best found hbest hfound
  cases found with
  | none => cases best <;> rfl
  | some b =>
    cases best with
    | none => simp [offerHas, newer]
    | some a =>
      simp only [Option.map_some, offerHas, Entry.versionAt_seq, newer]
      split_ifs with hlt hconf
      · rfl
      · rw [versionAt_eq_of_copies hcopies (hbest a rfl) (hfound b rfl) hconf.1.symm] at hconf
        simp at hconf
      · rfl

end

theorem absorb_source {enc : Entry → β}
    {offer : Option β → Option VersionAt → Except Err (Option β)}
    (hoffer : Absorbs enc es key now offer) {seen src : List Entry}
    (hbest : IsNewestIn key seq seen best) (hseen : seen ⊆ es) (hsrc : src ⊆ es)
    (hsorted : src.Pairwise IKeyOrder) :
    ∃ best', IsNewestIn key seq (seen ++ src) best' ∧
      offer (best.map enc) ((newestVersion key seq src).map fun e => e.versionAt now) =
        .ok (best'.map enc) := by
  have hnew := newestVersion_isNewestIn hsorted key seq
  refine ⟨newer best (newestVersion key seq src), hbest.append hnew, hoffer _ _ ?_ ?_⟩
  · intro b hb
    rw [Option.mem_def.1 hb] at hbest
    exact ⟨hseen hbest.1, hbest.2.1⟩
  · intro f hf
    rw [Option.mem_def.1 hf] at hnew
    exact ⟨hsrc hnew.1, hnew.2.1⟩

theorem absorb_sources {α : Type} {enc : Entry → β} (points : α → List Entry)
    (step : Option β → α → Except Err (Option β)) (xs : List α)
    (hstep : ∀ x ∈ xs, ∀ seen best, IsNewestIn key seq seen best → seen ⊆ es →
      ∃ best', IsNewestIn key seq (seen ++ points x) best' ∧
        step (best.map enc) x = .ok (best'.map enc))
    (hxs : ∀ x ∈ xs, points x ⊆ es) {seen : List Entry}
    (hbest : IsNewestIn key seq seen best) (hseen : seen ⊆ es) :
    ∃ best', IsNewestIn key seq (seen ++ xs.flatMap points) best' ∧
      seen ++ xs.flatMap points ⊆ es ∧ xs.foldlM step (best.map enc) = .ok (best'.map enc) := by
  induction xs generalizing seen best with
  | nil => exact ⟨best, by simpa using hbest, by simpa using hseen, rfl⟩
  | cons x xs ih =>
    obtain ⟨b₁, hb₁, hs₁⟩ := hstep x (by simp) seen best hbest hseen
    have hsub : seen ++ points x ⊆ es := append_subset.2 ⟨hseen, hxs x (by simp)⟩
    obtain ⟨b₂, hb₂, hsub₂, hs₂⟩ := ih (fun y hy => hstep y (by simp [hy]))
      (fun y hy => hxs y (by simp [hy])) hb₁ hsub
    rw [append_assoc] at hb₂ hsub₂
    refine ⟨b₂, hb₂, hsub₂, ?_⟩
    rw [foldlM_cons, hs₁]
    exact hs₂

theorem memPoints_subset (hm : m ∈ s.memtables) : m.points ⊆ s.entries :=
  fun _ he => mem_append_left _ (mem_memPoints.2 ⟨m, hm, he⟩)

theorem tablePoints_subset {t : TableMeta} (ht : t ∈ s.tables) : t.points ⊆ s.entries :=
  fun _ he => mem_append_right _ (mem_tablePoints.2 ⟨t, ht, he⟩)

theorem mem_mem_memtables : s.mem ∈ s.memtables := by
  simp [Engine.memtables]

theorem imm_mem_memtables (hm : m ∈ s.imm.toList) : m ∈ s.memtables :=
  mem_cons_of_mem _ (mem_append_left _ hm)

theorem recovery_mem_memtables (hm : m ∈ s.recoveryMems) : m ∈ s.memtables :=
  mem_cons_of_mem _ (mem_append_right _ hm)

theorem resolveWith_eq (hr : s.Readable) {enc : Entry → β}
    {memtable : String → Option β → Option VersionAt → Except Err (Option β)}
    {table : Option β → Option VersionAt → Except Err (Option β)}
    (hmem : ∀ source, Absorbs enc s.entries key now (memtable source))
    (htable : Absorbs enc s.entries key now table) :
    ∃ best, IsNewestIn key seq s.entries best ∧
      resolveWith s seq key now ((newestVersion key seq s.mem.points).map enc) memtable table =
        .ok (best.map enc) := by
  have hmemStep : ∀ source, ∀ m ∈ s.memtables, ∀ seen best, IsNewestIn key seq seen best →
      seen ⊆ s.entries → ∃ best', IsNewestIn key seq (seen ++ m.points) best' ∧
        memtable source (best.map enc) (m.getVersionAt seq key now) = .ok (best'.map enc) := by
    intro source m hm seen best hbest hseen
    rw [m.getVersionAt_eq (hr.memKinds m hm)]
    exact absorb_source (hmem source) hbest hseen (memPoints_subset hm) m.sorted
  have htableStep : ∀ t ∈ visitedTables s.tables key, ∀ seen best,
      IsNewestIn key seq seen best → seen ⊆ s.entries →
        ∃ best', IsNewestIn key seq (seen ++ t.points) best' ∧
          (do table (best.map enc) (← t.reader.lookupAtTime key seq now)) =
            .ok (best'.map enc) := by
    intro t ht seen best hbest hseen
    have htab := (mem_visitedTables.1 ht).1
    rw [TableReader.lookupAtTime_eq (hr.healthy t htab) (hr.decodes t htab)]
    exact absorb_source htable hbest hseen (tablePoints_subset htab) t.reader.sorted_le
  obtain ⟨b₁, hb₁, hsub₁, hs₁⟩ := absorb_sources Memtable.points
    (fun best m => memtable "memtable" best (m.getVersionAt seq key now)) s.imm.toList
    (fun m hm => hmemStep "memtable" m (imm_mem_memtables hm))
    (fun m hm => memPoints_subset (imm_mem_memtables hm))
    (newestVersion_isNewestIn s.mem.sorted key seq) (memPoints_subset mem_mem_memtables)
  obtain ⟨b₂, hb₂, hsub₂, hs₂⟩ := absorb_sources Memtable.points
    (fun best m => memtable "recovery memtable" best (m.getVersionAt seq key now)) s.recoveryMems
    (fun m hm => hmemStep "recovery memtable" m (recovery_mem_memtables hm))
    (fun m hm => memPoints_subset (recovery_mem_memtables hm)) hb₁ hsub₁
  obtain ⟨b₃, hb₃, hsub₃, hs₃⟩ := absorb_sources TableMeta.points
    (fun best t => do table best (← t.reader.lookupAtTime key seq now))
    (visitedTables s.tables key) htableStep
    (fun t ht => tablePoints_subset (mem_visitedTables.1 ht).1) hb₂ hsub₂
  refine ⟨b₃, hb₃.congr fun e huser => ⟨fun he => hsub₃ he, fun he => ?_⟩, ?_⟩
  · rcases mem_append.1 he with he | he
    · have hmems : e ∈ s.mem.points ++ s.imm.toList.flatMap Memtable.points ++
          s.recoveryMems.flatMap Memtable.points := by
        simpa [memPoints, Engine.memtables] using he
      exact mem_append_left _ hmems
    · obtain ⟨t, ht, het⟩ := mem_tablePoints.1 he
      have hmay : t.mayContain key = true := huser ▸ (hr.bounded t ht).points e het
      exact mem_append_right _ (mem_flatMap.2 ⟨t, mem_visitedTables.2 ⟨ht, hmay⟩, het⟩)
  · unfold resolveWith
    rw [hs₁, ok_bind, hs₂, ok_bind, candidates_eq, hs₃]

theorem pickVersion_eq (hr : s.Readable) (hcopies : CopiesAgreeAt now s.entries) (seq : Nat)
    (key : Key) :
    ∃ best, IsNewestIn key seq s.entries best ∧
      pickVersion s seq key now = .ok (best.map fun e => e.versionAt now) := by
  obtain ⟨best, hbest, h⟩ := resolveWith_eq hr (fun source => absorbs_offerMemtable hcopies source)
    (absorbs_offerTable hcopies)
  refine ⟨best, hbest, ?_⟩
  rw [pickVersion_eq_resolveWith, s.mem.getVersionAt_eq (hr.memKinds _ mem_mem_memtables)]
  exact h

theorem hasPick_eq (hr : s.Readable) (hcopies : CopiesAgreeAt now s.entries) (seq : Nat)
    (key : Key) :
    ∃ best, IsNewestIn key seq s.entries best ∧
      hasPick s seq key now =
        .ok (best.map fun e => HasPick.mk e.seq (e.versionAt now).deleted) := by
  obtain ⟨best, hbest, h⟩ := resolveWith_eq hr (fun source => absorbs_offerHas hcopies source)
    (absorbs_offerHas hcopies "table")
  refine ⟨best, hbest, ?_⟩
  rw [hasPick_eq_resolveWith, s.mem.getVersionAt_eq (hr.memKinds _ mem_mem_memtables)]
  simpa [Option.map_map, Function.comp_def] using h

theorem lt_foldl_memtables_iff {ms : List Memtable} {best n : Nat} :
    n < ms.foldl (fun best m => considerRangeDels key seq best m.rts) best ↔
      n < best ∨ ∃ rt ∈ memRangeDels ms, rt.Covers key n seq := by
  induction ms generalizing best with
  | nil => simp [memRangeDels]
  | cons m ms ih =>
    rw [foldl_cons, ih, lt_considerRangeDels_iff, or_assoc]
    simp only [memRangeDels, flatMap_cons, mem_append, or_and_right, exists_or]

theorem foldlM_tables_eq (key : Key) (seq : Nat) {ts : List TableMeta}
    (hhealthy : ∀ t ∈ ts, t.reader.fault = none)
    (hbounded : ∀ t ∈ ts, t.Bounded) (best : Nat) :
    ∃ rdSeq, ts.foldlM (fun best table =>
        if table.mayContain key = false then pure best
        else do
          let rts ← table.reader.rangeTombstones
          pure (considerRangeDels key seq best rts)) best = (.ok rdSeq : Except Err Nat) ∧
      ∀ n, n < rdSeq ↔ n < best ∨ ∃ rt ∈ tableRangeDels ts, rt.Covers key n seq := by
  induction ts generalizing best with
  | nil => exact ⟨best, rfl, by simp [tableRangeDels]⟩
  | cons t ts ih =>
    have hrest := fun best => ih (fun u hu => hhealthy u (by simp [hu]))
      (fun u hu => hbounded u (by simp [hu])) best
    have hcons : ∀ n, (∃ rt ∈ tableRangeDels (t :: ts), rt.Covers key n seq) ↔
        (∃ rt ∈ t.rangeDels, rt.Covers key n seq) ∨
          ∃ rt ∈ tableRangeDels ts, rt.Covers key n seq := by
      intro n
      simp only [tableRangeDels, flatMap_cons, mem_append, or_and_right, exists_or]
    rw [foldlM_cons]
    by_cases hmay : t.mayContain key = false
    · obtain ⟨rdSeq, hok, hlt⟩ := hrest best
      refine ⟨rdSeq, by rw [if_pos hmay]; exact hok, fun n => ?_⟩
      have hnone : ¬ ∃ rt ∈ t.rangeDels, rt.Covers key n seq := by
        rintro ⟨rt, hrt, hcov⟩
        have := (hbounded t (by simp)).rangeDels rt hrt key hcov.1
        rw [hmay] at this
        cases this
      rw [hlt, hcons, or_iff_right hnone]
    · obtain ⟨rdSeq, hok, hlt⟩ := hrest (considerRangeDels key seq best t.rangeDels)
      refine ⟨rdSeq, ?_, fun n => ?_⟩
      · rw [if_neg hmay, TableReader.rangeTombstones_eq (hhealthy t (by simp))]
        exact hok
      · rw [hlt, lt_considerRangeDels_iff, hcons, or_assoc]

theorem maxCoveringRangeDelSeq_eq (hr : s.Readable) (key : Key) (seq : Nat) :
    ∃ rdSeq, maxCoveringRangeDelSeq s key seq = .ok rdSeq ∧
      ∀ n, n < rdSeq ↔ rangeDeleted s.rangeDels key n seq = true := by
  obtain ⟨rdSeq, hok, hlt⟩ := foldlM_tables_eq key seq hr.healthy hr.bounded
    (s.memtables.foldl (fun best m => considerRangeDels key seq best m.rts) 0)
  refine ⟨rdSeq, hok, fun n => ?_⟩
  rw [hlt, lt_foldl_memtables_iff, rangeDeleted_iff]
  simp only [Engine.rangeDels, mem_append, or_and_right, exists_or]
  simp

/-- What fetching a live value returns: its bytes, through the blob file when
they are out of line, and its deadline. -/
def liveValue (s : Engine) (live : Live) : Except Err (Bytes × Time) :=
  match live.content with
  | .inline value => .ok (value, live.expiresAt)
  | .blob ptr => (resolveBlob s ptr).map fun value => (value, live.expiresAt)

theorem pickValue_versionAt {e : Entry} {live : Live} (h : e.payload.liveAt now = some live) :
    (pickValue s (e.versionAt now)).map (fun value => (value, (e.versionAt now).expiresAt)) =
      liveValue s live := by
  unfold Entry.versionAt
  rw [h]
  obtain ⟨content, expiresAt⟩ := live
  cases content <;> rfl

inductive Outcome (s : Engine) (seq : Nat) (key : Key) (now : Time) : Option Entry → Prop
  | absent (hview : s.view seq now key = none) : Outcome s seq key now none
  | dead {e : Entry} (hdel : (e.versionAt now).deleted = true)
      (hview : s.view seq now key = none) : Outcome s seq key now (some e)
  | hidden {e : Entry} {rdSeq : Nat} (hdel : (e.versionAt now).deleted = false)
      (hrd : maxCoveringRangeDelSeq s key seq = .ok rdSeq) (hlt : e.seq < rdSeq)
      (hview : s.view seq now key = none) : Outcome s seq key now (some e)
  | live {e : Entry} {rdSeq : Nat} {live : Live} (hdel : (e.versionAt now).deleted = false)
      (hrd : maxCoveringRangeDelSeq s key seq = .ok rdSeq) (hlt : ¬ e.seq < rdSeq)
      (hlive : e.payload.liveAt now = some live) (hview : s.view seq now key = some live) :
      Outcome s seq key now (some e)

theorem outcome_of_newest (hr : s.Readable) (hcopies : CopiesAgreeAt now s.entries)
    (hbest : IsNewestIn key seq s.entries best) :
    Outcome s seq key now best := by
  obtain ⟨rdSeq, hrd, hlt⟩ := maxCoveringRangeDelSeq_eq hr key seq
  have hview : s.view seq now key = best.bind fun e =>
      if rangeDeleted s.rangeDels key e.seq seq then none else e.payload.liveAt now :=
    visibleAt_eq hcopies hbest
  cases best with
  | none => exact .absent hview
  | some e =>
    rw [Option.bind_some] at hview
    have hdeleted : (e.versionAt now).deleted = (e.payload.liveAt now).isNone :=
      VersionAt.ofLive_deleted _ _
    cases hlive : e.payload.liveAt now with
    | none =>
      rw [hlive] at hview hdeleted
      exact .dead hdeleted (by rw [hview]; split_ifs <;> rfl)
    | some live =>
      rw [hlive] at hview hdeleted
      by_cases hcov : rangeDeleted s.rangeDels key e.seq seq = true
      · exact .hidden hdeleted hrd ((hlt _).2 hcov) (by rw [hview, if_pos hcov])
      · exact .live hdeleted hrd (by rw [hlt]; exact hcov) hlive (by rw [hview, if_neg hcov])

theorem hasPick_eq_of_newest (hr : s.Readable) (hcopies : CopiesAgreeAt now s.entries)
    (hbest : IsNewestIn key seq s.entries best) :
    hasPick s seq key now =
      .ok (best.map fun e => HasPick.mk e.seq (e.versionAt now).deleted) := by
  obtain ⟨best', hbest', hpick⟩ := hasPick_eq hr hcopies seq key
  rw [hpick]
  cases best with
  | none =>
    cases best' with
    | none => rfl
    | some e' => exact absurd hbest'.2.2.1 (hbest e' hbest'.1 hbest'.2.1)
  | some e =>
    cases best' with
    | none => exact absurd hbest.2.2.1 (hbest' e hbest.1 hbest.2.1)
    | some e' =>
      have hseq : e'.seq = e.seq :=
        Nat.le_antisymm (hbest.2.2.2 e' hbest'.1 hbest'.2.1 hbest'.2.2.1)
          (hbest'.2.2.2 e hbest.1 hbest.2.1 hbest.2.2.1)
      have hver := versionAt_eq_of_copies hcopies ⟨hbest'.1, hbest'.2.1⟩
        ⟨hbest.1, hbest.2.1⟩ hseq
      simp only [Option.map_some, hseq, hver]

theorem getWithExpiry_eq (hr : s.Readable) (hcopies : CopiesAgreeAt now s.entries)
    (seq : Nat) (key : Key) :
    getWithExpiry s seq key now =
      (s.view seq now key).elim (.ok none) fun live => (liveValue s live).map some := by
  obtain ⟨best, hbest, hpick⟩ := pickVersion_eq hr hcopies seq key
  unfold getWithExpiry
  rw [hpick]
  cases outcome_of_newest hr hcopies hbest with
  | absent hview =>
    rw [hview]
    rfl
  | dead hdel hview =>
    rw [hview]
    simp only [Option.map_some, ok_bind, hdel, if_true]
    rfl
  | hidden hdel hrd hlt hview =>
    rw [hview]
    simp only [Option.map_some, ok_bind, hdel, hrd, Entry.versionAt_seq, hlt, if_true]
    rfl
  | live hdel hrd hlt hlive hview =>
    rw [hview, Option.elim_some, ← pickValue_versionAt hlive]
    simp only [Option.map_some, ok_bind, hdel, hrd, Entry.versionAt_seq, hlt, if_false]
    cases pickValue s _ <;> rfl

theorem getAtTime_eq (hr : s.Readable) (hcopies : CopiesAgreeAt now s.entries)
    (seq : Nat) (key : Key) :
    ∃ p : Presence, (p.found && !p.deleted) = (s.view seq now key).isSome ∧
      hasAtTime s seq key now = .ok p ∧
      getAtTime s seq key now =
        (s.view seq now key).elim (.ok ([], p)) fun live =>
          (liveValue s live).map fun value => (value.1, p) := by
  obtain ⟨best, hbest, hpick⟩ := pickVersion_eq hr hcopies seq key
  have hhas := hasPick_eq_of_newest hr hcopies hbest
  unfold hasAtTime getAtTime
  rw [hpick, hhas]
  cases outcome_of_newest hr hcopies hbest with
  | absent hview =>
    rw [hview]
    exact ⟨⟨false, false⟩, rfl, rfl, rfl⟩
  | dead hdel hview =>
    rw [hview]
    refine ⟨⟨true, true⟩, rfl, ?_, ?_⟩ <;>
      simp only [Option.map_some, ok_bind, hdel, if_true] <;> rfl
  | hidden hdel hrd hlt hview =>
    rw [hview]
    refine ⟨⟨true, true⟩, rfl, ?_, ?_⟩ <;>
      simp only [Option.map_some, ok_bind, hdel, hrd, Entry.versionAt_seq, hlt,
        if_true] <;> rfl
  | live hdel hrd hlt hlive hview =>
    rw [hview]
    refine ⟨⟨true, false⟩, rfl, ?_, ?_⟩
    · simp only [Option.map_some, ok_bind, hdel, hrd, hlt, if_false]
      rfl
    · rw [Option.elim_some, ← pickValue_versionAt hlive]
      simp only [Option.map_some, ok_bind, hdel, hrd, Entry.versionAt_seq, hlt, if_false]
      cases pickValue s _ <;> rfl

end Resolution

end LevisDB
