import LevisDB.Compaction.Reclaim
import LevisDB.Db.Contents

/-!
# The filter in a manual compaction

`CompactRange` runs the compaction filter in its last pass only, so that a value
carried through several tiers is judged once. The last pass shows the filter the
head of every key it merges, when that head is live and uncovered.
-/

namespace LevisDB

open List LevisDB.Except

def runCalls (s : Engine) (p : CompactionPlan) (retain : Nat) (cc : CompactionConfig) (now : Time) :
    Except Err (List FilterCall) := do
  let rangeDels ← collectInputRangeDels p.inputs
  let (_, calls) ← collapseLogged (resolveBlob s) (p.mergeWrite retain cc now rangeDels)
    ⟨none, false⟩ (KMerge.merge IKeyOrder (p.inputs.map (·.reader.newIterator))).1
  pure calls

def compactCalls (s : Engine) (depth retain : Nat) (cc : CompactionConfig) (now : Time) :
    Except Err (List FilterCall) :=
  match planCompact s.tables depth cc with
  | none => .ok []
  | some p => runCalls s p retain cc now

def relocateCalls (fmt : TableFormat) (retain : Nat) (cc : CompactionConfig) (now : Time) :
    List Nat → Engine → Except Err (List FilterCall)
  | [], _ => .ok []
  | depth :: depths, s => do
      let calls ← compactCalls s depth retain { cc with filter := none } now
      let s' ← compact fmt s depth retain { cc with filter := none } now
      let rest ← relocateCalls fmt retain cc now depths s'
      pure (calls ++ rest)

def compactTieredCalls (fmt : TableFormat) (s : Engine) (retain : Nat) (cc : CompactionConfig)
    (now : Time) : Except Err (List FilterCall) := do
  let bottom := maxDepthOf s.tables
  let hops ← relocateCalls fmt retain cc now (List.range bottom) s
  let s' ← relocate fmt retain cc now (List.range bottom) s
  let last ← compactCalls s' bottom retain cc.final now
  pure (hops ++ last)

def compactRangeCalls (fmt : TableFormat) (o : Options) (f : CompactionFilter) (s : Engine)
    (readSeq safe : Nat) (now : Time) : Except Err (List FilterCall) := do
  let (s', safe') ← prepareCompactionFilter fmt s readSeq safe
  let s'' ← s'.flush fmt
  compactTieredCalls fmt s'' readSeq (o.runConfig (manualRunConfig (some f) readSeq safe' now)) now

theorem compactCalls_no_filter {s : Engine} {depth retain : Nat} {cc : CompactionConfig}
    {now : Time} {calls : List FilterCall} (hfilter : cc.filter = none)
    (h : compactCalls s depth retain cc now = .ok calls) : calls = [] := by
  unfold compactCalls at h
  split at h
  · exact (Except.ok.inj h).symm
  · obtain ⟨rts, _, h⟩ := bind_eq_ok.1 h
    obtain ⟨⟨ws, calls'⟩, hlog, h⟩ := bind_eq_ok.1 h
    cases h
    exact collapseLogged_no_filter hfilter hlog

theorem relocateCalls_nil {fmt : TableFormat} {retain : Nat} {cc : CompactionConfig} {now : Time}
    {depths : List Nat} {s : Engine} {calls : List FilterCall}
    (h : relocateCalls fmt retain cc now depths s = .ok calls) : calls = [] := by
  induction depths generalizing s calls with
  | nil => exact (Except.ok.inj h).symm
  | cons depth depths ih =>
    obtain ⟨first, hfirst, h⟩ := bind_eq_ok.1 h
    obtain ⟨s', _, h⟩ := bind_eq_ok.1 h
    obtain ⟨rest, hrest, h⟩ := bind_eq_ok.1 h
    cases h
    rw [compactCalls_no_filter rfl hfirst, ih hrest, append_nil]

section Decide

variable {s : Engine} {cc : CompactionConfig} {e : Entry} {now : Time}

/-- The blob file of this entry, if it is a pointer, is on disk. -/
def Entry.BlobPresent (blobs : List (Nat × Bytes)) (e : Entry) : Prop :=
  ∀ ptr, e.kind = .blobRef → decodeBlobPointer e.value = .ok ptr →
    ∃ value, blobBytes blobs ptr = some value

theorem resolveBlob_eq_ok {ptr : BlobPointer} {value : Bytes} (h : resolveBlob s ptr = .ok value) :
    blobBytes s.blobs ptr = some value := by
  unfold resolveBlob at h
  split_ifs at h
  cases hb : blobBytes s.blobs ptr with
  | none =>
    rw [hb] at h
    cases h
  | some v =>
    rw [hb] at h
    rw [Except.ok.inj h]

theorem Viewed.bytesAt {x : Bytes × Time} (h : Viewed (resolveBlob s) cc e now (some x))
    (hblob : e.BlobPresent s.blobs) (hfilter : cc.filter.isSome = true) (hkind : e.kind ≠ .delete) :
    ∃ y, e.payload.bytesAt s.blobs now = some y ∧ (filterSafe cc e.seq = true → y = x) := by
  cases h with
  | deleted hdeleted => exact absurd hdeleted hkind
  | inline hlive => exact ⟨x, by rw [Payload.bytesAt, hlive]; rfl, fun _ => rfl⟩
  | @blob ptr value hk hdec hlive hres =>
    obtain ⟨bytes, hbytes⟩ := hblob ptr hk hdec
    refine ⟨(bytes, ptr.expiresAt), ?_, fun hsafe => ?_⟩
    · simp only [Payload.bytesAt, hlive, Option.bind_some, liveReference, hbytes, Option.map_some]
    · have hvalue := resolveBlob_eq_ok (hres ⟨hfilter, hsafe⟩)
      rw [hbytes] at hvalue
      rw [Option.some.inj hvalue]

inductive Judged (f : CompactionFilter) (cc : CompactionConfig) (e : Entry) :
    Option (Bytes × Time) → Entry → Option FilterCall → Prop
  | expired : Judged f cc e none e.asTombstone none
  | skipped {x : Bytes × Time} (h : e.kind = .delete ∨ filterSafe cc e.seq = false) :
      Judged f cc e (some x) e none
  | asked {x : Bytes × Time} {keep : Bool} (hkind : e.kind ≠ .delete)
      (hsafe : filterSafe cc e.seq = true) (hf : f e.user x.1 x.2 = .ok keep) :
      Judged f cc e (some x) (if keep then e else e.asTombstone) (some ⟨e.user, x.1, x.2⟩)

theorem resolveLogged_judged {resolve : BlobPointer → Except Err Bytes} {f : CompactionFilter}
    (hfilter : cc.filter = some f) {w : Entry} {call : Option FilterCall}
    (h : resolveLogged resolve cc e now = .ok (w, call)) :
    ∃ view, filterView resolve cc e now = .ok view ∧ Judged f cc e view w call := by
  unfold resolveLogged at h
  obtain ⟨view, hview, h⟩ := bind_eq_ok.1 h
  refine ⟨view, hview, ?_⟩
  cases view with
  | none =>
    cases h
    exact .expired
  | some x =>
    simp only [hfilter] at h
    by_cases hask : e.kind ≠ .delete ∧ filterSafe cc e.seq = true
    · rw [if_pos hask] at h
      obtain ⟨keep, hf, h⟩ := bind_eq_ok.1 h
      cases h
      exact .asked hask.1 hask.2 hf
    · rw [if_neg hask] at h
      cases h
      refine .skipped ?_
      by_cases hkind : e.kind = .delete
      · exact Or.inl hkind
      · exact Or.inr (by simpa using fun hsafe => hask ⟨hkind, hsafe⟩)

/-- What a decision on a head does, for a head at or below the watermark whose key
can be reclaimed. -/
inductive Decision (f : CompactionFilter) (safe : Nat) (blobs : List (Nat × Bytes)) (now : Time)
    (covered : Prop) (e : Entry) : Option Entry × Option FilterCall → Prop
  | hidden (h : covered ∨ e.payload.bytesAt blobs now = none) :
      Decision f safe blobs now covered e (none, none)
  | shown {x : Bytes × Time} {keep : Bool} (hcov : ¬ covered)
      (hx : e.payload.bytesAt blobs now = some x) (hsafe : e.seq ≤ safe)
      (hf : f e.user x.1 x.2 = .ok keep) :
      Decision f safe blobs now covered e
        (if keep then some e else none, some ⟨e.user, x.1, x.2⟩)
  | passed {x : Bytes × Time} (hcov : ¬ covered) (hx : e.payload.bytesAt blobs now = some x)
      (hlt : safe < e.seq) : Decision f safe blobs now covered e (some e, none)

theorem decideLogged_decision {mw : MergeWrite} {f : CompactionFilter} {safe : Nat}
    (hfilter : mw.cc.filter = some f) (hthrough : mw.cc.filterThrough = safe) (hsafe : safe ≠ 0)
    (hrec : mw.reclaims e.user = true) (hseq : e.seq ≤ mw.retainSeq)
    (hblob : e.BlobPresent s.blobs) {ks : KeyState} {out : Option Entry × Option FilterCall}
    (h : decideLogged (resolveBlob s) mw false e = .ok ((ks, out.1), out.2)) :
    Decision f safe s.blobs mw.expiry
      (e.seq < maxCoveringRangeDelSeqLE mw.rangeDels e.user mw.retainSeq) e out := by
  obtain ⟨w, call⟩ := out
  have hsafeIff : filterSafe mw.cc e.seq = true ↔ e.seq ≤ safe := by
    simp [filterSafe, hthrough, hsafe]
  unfold decideLogged at h
  by_cases hcov : e.seq < maxCoveringRangeDelSeqLE mw.rangeDels e.user mw.retainSeq
  · rw [if_pos ⟨hrec, hcov⟩] at h
    cases h
    exact .hidden (.inl hcov)
  rw [if_neg fun hc => hcov hc.2] at h
  obtain ⟨⟨w', call'⟩, hres, h⟩ := bind_eq_ok.1 h
  simp only [hrec, hseq, and_true, true_and, if_true] at h
  obtain ⟨view, hview, hjudged⟩ := resolveLogged_judged hfilter hres
  have hsome : mw.cc.filter.isSome = true := by rw [hfilter]; rfl
  cases hjudged with
  | expired =>
    have hdead : e.payload.bytesAt s.blobs mw.expiry = none := by
      rw [Payload.bytesAt, liveAt_of_filterView_none hview (le_refl _)]
      rfl
    rw [if_pos (by rfl)] at h
    cases h
    exact .hidden (.inr hdead)
  | skipped hskip =>
    by_cases hkind : e.kind = .delete
    · rw [if_pos hkind] at h
      cases h
      refine .hidden (.inr ?_)
      rw [Payload.bytesAt, liveAt_delete hkind]
      rfl
    · obtain ⟨y, hy, -⟩ := (filterView_viewed hview).bytesAt hblob hsome hkind
      have hnot : ¬ e.seq ≤ safe := by
        rw [← hsafeIff, hskip.resolve_left hkind]
        simp
      rw [if_neg hkind] at h
      cases h
      exact .passed hcov hy (Nat.not_le.1 hnot)
  | @asked x keep hkind hok hf =>
    obtain ⟨y, hy, hsame⟩ := (filterView_viewed hview).bytesAt hblob hsome hkind
    rw [hsame hok] at hy
    cases keep with
    | false =>
      rw [if_pos (by rfl)] at h
      cases h
      exact .shown hcov hy (hsafeIff.1 hok) hf
    | true =>
      rw [if_neg (by exact hkind)] at h
      cases h
      exact .shown hcov hy (hsafeIff.1 hok) hf

end Decide

/-- The filter was shown every live value up to the safe sequence, with its bytes and
deadline, exactly once, and nothing else. -/
def PresentsOnce (S : Mvcc.Store Key Payload) (blobs : List (Nat × Bytes)) (readSeq safe : Nat)
    (now : Time) (calls : List FilterCall) : Prop :=
  (calls.map (·.key)).Nodup ∧ ∀ k x, (⟨k, x.1, x.2⟩ : FilterCall) ∈ calls ↔
    ∃ n, n ≤ safe ∧ S.Reads (Payload.bytesAt blobs) k readSeq now n x

/-- A value is visible afterwards exactly when it was visible before and the filter,
if it was to judge it, keeps it. -/
def KeepsJudged (f : CompactionFilter) (S : Mvcc.Store Key Payload) (blobs : List (Nat × Bytes))
    (S' : Mvcc.Store Key Payload) (blobs' : List (Nat × Bytes)) (readSeq safe : Nat) (now : Time) :
    Prop :=
  ∀ k x, S'.Sees (Payload.bytesAt blobs') k readSeq now x ↔
    ∃ n, S.Reads (Payload.bytesAt blobs) k readSeq now n x ∧ (n ≤ safe → f k x.1 x.2 = .ok true)

theorem mayContain_of_touches {tables : List TableMeta} (hbounded : ∀ t ∈ tables, t.Bounded)
    {k : Key} {n : Nat} (h : (tablesStore tables).Touches k n) :
    ∃ t ∈ tables, t.mayContain k = true := by
  rcases h with ⟨_, ⟨e, he, rfl⟩, rfl, _⟩ | ⟨rt, hrt, hcon, _⟩
  · obtain ⟨t, ht, het⟩ := mem_tablePoints.1 he
    exact ⟨t, ht, (hbounded t ht).points e het⟩
  · obtain ⟨t, ht, hrtt⟩ := mem_tableRangeDels.1 hrt
    exact ⟨t, ht, (hbounded t ht).rangeDels rt hrtt k hcon⟩

/-- A merge of `inputs` at the latest sequence beside tables that share no key with
them: one decision for the head of each key. -/
structure FilteredMerge (f : CompactionFilter) (safe readSeq : Nat) (now : Time)
    (blobs : List (Nat × Bytes)) (inputs kept metas : List TableMeta) (calls : List FilterCall)
    (decided : List (Entry × Option Entry × Option FilterCall)) : Prop where
  apart : ∀ t ∈ inputs, ∀ u ∈ kept, ∀ k, t.mayContain k = true → u.mayContain k = false
  inputsBounded : ∀ t ∈ inputs, t.Bounded
  keptBounded : ∀ t ∈ kept, t.Bounded
  latest : ∀ e ∈ tablePoints inputs, e.seq ≤ readSeq
  ascending : decided.Pairwise fun p q => p.1.user < q.1.user
  source : ∀ p ∈ decided, p.1 ∈ tablePoints inputs
  newest : ∀ e ∈ tablePoints inputs, ∃ p ∈ decided, p.1.user = e.user ∧ e.seq ≤ p.1.seq
  decision : ∀ p ∈ decided, Decision f safe blobs now
    (∃ rt ∈ tableRangeDels inputs, rt.Covers p.1.user p.1.seq readSeq) p.1 p.2
  points : tablePoints metas = decided.filterMap fun p => p.2.1
  spans : tableRangeDels metas = []
  calls : calls = decided.filterMap fun p => p.2.2

namespace FilteredMerge

variable {f : CompactionFilter} {safe readSeq : Nat} {now : Time} {blobs : List (Nat × Bytes)}
  {inputs kept metas : List TableMeta} {calls : List FilterCall}
  {decided : List (Entry × Option Entry × Option FilterCall)} {k : Key} {n : Nat} {x : Bytes × Time}
variable {p : Entry × Option Entry × Option FilterCall}

section

variable (h : FilteredMerge f safe readSeq now blobs inputs kept metas calls decided)
include h

theorem apart_at (k : Key) : (∀ n, ¬ (tablesStore inputs).Touches k n) ∨
    ∀ n, ¬ (tablesStore kept).Touches k n := by
  refine or_iff_not_imp_left.2 fun hin m hkept => ?_
  obtain ⟨n, hin⟩ := not_forall_not.1 hin
  obtain ⟨t, ht, htk⟩ := mayContain_of_touches h.inputsBounded hin
  obtain ⟨u, hu, huk⟩ := mayContain_of_touches h.keptBounded hkept
  rw [h.apart t ht u hu k htk] at huk
  cases huk

theorem not_kept {e : Entry} (he : e ∈ tablePoints inputs) :
    ¬ (tablesStore kept).Touches e.user n :=
  (h.apart_at e.user).resolve_left
    (fun hno => hno e.seq (.inl ⟨e.version, ⟨e, he, rfl⟩, rfl, rfl⟩)) n

theorem eq_of_user {q : Entry × Option Entry × Option FilterCall} (hp : p ∈ decided)
    (hq : q ∈ decided) (huser : p.1.user = q.1.user) : p = q := by
  have hnodup : (decided.map fun p => p.1.user).Nodup :=
    (pairwise_map.2 h.ascending).imp fun hlt => ne_of_lt hlt
  exact inj_on_of_nodup_map hnodup hp hq huser

theorem written_head (hp : p ∈ decided) {w : Entry} (hw : p.2.1 = some w) : w = p.1 := by
  have hd := h.decision p hp
  obtain ⟨e, out⟩ := p
  dsimp only at hd hw ⊢
  cases hd with
  | hidden _ => cases hw
  | @shown x keep _ _ _ _ =>
    cases keep with
    | false => cases hw
    | true => exact (Option.some.inj hw).symm
  | passed _ _ _ => exact (Option.some.inj hw).symm

theorem written_iff (hp : p ∈ decided) (hx : p.1.payload.bytesAt blobs now = some x) :
    p.2.1 = some p.1 ↔
      (¬ ∃ rt ∈ tableRangeDels inputs, rt.Covers p.1.user p.1.seq readSeq) ∧
        (p.1.seq ≤ safe → f p.1.user x.1 x.2 = .ok true) := by
  have hd := h.decision p hp
  obtain ⟨e, out⟩ := p
  dsimp only at hd hx ⊢
  cases hd with
  | hidden hhid =>
    refine ⟨nofun, fun hkeep => ?_⟩
    rw [hhid.resolve_left hkeep.1] at hx
    cases hx
  | @shown y keep hcov hy hsafe hf =>
    obtain rfl := Option.some.inj (hx.symm.trans hy)
    cases keep <;> simp [hcov, hsafe, hf]
  | passed hcov _ hlt => simp [hcov, Nat.not_le.2 hlt]

theorem mem_calls : (⟨k, x.1, x.2⟩ : FilterCall) ∈ calls ↔
    ∃ p ∈ decided, p.1.user = k ∧ p.1.seq ≤ safe ∧
      (¬ ∃ rt ∈ tableRangeDels inputs, rt.Covers p.1.user p.1.seq readSeq) ∧
        p.1.payload.bytesAt blobs now = some x := by
  rw [h.calls, mem_filterMap]
  refine exists_congr fun p => and_congr_right fun hp => ?_
  have hd := h.decision p hp
  obtain ⟨e, out⟩ := p
  dsimp only at hd ⊢
  cases hd with
  | hidden hhid =>
    refine ⟨nofun, fun ⟨_, _, hcov, hx⟩ => ?_⟩
    rw [hhid.resolve_left hcov] at hx
    cases hx
  | @shown y keep hcov hy hsafe hf =>
    rw [Option.some.injEq, FilterCall.mk.injEq, hy, Option.some.injEq, Prod.ext_iff]
    exact and_congr_right fun _ => ⟨fun hsame => ⟨hsafe, hcov, hsame⟩, fun hsame => hsame.2.2⟩
  | passed _ _ hlt => exact ⟨nofun, fun ⟨_, hle, _⟩ => absurd hle (Nat.not_le.2 hlt)⟩

theorem calls_keys : (calls.map (·.key)).Nodup := by
  have hkey : ∀ p ∈ decided, ∀ call ∈ p.2.2, call.key = p.1.user := by
    intro p hp call hcall
    have hd := h.decision p hp
    obtain ⟨e, out⟩ := p
    dsimp only at hd hcall ⊢
    cases hd with
    | hidden _ => cases hcall
    | shown _ _ _ _ => rw [← Option.some.inj hcall]
    | passed _ _ _ => cases hcall
  rw [h.calls, List.Nodup, pairwise_map]
  refine List.Pairwise.filterMap _ (fun _ _ hne call hcall call' hcall' => ?_)
    (h.ascending.imp_of_mem fun {p q} hp hq hlt => show ∀ call ∈ p.2.2, ∀ call' ∈ q.2.2,
      call.key ≠ call'.key from fun call hcall call' hcall' => ?_)
  · exact hne call hcall call' hcall'
  · rw [hkey p hp call hcall, hkey q hq call' hcall']
    exact ne_of_lt hlt

theorem touches_metas (hm : (tablesStore metas).Touches k n) :
    ∃ p ∈ decided, p.1.user = k ∧ p.1.seq = n ∧ p.2.1 = some p.1 := by
  rcases hm with ⟨_, ⟨e, he, rfl⟩, rfl, rfl⟩ | ⟨rt, hrt, _⟩
  · rw [h.points] at he
    obtain ⟨p, hp, hpe⟩ := mem_filterMap.1 he
    obtain rfl := h.written_head hp hpe
    exact ⟨p, hp, rfl, rfl, hpe⟩
  · change rt ∈ tableRangeDels metas at hrt
    rw [h.spans] at hrt
    cases hrt

theorem reads_inputs (hagree : (tablesStore inputs).AgreeFrom (Payload.bytesAt blobs) now) :
    (tablesStore inputs).Reads (Payload.bytesAt blobs) k readSeq now n x ↔
      ∃ p ∈ decided, p.1.user = k ∧ p.1.seq = n ∧
        (¬ ∃ rt ∈ tableRangeDels inputs, rt.Covers p.1.user p.1.seq readSeq) ∧
          p.1.payload.bytesAt blobs now = some x := by
  rw [Mvcc.Store.reads_iff]
  constructor
  · rintro ⟨hn, ⟨_, ⟨e, he, rfl⟩, rfl, rfl, hlive⟩, htop⟩
    obtain ⟨p, hp, huser, hle⟩ := h.newest e he
    have hhead : p.1.version ∈ (tablesStore inputs).versions := ⟨p.1, h.source p hp, rfl⟩
    have hge := htop _ (.inl ⟨p.1.version, hhead, huser, rfl⟩) (h.latest p.1 (h.source p hp))
    have hseq : p.1.seq = e.seq := le_antisymm hge hle
    refine ⟨p, hp, huser, hseq, ?_, ?_⟩
    · rintro ⟨rt, hrt, hcon, hlt, hle⟩
      rw [huser] at hcon
      rw [hseq] at hlt
      exact Nat.not_le.2 hlt (htop rt.seq (.inr ⟨rt, hrt, hcon, rfl⟩) hle)
    · rw [← hlive]
      exact hagree p.1.version hhead e.version ⟨e, he, rfl⟩ huser hseq now (le_refl _)
  · rintro ⟨p, hp, rfl, rfl, hunc, hlive⟩
    refine ⟨h.latest p.1 (h.source p hp),
      ⟨p.1.version, ⟨p.1, h.source p hp, rfl⟩, rfl, rfl, hlive⟩, fun m hm hmr => ?_⟩
    rcases hm with ⟨_, ⟨e, he, rfl⟩, hkey, rfl⟩ | ⟨rt, hrt, hcon, rfl⟩
    · obtain ⟨q, hq, hquser, hqseq⟩ := h.newest e he
      obtain rfl := h.eq_of_user hq hp (hquser.trans hkey)
      exact hqseq
    · exact Nat.le_of_not_lt fun hlt => hunc ⟨rt, hrt, hcon, hlt, hmr⟩

theorem reads_metas : (tablesStore metas).Reads (Payload.bytesAt blobs) k readSeq now n x ↔
    ∃ p ∈ decided, p.1.user = k ∧ p.1.seq = n ∧ p.2.1 = some p.1 ∧
      p.1.payload.bytesAt blobs now = some x := by
  rw [Mvcc.Store.reads_iff]
  constructor
  · rintro ⟨_, ⟨_, ⟨e, he, rfl⟩, rfl, rfl, hlive⟩, _⟩
    rw [h.points] at he
    obtain ⟨p, hp, hpe⟩ := mem_filterMap.1 he
    obtain rfl := h.written_head hp hpe
    exact ⟨p, hp, rfl, rfl, hpe, hlive⟩
  · rintro ⟨p, hp, rfl, rfl, hw, hlive⟩
    refine ⟨h.latest p.1 (h.source p hp), ⟨p.1.version, ⟨p.1, ?_, rfl⟩, rfl, rfl, hlive⟩,
      fun m hm _ => ?_⟩
    · rw [h.points]
      exact mem_filterMap.2 ⟨p, hp, hw⟩
    · obtain ⟨q, hq, huser, rfl, _⟩ := h.touches_metas hm
      rw [h.eq_of_user hq hp huser]

theorem reads_before : (tablesStore (inputs ++ kept)).Reads
    (Payload.bytesAt blobs) k readSeq now n x ↔
    (tablesStore inputs).Reads (Payload.bytesAt blobs) k readSeq now n x ∨
      (tablesStore kept).Reads (Payload.bytesAt blobs) k readSeq now n x := by
  rw [tablesStore_append]
  exact Mvcc.Store.reads_union_of_apart (h.apart_at k)

theorem reads_after : (tablesStore (kept ++ metas)).Reads
    (Payload.bytesAt blobs) k readSeq now n x ↔
    (tablesStore kept).Reads (Payload.bytesAt blobs) k readSeq now n x ∨
      (tablesStore metas).Reads (Payload.bytesAt blobs) k readSeq now n x := by
  rw [tablesStore_append]
  refine Mvcc.Store.reads_union_of_apart ((h.apart_at k).symm.imp_right fun hno m hm => ?_)
  obtain ⟨p, hp, rfl, rfl, _⟩ := h.touches_metas hm
  exact hno _ (.inl ⟨p.1.version, ⟨p.1, h.source p hp, rfl⟩, rfl, rfl⟩)

theorem filters_once_iff
    (hagree : (tablesStore (inputs ++ kept)).AgreeFrom (Payload.bytesAt blobs) now) :
    (PresentsOnce (tablesStore (inputs ++ kept)) blobs readSeq safe now calls ∧
        KeepsJudged f (tablesStore (inputs ++ kept)) blobs (tablesStore (kept ++ metas)) blobs
          readSeq safe now) ↔
      ∀ k n x, (tablesStore (inputs ++ kept)).Reads (Payload.bytesAt blobs) k readSeq now n x →
        n ≤ safe → ∃ e ∈ tablePoints inputs, e.user = k ∧ e.seq = n := by
  rw [tablesStore_append] at hagree
  have hinputs {k n x} := h.reads_inputs (k := k) (n := n) (x := x)
    fun v hv u hu => hagree v (.inl hv) u (.inl hu)
  constructor
  · rintro ⟨⟨_, hshown⟩, _⟩ k n x hread hn
    obtain ⟨p, hp, rfl, _⟩ := h.mem_calls.1 ((hshown k x).2 ⟨n, hn, hread⟩)
    rcases h.reads_before.1 hread with hread | hread
    · obtain ⟨q, hq, huser, hseq, _⟩ := hinputs.1 hread
      exact ⟨q.1, h.source q hq, huser, hseq⟩
    · exact absurd hread.touches (h.not_kept (h.source p hp))
  · intro hcond
    have hkept : ∀ {k n x}, (tablesStore kept).Reads (Payload.bytesAt blobs) k readSeq now n x →
        ¬ n ≤ safe := by
      intro k n x hread hn
      obtain ⟨e, he, rfl, rfl⟩ := hcond k n x (h.reads_before.2 (.inr hread)) hn
      exact h.not_kept he hread.touches
    refine ⟨⟨h.calls_keys, fun k x => ?_⟩, fun k x => ?_⟩
    · rw [h.mem_calls]
      constructor
      · rintro ⟨p, hp, rfl, hsafe, hlive⟩
        exact ⟨p.1.seq, hsafe, h.reads_before.2 (.inl (hinputs.2 ⟨p, hp, rfl, rfl, hlive⟩))⟩
      · rintro ⟨n, hn, hread⟩
        obtain ⟨p, hp, huser, rfl, hlive⟩ :=
          hinputs.1 ((h.reads_before.1 hread).resolve_right fun hread => hkept hread hn)
        exact ⟨p, hp, huser, hn, hlive⟩
    · rw [Mvcc.Store.sees_iff_reads]
      refine exists_congr fun n => ?_
      rw [h.reads_after, h.reads_before, h.reads_metas, hinputs]
      constructor
      · rintro (hread | ⟨p, hp, rfl, rfl, hw, hx⟩)
        · exact ⟨.inr hread, fun hn => absurd hn (hkept hread)⟩
        · obtain ⟨hcov, hkeep⟩ := (h.written_iff hp hx).1 hw
          exact ⟨.inl ⟨p, hp, rfl, rfl, hcov, hx⟩, hkeep⟩
      · rintro ⟨⟨p, hp, rfl, rfl, hcov, hx⟩ | hread, hkeep⟩
        · exact .inr ⟨p, hp, rfl, rfl, (h.written_iff hp hx).2 ⟨hcov, hkeep⟩, hx⟩
        · exact .inl hread

end

end FilteredMerge

section Last

variable {fmt : TableFormat} {f : CompactionFilter} {s s' : Engine} {cc : CompactionConfig}
  {readSeq safe : Nat} {now : Time} {calls : List FilterCall}

theorem planCompact_final_filter (hfilter : cc.filter = some f) {tables : List TableMeta}
    (h : planCompact tables (maxDepthOf tables) cc.final = none) : tables = [] := by
  by_contra hne
  obtain ⟨t, ht, hdepth⟩ := exists_deepest hne
  have hpos : 0 < (tierTables tables (maxDepthOf tables)).length :=
    length_pos_of_mem (mem_filter.2 ⟨ht, by simpa using hdepth⟩)
  have hwhole : wholeTierMerge tables (maxDepthOf tables) cc.final = true := by
    simp [wholeTierMerge, resolveOutDepth, CompactionConfig.final]
  have hworth : worthCompacting (tierTables tables (maxDepthOf tables)).length
      (cc.final.rewriteSingle && wholeTierMerge tables (maxDepthOf tables) cc.final)
      (hasRewriteReason cc.final (tierTables tables (maxDepthOf tables))) = true := by
    rw [hwhole, worthCompacting, if_neg (by omega)]
    split_ifs
    · rfl
    · simp [CompactionConfig.final, hasRewriteReason, hfilter]
  unfold planCompact at h
  dsimp only at h
  rw [hworth, hwhole] at h
  simp at h

theorem compact_final_filtered (hs : s.Housed readSeq) (hblobs : s.BlobsPresent)
    (hfilter : cc.filter = some f) (hthrough : cc.filterThrough = safe) (hsafe : safe ≠ 0)
    (hcut : cc.expiry now = now)
    (h : compact fmt s (maxDepthOf s.tables) readSeq cc.final now = .ok s')
    (hcalls : compactCalls s (maxDepthOf s.tables) readSeq cc.final now = .ok calls) :
    ∃ metas decided,
      s'.tables = keptTables s.tables (wholeTierInputs s.tables (maxDepthOf s.tables)) ++ metas ∧
      s'.memtables = s.memtables ∧ s'.blobs = s.blobs ∧
      FilteredMerge f safe readSeq now s.blobs (wholeTierInputs s.tables (maxDepthOf s.tables))
        (keptTables s.tables (wholeTierInputs s.tables (maxDepthOf s.tables))) metas calls
        decided := by
  cases hplan : planCompact s.tables (maxDepthOf s.tables) cc.final with
  | none =>
    have hnil := planCompact_final_filter hfilter hplan
    rw [compact, hplan] at h
    cases h
    rw [compactCalls, hplan] at hcalls
    cases hcalls
    refine ⟨[], [], ?_, rfl, rfl, ?_⟩
    · simp [hnil, keptTables]
    · have hinputs : wholeTierInputs s.tables (maxDepthOf s.tables) = [] := by
        rw [hnil]
        rfl
      rw [hinputs]
      exact ⟨by simp, by simp, by simp [hnil, keptTables], by simp [tablePoints],
        List.Pairwise.nil, by simp, by simp [tablePoints], by simp, rfl, rfl, rfl⟩
  | some p =>
    obtain ⟨metas, alloc, hrun, rfl⟩ := compact_of_plan hplan h
    have hsub := planCompact_subset hplan
    obtain rfl := planCompact_final hplan
    set inputs := wholeTierInputs s.tables (maxDepthOf s.tables) with hinputs
    set mw : MergeWrite := CompactionPlan.mergeWrite ⟨inputs, maxDepthOf s.tables, true, none⟩
      readSeq cc.final now (tableRangeDels inputs) with hmw
    have hexpiry : mw.expiry = now := hcut
    rw [compactCalls, hplan] at hcalls
    obtain ⟨rts, hrts, hcalls⟩ := bind_eq_ok.1 hcalls
    obtain rfl := collectInputRangeDels_eq_ok hrts
    obtain ⟨⟨ws, calls'⟩, hlog, hcalls⟩ := bind_eq_ok.1 hcalls
    obtain rfl := Except.ok.inj hcalls
    obtain ⟨hread, hcol, hspans, _⟩ := runCompaction_merged hrun
    obtain ⟨hsorted, hperm⟩ := merge_newIterator hread
    set es := (KMerge.merge IKeyOrder (inputs.map (·.reader.newIterator))).1 with hes
    change collapseLogged (resolveBlob s) mw ⟨none, false⟩ es = .ok (ws, calls') at hlog
    change collapse (resolveBlob s) mw ⟨none, false⟩ es = .ok (tablePoints metas) at hcol
    obtain rfl : ws = tablePoints metas := by
      rw [← collapseLogged_fst, hlog] at hcol
      exact Except.ok.inj hcol
    have hpts : ∀ e ∈ tablePoints inputs, e.seq ≤ readSeq := by
      intro e he
      obtain ⟨t, ht, het⟩ := mem_tablePoints.1 he
      exact (hs.points e (mem_append_right _ (mem_tablePoints.2 ⟨t, hsub t ht, het⟩))).2
    have hseq : ∀ e ∈ es, e.seq ≤ mw.retainSeq := fun e he => hpts e (hperm.mem_iff.1 he)
    obtain ⟨decided, hheads, hall, hws, hcs⟩ := collapseLogged_latest hsorted hseq (by simp) hlog
    change decided.map (·.1) = heads none es at hheads
    have hasc : (heads none es).Pairwise fun a b => a.user < b.user :=
      (heads_ascending hsorted (by simp)).1
    have hmem : ∀ p ∈ decided, p.1 ∈ es := fun p hp =>
      (heads_sublist none es).subset (hheads ▸ mem_map.2 ⟨p, hp, rfl⟩)
    refine ⟨metas, decided, rfl, rfl, rfl, ?_⟩
    refine ⟨?_, fun t ht => hs.bounded t (hsub t ht),
      fun t ht => hs.bounded t (mem_keptTables.1 ht).1, hpts, ?_,
      fun p hp => hperm.mem_iff.1 (hmem p hp), ?_, ?_, hws, ?_, hcs⟩
    · intro t ht u hu k htk
      obtain ⟨hlive, hnum⟩ := mem_keptTables.1 hu
      exact wholeTierInputs_outside ht htk hlive fun hin => hnum u hin rfl
    · rw [← hheads, pairwise_map] at hasc
      exact hasc
    · intro e he
      obtain ⟨x, hx, huser, hle⟩ :=
        exists_head hsorted (hperm.mem_iff.2 he) (by simp : (none : Option Key) ≠ some e.user)
      rw [← hheads] at hx
      obtain ⟨p, hp, rfl⟩ := mem_map.1 hx
      exact ⟨p, hp, huser, hle⟩
    · intro p hp
      obtain ⟨t, ht, hpt⟩ := mem_tablePoints.1 (hperm.mem_iff.1 (hmem p hp))
      have hf : mw.cc.filter = some f := hfilter
      have hd := decideLogged_decision hf hthrough hsafe rfl (hseq p.1 (hmem p hp))
        (fun ptr => hblobs t (hsub t ht) p.1 hpt ptr) (hall p hp)
      rw [hexpiry, lt_maxCoveringRangeDelSeqLE_iff] at hd
      exact hd
    · rw [hspans]
      change rangeDelsToPersist (tableRangeDels inputs) true readSeq = []
      rw [rangeDelsToPersist, if_neg (by simp), filter_eq_nil_iff]
      intro rt hrt
      obtain ⟨t, ht, hrtt⟩ := mem_tableRangeDels.1 hrt
      have := hs.rangeDels rt
        (mem_append_right _ (mem_tableRangeDels.2 ⟨t, hsub t ht, hrtt⟩))
      simpa using this

end Last

/-- Every stored value can be read and copies of one mutation mean the same. -/
structure Engine.Meaningful (now : Time) (s : Engine) : Prop where
  memKinds : ∀ m ∈ s.memtables, ∀ e ∈ m.points, e.kind ≠ .blobRef
  blobsPresent : s.BlobsPresent
  agree : s.store.AgreeFrom (Payload.bytesAt s.blobs) now

structure Engine.Drained (s : Engine) : Prop where
  points : memPoints s.memtables = []
  rangeDels : memRangeDels s.memtables = []

/-- Every read at the latest sequence finds the same version. -/
def SameReads (readSeq : Nat) (now : Time) (s s' : Engine) : Prop :=
  ∀ k n x, s'.store.Reads (Payload.bytesAt s'.blobs) k readSeq now n x ↔
    s.store.Reads (Payload.bytesAt s.blobs) k readSeq now n x

section Before

variable {fmt : TableFormat} {s s' : Engine} {readSeq : Nat} {now : Time}

theorem bytesAt_extend {blobs blobs' : List (Nat × Bytes)} (hext : BlobsExtend blobs blobs')
    {e : Entry} (he : e.BlobPresent blobs) (t : Time) :
    e.payload.bytesAt blobs' t = e.payload.bytesAt blobs t := by
  by_cases hkind : e.kind = .blobRef
  · unfold Payload.bytesAt Payload.liveAt Entry.payload
    simp only [hkind]
    cases hdec : decodeBlobPointer e.value with
    | error err => rfl
    | ok ptr =>
      obtain ⟨value, hvalue⟩ := he ptr hkind hdec
      dsimp only
      split_ifs
      · rfl
      · simp [liveReference, hvalue, hext.blobBytes hvalue]
  · exact bytesAt_congr_blobs hkind t

section

variable (hm : s.Meaningful now)
include hm

theorem Engine.Meaningful.present {e : Entry} (he : e ∈ s.entries) :
    e.BlobPresent s.blobs := by
  rcases mem_append.1 he with he | he
  · obtain ⟨m, hmem, hem⟩ := mem_memPoints.1 he
    exact fun ptr hkind => absurd hkind (hm.memKinds m hmem e hem)
  · obtain ⟨t, ht, het⟩ := mem_tablePoints.1 he
    exact hm.blobsPresent t ht e het

theorem sameReads_of_images (hext : BlobsExtend s.blobs s'.blobs)
    (hto : Mvcc.Store.Image (Payload.bytesAt s'.blobs) now s.store s'.store)
    (hback : Mvcc.Store.Image (Payload.bytesAt s'.blobs) now s'.store s.store) :
    s'.store.AgreeFrom (Payload.bytesAt s'.blobs) now ∧ SameReads readSeq now s s' := by
  have hbytes : ∀ v ∈ s.store.versions, ∀ t,
      v.payload.bytesAt s'.blobs t = v.payload.bytesAt s.blobs t := by
    rintro _ ⟨e, he, rfl⟩ t
    exact bytesAt_extend hext (hm.present he) t
  refine ⟨hto.agreeFrom fun v hv u hu hk hseq t ht => ?_, fun k n x => ?_⟩
  · rw [hbytes v hv, hbytes u hu]
    exact hm.agree v hv u hu hk hseq t ht
  · have hsame : s.store.Reads (Payload.bytesAt s'.blobs) k readSeq now n x ↔
        s.store.Reads (Payload.bytesAt s.blobs) k readSeq now n x := by
      rw [Mvcc.Store.reads_iff, Mvcc.Store.reads_iff]
      refine and_congr_right fun _ => and_congr_left fun _ => exists_congr fun v => ?_
      refine and_congr_right fun hv => ?_
      rw [hbytes v hv]
    rw [← hsame]
    exact ⟨hto.reads hback (le_refl now), hback.reads hto (le_refl now)⟩

theorem Engine.Meaningful.rotate :
    s.rotate.1.Meaningful now ∧ s.rotate.1.store = s.store := by
  have hstore : s.rotate.1.store = s.store := by
    rw [Engine.store, s.rotate_entries.1, s.rotate_entries.2]
    rfl
  obtain ⟨_, _, htables, hblobs⟩ := s.rotate_rest
  refine ⟨⟨fun m hmem => ?_, ?_, ?_⟩, hstore⟩
  · rcases s.rotate_memtables with h | h <;> rw [h] at hmem
    · exact hm.memKinds m hmem
    · rcases mem_cons.1 hmem with rfl | hmem
      · exact fun e he => absurd he not_mem_nil
      · exact hm.memKinds m hmem
  · unfold Engine.BlobsPresent
    rw [htables, hblobs]
    exact hm.blobsPresent
  · rw [hstore, hblobs]
    exact hm.agree

theorem Engine.Meaningful.install {imm : Memtable}
    (himm : s.imm = some imm) {out : FlushOutput} (hout : out.Stores s imm) :
    ((s.created out).installFlush out.table).Meaningful now ∧
      SameReads readSeq now s ((s.created out).installFlush out.table) := by
  set s₁ := (s.created out).installFlush out.table with hs₁
  have himem : imm ∈ s.memtables := by simp [Engine.memtables, himm]
  have hext : BlobsExtend s.blobs s₁.blobs := blobsExtend_append out.blobs
  have hto : Mvcc.Store.Image (Payload.bytesAt s₁.blobs) now s.store s₁.store := by
    refine ⟨?_, fun rt => (hout.mem_rangeDels himm).1⟩
    rintro _ ⟨e, he, rfl⟩
    rcases Engine.mem_entries_installed.1 he with he | he
    · exact ⟨e.version, ⟨e, (Engine.mem_entries_sealed himm).2 (Or.inl he), rfl⟩, rfl, rfl,
        fun _ _ => rfl⟩
    · obtain ⟨p, hp, hstored⟩ := hout.source he
      exact ⟨p.version, ⟨p, (Engine.mem_entries_sealed himm).2 (Or.inr hp), rfl⟩,
        hstored.user.symm, hstored.seq.symm, fun t _ => hstored.bytesAt t⟩
  have hback : Mvcc.Store.Image (Payload.bytesAt s₁.blobs) now s₁.store s.store := by
    refine ⟨?_, fun rt => (hout.mem_rangeDels himm).2⟩
    rintro _ ⟨e, he, rfl⟩
    rcases (Engine.mem_entries_sealed himm).1 he with he | he
    · exact ⟨e.version, ⟨e, Engine.mem_entries_installed.2 (Or.inl he), rfl⟩, rfl, rfl,
        fun _ _ => rfl⟩
    · obtain ⟨e', he', hstored⟩ := hout.copy he
      exact ⟨e'.version, ⟨e', Engine.mem_entries_installed.2 (Or.inr he'), rfl⟩, hstored.user,
        hstored.seq, fun t _ => (hstored.bytesAt t).symm⟩
  obtain ⟨hagree, hsame⟩ : s₁.store.AgreeFrom (Payload.bytesAt s₁.blobs) now ∧
      SameReads readSeq now s s₁ := sameReads_of_images hm hext hto hback
  refine ⟨⟨fun m hm' => hm.memKinds m (Engine.mem_memtables_installed himm hm'), ?_, hagree⟩, hsame⟩
  intro t ht e he ptr hkind hdec
  rcases mem_append.1 ht with ht | ht
  · obtain ⟨value, hvalue⟩ := hm.blobsPresent t ht e he ptr hkind hdec
    exact ⟨value, hext.blobBytes hvalue⟩
  · obtain rfl := mem_singleton.1 ht
    obtain ⟨p, hp, hstored⟩ := hout.source he
    cases hstored with
    | inline => exact absurd hkind (hm.memKinds imm himem e hp)
    | @separated ptr' raw _ hbytes =>
      rw [decodeBlobPointer_encode] at hdec
      cases hdec
      exact ⟨raw, hbytes⟩

end

theorem Engine.Meaningful.flush (hs : s.Housed readSeq) (hm : s.Meaningful now)
    (h : s.flush fmt = .ok s') : s'.Meaningful now ∧ SameReads readSeq now s s' := by
  obtain ⟨hrot, hstore⟩ := hm.rotate
  have hblobs := s.rotate_rest.2.2.2
  rcases Engine.flush_cases h with rfl | ⟨imm, out, himm, hout, rfl⟩
  · refine ⟨hrot, fun k n x => ?_⟩
    rw [hstore, hblobs]
  · obtain ⟨hinst, hsame⟩ := hrot.install himm (hs.rotate.stores himm hout)
    refine ⟨hinst, fun k n x => ?_⟩
    rw [hsame k n x, hstore, hblobs]

theorem Engine.Drained.store (h : s.Drained) : s.store = tablesStore s.tables := by
  rw [Engine.store, Engine.entries, Engine.rangeDels, h.points, h.rangeDels]
  rfl

theorem compact_sameReads (hs : s.Housed readSeq) (hd : s.Drained) (hm : s.Meaningful now)
    {cc : CompactionConfig} (hfilter : cc.filter = none) (hcut : cc.expiry now = now) {depth : Nat}
    (h : compact fmt s depth readSeq cc now = .ok s') :
    s'.Drained ∧ s'.Meaningful now ∧ SameReads readSeq now s s' := by
  cases hplan : planCompact s.tables depth cc with
  | none =>
    rw [compact, hplan] at h
    cases h
    exact ⟨⟨hd.points, hd.rangeDels⟩, ⟨hm.memKinds, hm.blobsPresent, hm.agree⟩, fun _ _ _ =>
      Iff.rfl⟩
  | some p =>
    obtain ⟨metas, alloc, hrun, rfl⟩ := compact_of_plan hplan h
    have hsep := planCompact_separated hs.uniqueNums hplan
    have hstore := s.store_eq_union hs.uniqueNums hsep.subset
    have hagree := hm.agree
    rw [hstore] at hagree
    have hc := runCompaction_isCollapse (readsThrough_bytesAt s.blobs) hfilter (le_of_eq hcut)
      (fun v hv u hu => hagree v (Or.inl hv) u (Or.inl hu)) hrun
    have hrest : s.restStore p.inputs = tablesStore (keptTables s.tables p.inputs) := by
      rw [Engine.restStore, hd.points, hd.rangeDels]
      rfl
    have hafter := commitCompaction_store s p.inputs metas alloc
    have hnewer := hsep.kept_newer hs.bounded
    rw [← hrest] at hnewer
    refine ⟨⟨hd.points, hd.rangeDels⟩, ⟨hm.memKinds, ?_, ?_⟩, fun k n x => ?_⟩
    · intro t ht e he ptr hkind hdec
      rcases mem_append.1 ht with ht | ht
      · exact hm.blobsPresent t (mem_keptTables.1 ht).1 e he ptr hkind hdec
      · obtain ⟨es, _, hperm, hcol, _, _⟩ := runCompaction_eq_ok hrun
        obtain ⟨q, hq, hwritten⟩ := mem_collapse hcol (mem_tablePoints.2 ⟨t, ht, he⟩)
        rcases resolveCompactionEntry_form hwritten.resolved with rfl | rfl
        · obtain ⟨u, hu, hqu⟩ := mem_tablePoints.1 (hperm.mem_iff.1 hq)
          exact hm.blobsPresent u (hsep.subset u hu) e hqu ptr hkind hdec
        · cases hkind
    · rw [hafter]
      exact hc.agreeFrom hagree
    · change (commitCompaction s p.inputs metas alloc).store.Reads
        (Payload.bytesAt s.blobs) _ _ _ _ _
        ↔ _
      rw [hafter, hstore]
      exact (hc.reads_iff hagree hnewer (Nat.le_refl _) (le_refl _)).symm

theorem relocate_sameReads (hs : s.Housed readSeq) (hd : s.Drained) (hm : s.Meaningful now)
    {cc : CompactionConfig} (hcut : cc.expiry now = now) {depths : List Nat}
    (h : relocate fmt readSeq cc now depths s = .ok s') :
    s'.Drained ∧ s'.Meaningful now ∧ SameReads readSeq now s s' := by
  induction depths generalizing s with
  | nil =>
    cases h
    exact ⟨hd, hm, fun _ _ _ => Iff.rfl⟩
  | cons depth depths ih =>
    obtain ⟨s₁, hhop, h⟩ := bind_eq_ok.1 h
    have hcut' : ({ cc with filter := none } : CompactionConfig).expiry now = now := hcut
    obtain ⟨hd₁, hm₁, hsame⟩ := compact_sameReads hs hd hm rfl hcut' hhop
    obtain ⟨hd', hm', hsame'⟩ := ih (hs.compact hhop) hd₁ hm₁ h
    exact ⟨hd', hm', fun k n x => (hsame' k n x).trans (hsame k n x)⟩

theorem Engine.flush_memtables (hrec : s.recoveryMems = []) (h : s.flush fmt = .ok s') :
    s'.recoveryMems = [] ∧ s'.imm = none ∧
      ((s.imm = none ∧ s'.mem.empty = true) ∨ (s.imm.isSome = true ∧ s'.mem = s.mem)) := by
  have hrot : s.rotate.1.recoveryMems = [] ∧
      ((s.imm = none ∧ s.rotate.1.mem.empty = true) ∨
        (s.imm.isSome = true ∧ s.rotate.1.mem = s.mem)) := by
    unfold Engine.rotate
    split_ifs with hkeep
    · refine ⟨hrec, ?_⟩
      cases himm : s.imm with
      | none => exact Or.inl ⟨rfl, hkeep.resolve_left (by simp [himm])⟩
      | some imm => exact Or.inr ⟨rfl, rfl⟩
    · refine ⟨hrec, Or.inl ⟨?_, rfl⟩⟩
      cases himm : s.imm with
      | none => rfl
      | some imm => exact absurd (Or.inl (by simp [himm])) hkeep
  have hsealed := s.rotate_sealed
  unfold Engine.flush at h
  generalize s.rotate = r at h hrot hsealed
  obtain ⟨s₁, sealed⟩ := r
  cases sealed with
  | false =>
    cases h
    refine ⟨hrot.1, ?_, hrot.2⟩
    simpa using hsealed
  | true =>
    obtain ⟨out, _, h⟩ := bind_eq_ok.1 h
    cases h
    exact ⟨hrot.1, rfl, hrot.2⟩

theorem Engine.Drained.flush (hd : s.Drained) (h : s.flush fmt = .ok s') : s'.Drained := by
  have hrot := s.rotate_contents
  rw [hd.points, hd.rangeDels] at hrot
  rcases Engine.flush_cases h with rfl | ⟨imm, out, himm, _, rfl⟩
  · exact ⟨hrot.1, hrot.2⟩
  · have hsub : ((s.rotate.1.created out).installFlush out.table).memtables.Sublist
        s.rotate.1.memtables := by
      change (s.rotate.1.mem :: ([] ++ s.rotate.1.recoveryMems)).Sublist
        (s.rotate.1.mem :: (s.rotate.1.imm.toList ++ s.rotate.1.recoveryMems))
      exact (List.Sublist.append_right (nil_sublist _) _).cons_cons _
    refine ⟨sublist_nil.1 ?_, sublist_nil.1 ?_⟩
    · rw [← hrot.1]
      exact hsub.flatMap _
    · rw [← hrot.2]
      exact hsub.flatMap _

/-- The states a filtering manual compaction starts from: everything up to the safe
sequence has left the memtables. -/
structure Engine.Filterable (readSeq safe : Nat) (now : Time) (s : Engine) : Prop where
  housed : s.Housed readSeq
  meaningful : s.Meaningful now
  writable : s.recoveryMems = []
  retiredPoints : ∀ e ∈ memPoints s.memtables, safe < e.seq
  retiredSpans : ∀ rt ∈ memRangeDels s.memtables, safe < rt.seq

theorem prepareCompactionFilter_eq_ok {safe safe' : Nat} (hs : s.Filterable readSeq safe now)
    (h : prepareCompactionFilter fmt s readSeq safe = .ok (s', safe')) :
    safe' = max readSeq safe ∧ s'.Housed readSeq ∧ s'.Meaningful now ∧ s'.Drained ∧
      SameReads readSeq now s s' ∧ ∀ {sinks : Nat → Prop} {P : Entry → Prop}
        {R : RangeTombstone → Prop}, Persists now P → s.Places sinks P R → s.Lands sinks P R s' :=
        by
  unfold prepareCompactionFilter at h
  by_cases hsafe : readSeq ≤ safe
  · rw [if_pos hsafe] at h
    cases h
    refine ⟨by omega, hs.housed, hs.meaningful, ⟨?_, ?_⟩, fun _ _ _ => Iff.rfl,
      fun _ hplaces => hplaces.lands⟩
    · refine eq_nil_iff_forall_not_mem.2 fun e he => ?_
      have := hs.retiredPoints e he
      have := (hs.housed.points e (mem_append_left _ he)).2
      omega
    · refine eq_nil_iff_forall_not_mem.2 fun rt hrt => ?_
      have := hs.retiredSpans rt hrt
      have := hs.housed.rangeDels rt (mem_append_left _ hrt)
      omega
  · rw [if_neg hsafe] at h
    unfold allocNext at h
    by_cases hmax : s.alloc = 2 ^ 32 - 1
    · rw [if_pos hmax] at h
      cases h
    rw [if_neg hmax] at h
    obtain ⟨s₁, hfirst, h⟩ := bind_eq_ok.1 h
    obtain ⟨s₂, hsecond, h⟩ := bind_eq_ok.1 h
    obtain ⟨rfl, rfl⟩ := Prod.mk.inj (Except.ok.inj h)
    have hh := hs.housed
    have hroom := hh.room
    have hh₀ : ({ s with alloc := s.alloc + 1 } : Engine).Housed readSeq :=
      ⟨hh.bounded, hh.uniqueNums, fun t ht => Nat.le_succ_of_le (hh.tableNums t ht),
        fun b hb => Nat.le_succ_of_le (hh.blobNums b hb),
        by show s.alloc + 1 ≤ 2 ^ 32 - 1; omega,
        hh.blobFileSize, hh.values, hh.points, hh.rangeDels⟩
    have hm₀ : ({ s with alloc := s.alloc + 1 } : Engine).Meaningful now :=
      ⟨hs.meaningful.memKinds, hs.meaningful.blobsPresent, hs.meaningful.agree⟩
    obtain ⟨hm₁, hsame₁⟩ := hm₀.flush hh₀ hfirst
    obtain ⟨hm₂, hsame₂⟩ := hm₁.flush (hh₀.flush hfirst) hsecond
    have hrec : ({ s with alloc := s.alloc + 1 } : Engine).recoveryMems = [] := hs.writable
    obtain ⟨hrec₁, himm₁, _⟩ := Engine.flush_memtables hrec hfirst
    obtain ⟨hrec₂, himm₂, hmem⟩ := Engine.flush_memtables hrec₁ hsecond
    have hempty : s₂.mem.empty = true := by
      rcases hmem with ⟨_, hempty⟩ | ⟨hsome, _⟩
      · exact hempty
      · rw [himm₁] at hsome
        cases hsome
    simp only [Memtable.empty, Bool.and_eq_true, List.isEmpty_iff] at hempty
    refine ⟨by omega, (hh₀.flush hfirst).flush hsecond, hm₂, ⟨?_, ?_⟩, fun k n x => ?_,
      fun {sinks P R} hP hplaces => ?_⟩
    · simp [Engine.memtables, himm₂, hrec₂, memPoints, hempty.1]
    · simp [Engine.memtables, himm₂, hrec₂, memRangeDels, hempty.2]
    · exact (hsame₂ k n x).trans (hsame₁ k n x)
    · have hlands : s.Lands sinks P R { s with alloc := s.alloc + 1 } := by
        refine ⟨hplaces.lands.cascade, hplaces.memtables, fun hidle => ?_⟩
        rw [← hidle]
        unfold Engine.rotate
        split_ifs <;> rfl
      exact (hlands.flush hh₀ hP hfirst).flush (hh₀.flush hfirst) hP hsecond

end Before

section Calls

variable {fmt : TableFormat} {s s' : Engine} {retain : Nat} {cc : CompactionConfig} {now : Time}

theorem exists_compactCalls {depth : Nat} (h : compact fmt s depth retain cc now = .ok s') :
    ∃ calls, compactCalls s depth retain cc now = .ok calls := by
  cases hplan : planCompact s.tables depth cc with
  | none => exact ⟨[], by rw [compactCalls, hplan]⟩
  | some p =>
    obtain ⟨metas, alloc, hrun, _⟩ := compact_of_plan hplan h
    obtain ⟨rts, hrts, _⟩ := bind_eq_ok.1 hrun
    obtain ⟨_, hcol, _, _⟩ := runCompaction_merged hrun
    rw [← collectInputRangeDels_eq_ok hrts] at hcol
    obtain ⟨calls, hlog⟩ := collapse_logged hcol
    refine ⟨calls, ?_⟩
    rw [compactCalls, hplan]
    exact bind_eq_ok.2 ⟨rts, hrts, bind_eq_ok.2 ⟨_, hlog, rfl⟩⟩

theorem exists_relocateCalls {depths : List Nat}
    (h : relocate fmt retain cc now depths s = .ok s') :
    relocateCalls fmt retain cc now depths s = .ok [] := by
  have hsome : ∃ calls, relocateCalls fmt retain cc now depths s = .ok calls := by
    induction depths generalizing s with
    | nil => exact ⟨[], rfl⟩
    | cons depth depths ih =>
      obtain ⟨s₁, hhop, h⟩ := bind_eq_ok.1 h
      obtain ⟨calls, hcalls⟩ := exists_compactCalls hhop
      obtain ⟨rest, hrest⟩ := ih h
      exact ⟨calls ++ rest, bind_eq_ok.2 ⟨calls, hcalls,
        bind_eq_ok.2 ⟨s₁, hhop, bind_eq_ok.2 ⟨rest, hrest, rfl⟩⟩⟩⟩
  obtain ⟨calls, hcalls⟩ := hsome
  rw [hcalls, relocateCalls_nil hcalls]

end Calls

section Range

variable {fmt : TableFormat} {o : Options} {f : CompactionFilter} {s s' : Engine}
  {readSeq safe : Nat} {now : Time}

/-- The filter sees every live value once and what it keeps stays visible. -/
def FiltersOnce (f : CompactionFilter) (s s' : Engine) (readSeq safe : Nat) (now : Time)
    (calls : List FilterCall) : Prop :=
  PresentsOnce s.store s.blobs readSeq safe now calls ∧
    KeepsJudged f s.store s.blobs s'.store s'.blobs readSeq safe now

theorem filters_congr {S : Engine} (hsame : SameReads readSeq now s S)
    {calls : List FilterCall} :
    FiltersOnce f S s' readSeq safe now calls ↔ FiltersOnce f s s' readSeq safe now calls := by
  simp only [FiltersOnce, PresentsOnce, KeepsJudged, hsame _ _ _]

theorem Engine.Housed.no_reads (hs : s.Housed 0) {k : Key} {n : Nat} {x : Bytes × Time} :
    ¬ s.store.Reads (Payload.bytesAt s.blobs) k 0 now n x := by
  rintro ⟨_, ⟨⟨e, he, rfl⟩, _, _⟩, _⟩
  have := hs.points e he
  omega

theorem filters_once_of_last (hs : s.Housed readSeq) (hd : s.Drained) (hm : s.Meaningful now)
    {cc : CompactionConfig}
    (hcc : cc = o.runConfig (manualRunConfig (some f) readSeq (max readSeq safe) now))
    (h : compact fmt s (maxDepthOf s.tables) readSeq cc.final now = .ok s')
    {calls : List FilterCall}
    (hcalls : compactCalls s (maxDepthOf s.tables) readSeq cc.final now = .ok calls) :
    FiltersOnce f s s' readSeq (max readSeq safe) now calls ↔
      ∀ k n x, s.store.Reads (Payload.bytesAt s.blobs) k readSeq now n x →
        ∃ e ∈ tablePoints (wholeTierInputs s.tables (maxDepthOf s.tables)),
          e.user = k ∧ e.seq = n := by
  by_cases hzero : max readSeq safe = 0
  · -- Nothing has been written yet: the filter is not even attached.
    obtain rfl : readSeq = 0 := by omega
    have hfilter : cc.final.filter = none := by
      rw [hcc, manualRunConfig, if_pos hzero]
      rfl
    obtain rfl := compactCalls_no_filter hfilter hcalls
    refine ⟨fun _ k n x hread => absurd hread hs.no_reads, fun _ => ⟨⟨nodup_nil, ?_⟩, ?_⟩⟩
    · intro k x
      constructor
      · intro hmem
        cases hmem
      · rintro ⟨n, _, hread⟩
        exact absurd hread hs.no_reads
    · intro k x
      rw [Mvcc.Store.sees_iff_reads]
      constructor
      · rintro ⟨n, hread⟩
        exact absurd hread (hs.compact h).no_reads
      · rintro ⟨n, hread, _⟩
        exact absurd hread hs.no_reads
  have hfilter : cc.filter = some f := by
    rw [hcc, manualRunConfig, if_neg hzero]
    rfl
  have hthrough : cc.filterThrough = max readSeq safe := by
    rw [hcc, manualRunConfig, if_neg hzero]
    rfl
  obtain ⟨metas, decided, htables, hmems, hblobs, hmerge⟩ :=
    compact_final_filtered hs hm.blobsPresent hfilter hthrough hzero
      (hcc ▸ runConfig_expiry (some f)) h hcalls
  set inputs := wholeTierInputs s.tables (maxDepthOf s.tables) with hinputs
  have hsub : ∀ t ∈ inputs, t ∈ s.tables := by
    intro t ht
    obtain ⟨g, hg, htg⟩ := mem_flatten.1 ht
    exact (overlapSets_flatten_perm s.tables).mem_iff.1
      (mem_flatten.2 ⟨g, (mem_filter.1 hg).1, htg⟩)
  have hstore : s.store = tablesStore (inputs ++ keptTables s.tables inputs) := by
    rw [hd.store]
    refine storeOf_congr (fun e => ?_) fun rt => ?_
    · simp only [mem_tablePoints, mem_append, mem_inputs_or_kept hs.uniqueNums hsub]
    · simp only [mem_tableRangeDels, mem_append, mem_inputs_or_kept hs.uniqueNums hsub]
  have hstore' : s'.store = tablesStore (keptTables s.tables inputs ++ metas) := by
    have hd' : s'.Drained := ⟨by rw [hmems]; exact hd.points, by rw [hmems]; exact hd.rangeDels⟩
    rw [hd'.store, htables]
  have hagree := hm.agree
  rw [hstore] at hagree
  rw [FiltersOnce, hstore, hstore', hblobs, hmerge.filters_once_iff hagree]
  refine forall₃_congr fun k n x =>
    ⟨fun hall hread => hall hread ?_, fun hall hread _ => hall hread⟩
  exact Nat.le_trans (Mvcc.Store.reads_iff.1 hread).1 (Nat.le_max_left _ _)

end Range

def discardAll : CompactionFilter := fun _ _ _ => .ok false

theorem sinkingStore_filterable : sinkingStore.Filterable 4 4 100 where
  housed := sinkingStore_housed
  meaningful := by
    refine ⟨by decide, fun t ht e he ptr hkind => ?_, ?_⟩
    · have hinline : ∀ e ∈ tablePoints sinkingStore.tables, e.kind ≠ .blobRef := by decide
      exact absurd hkind (hinline e (mem_tablePoints.2 ⟨t, ht, he⟩))
    · rintro _ ⟨p, hp, rfl⟩ _ ⟨q, hq, rfl⟩ huser hseq t _
      have hcopies : CopiesIdentical sinkingStore.entries := by decide
      rw [hcopies p hp q hq huser hseq]
  writable := rfl
  retiredPoints := by decide
  retiredSpans := by decide

def lonePutStore : Engine :=
  { sinkingStore with
    alloc := 2
    tables :=
      [finishTable unitFormat 10 1 1 ⟨[⟨⟨[122], 1, .set⟩, [2]⟩], pairwise_singleton _ _⟩ [],
        finishTable unitFormat 10 2 0 ⟨[⟨⟨[97], 2, .set⟩, [1]⟩], pairwise_singleton _ _⟩ []] }

end LevisDB
