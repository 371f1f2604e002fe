import LevisDB.Compaction.Merge

/-!
# What the merge loop keeps

The loop decides each entry from the entries before it. The invariant `Decided`
says what has been settled for the prefix read so far: every version above the
watermark is written, and of the versions at or below it the newest is written
or provably invisible.
-/

namespace LevisDB

open List LevisDB.Except

variable {cc : CompactionConfig} {w : Entry} {live : Payload → Time → Option V} {now t : Time}
  {V : Type}

/-- A reading of stored forms that sees them only through `Payload.liveAt`. -/
def ReadsThrough {V : Type} (live : Payload → Time → Option V) : Prop :=
  ∃ f : Live → Option V, ∀ p t, live p t = (p.liveAt t).bind f

theorem readsThrough_liveAt : ReadsThrough Payload.liveAt :=
  ⟨some, fun p t => by simp⟩

theorem ReadsThrough.congr (h : ReadsThrough live)
    {p q : Payload} (heq : p.liveAt t = q.liveAt t) : live p t = live q t := by
  obtain ⟨f, hf⟩ := h
  rw [hf, hf, heq]

theorem ReadsThrough.none (h : ReadsThrough live)
    {p : Payload} (hdead : p.liveAt t = none) : live p t = none := by
  obtain ⟨f, hf⟩ := h
  rw [hf, hdead]
  rfl

/-- The written form means the same as the entry for every read from `now` on. -/
def Restates (now : Time) (e w : Entry) : Prop :=
  w.user = e.user ∧ w.seq = e.seq ∧ ∀ t, now ≤ t → w.payload.liveAt t = e.payload.liveAt t

theorem liveAt_delete {e : Entry} (h : e.kind = .delete) (t : Time) : e.payload.liveAt t = none :=
    by
  simp [Payload.liveAt, Entry.payload, h]

/-- What the filter is shown of an entry. -/
inductive Viewed (resolve : BlobPointer → Except Err Bytes) (cc : CompactionConfig) (e : Entry)
    (now : Time) : Option (Bytes × Time) → Prop
  | deleted (hkind : e.kind = .delete) : Viewed resolve cc e now (some (e.value, 0))
  | expired (h : ∀ t, now ≤ t → e.payload.liveAt t = none) : Viewed resolve cc e now none
  | inline {x : Bytes × Time} (h : e.payload.liveAt now = some ⟨.inline x.1, x.2⟩) :
      Viewed resolve cc e now (some x)
  | blob {ptr : BlobPointer} {value : Bytes} (hkind : e.kind = .blobRef)
      (hdec : decodeBlobPointer e.value = .ok ptr)
      (h : e.payload.liveAt now = some ⟨.blob ptr, ptr.expiresAt⟩)
      (hres : cc.filter.isSome = true ∧ filterSafe cc e.seq = true → resolve ptr = .ok value) :
      Viewed resolve cc e now (some (value, ptr.expiresAt))

theorem filterView_viewed {resolve : BlobPointer → Except Err Bytes} {e : Entry}
    {view : Option (Bytes × Time)} (h : filterView resolve cc e now = .ok view) :
    Viewed resolve cc e now view := by
  unfold filterView at h
  cases hk : e.kind with
  | delete =>
    simp only [hk] at h
    cases h
    exact .deleted hk
  | set =>
    simp only [hk] at h
    cases h
    exact .inline (by simp [Payload.liveAt, Entry.payload, hk])
  | blobRef =>
    simp only [hk] at h
    cases hdec : decodeBlobPointer e.value with
    | error err => simp [hdec] at h
    | ok ptr =>
      simp only [hdec] at h
      split_ifs at h with hexp hsafe
      · cases h
        refine .expired fun t ht => ?_
        simp only [Payload.liveAt, Entry.payload, hk, hdec]
        exact if_pos ⟨hexp.1, le_trans hexp.2 ht⟩
      all_goals
        have hlive : e.payload.liveAt now = some ⟨.blob ptr, ptr.expiresAt⟩ := by
          simp only [Payload.liveAt, Entry.payload, hk, hdec]
          exact if_neg hexp
      · cases hres : resolve ptr with
        | error err => simp [hres, Except.map] at h
        | ok value =>
          rw [hres] at h
          cases h
          exact .blob hk hdec hlive fun _ => hres
      · cases h
        exact .blob hk hdec hlive fun hs => absurd hs hsafe
  | setTTL =>
    simp only [hk] at h
    cases hdec : decodeExpiringValue e.value with
    | error err => simp [hdec] at h
    | ok r =>
      simp only [hdec] at h
      split_ifs at h with hexp
      · cases h
        refine .expired fun t ht => ?_
        simp only [Payload.liveAt, Entry.payload, hk, hdec]
        exact if_pos (le_trans hexp ht)
      · cases h
        refine .inline ?_
        simp only [Payload.liveAt, Entry.payload, hk, hdec]
        exact if_neg hexp

theorem liveAt_of_filterView_none {resolve : BlobPointer → Except Err Bytes} {e : Entry}
    (h : filterView resolve cc e now = .ok none) (ht : now ≤ t) : e.payload.liveAt t = none := by
  cases filterView_viewed h with
  | expired hdead => exact hdead t ht

theorem resolveCompactionEntry_eq_ok {resolve : BlobPointer → Except Err Bytes}
    (hfilter : cc.filter = none) {e : Entry}
    (h : resolveCompactionEntry resolve cc e now = .ok w) :
    w = e ∨ (w = e.asTombstone ∧ filterView resolve cc e now = .ok none) := by
  unfold resolveCompactionEntry at h
  obtain ⟨view, hview, h⟩ := bind_eq_ok.1 h
  cases view with
  | none =>
    cases h
    exact Or.inr ⟨rfl, hview⟩
  | some p =>
    simp only [hfilter] at h
    cases h
    exact Or.inl rfl

theorem resolveCompactionEntry_form {resolve : BlobPointer → Except Err Bytes}
    {e : Entry}
    (h : resolveCompactionEntry resolve cc e now = .ok w) : w = e ∨ w = e.asTombstone := by
  unfold resolveCompactionEntry at h
  obtain ⟨view, _, h⟩ := bind_eq_ok.1 h
  cases view with
  | none =>
    cases h
    exact Or.inr rfl
  | some p =>
    cases hfilter : cc.filter with
    | none =>
      simp only [hfilter] at h
      cases h
      exact Or.inl rfl
    | some filter =>
      simp only [hfilter] at h
      split_ifs at h with hsafe
      · obtain ⟨keep, _, h⟩ := bind_eq_ok.1 h
        cases h
        cases keep
        · exact Or.inr rfl
        · exact Or.inl rfl
      · cases h
        exact Or.inl rfl

theorem resolveCompactionEntry_key {resolve : BlobPointer → Except Err Bytes}
    {e : Entry}
    (h : resolveCompactionEntry resolve cc e now = .ok w) : w.user = e.user ∧ w.seq = e.seq := by
  rcases resolveCompactionEntry_form h with rfl | rfl <;> exact ⟨rfl, rfl⟩

theorem restates_of_resolve {resolve : BlobPointer → Except Err Bytes}
    (hfilter : cc.filter = none) {e : Entry}
    (h : resolveCompactionEntry resolve cc e now = .ok w) : Restates now e w := by
  rcases resolveCompactionEntry_eq_ok hfilter h with rfl | ⟨rfl, hview⟩
  · exact ⟨rfl, rfl, fun _ _ => rfl⟩
  · refine ⟨rfl, rfl, fun t ht => ?_⟩
    rw [liveAt_of_filterView_none hview ht, liveAt_delete rfl]

section Written

variable {resolve : BlobPointer → Except Err Bytes} {mw : MergeWrite} {ks ks' : KeyState}

/-- What a written entry went through: expiry and the filter, but neither a covering
range tombstone nor the reclamation of a tombstone. -/
structure Written (resolve : BlobPointer → Except Err Bytes) (mw : MergeWrite) (e w : Entry) :
    Prop where
  resolved : resolveCompactionEntry resolve mw.cc e mw.expiry = .ok w
  uncovered : mw.reclaims e.user = true →
    maxCoveringRangeDelSeqLE mw.rangeDels e.user mw.retainSeq ≤ e.seq
  kept : mw.reclaims e.user = true → e.seq ≤ mw.retainSeq → w.kind ≠ .delete

theorem decideVersion_written {dropped : Bool} {e w : Entry}
    (h : decideVersion resolve mw dropped e = .ok (ks', some w)) : Written resolve mw e w := by
  unfold decideVersion at h
  by_cases hcov : mw.reclaims e.user = true ∧
      e.seq < maxCoveringRangeDelSeqLE mw.rangeDels e.user mw.retainSeq
  · rw [if_pos hcov] at h
    cases h
  · rw [if_neg hcov] at h
    obtain ⟨w', hres, h⟩ := bind_eq_ok.1 h
    by_cases hdrop : mw.reclaims e.user = true ∧ w'.kind = .delete ∧ e.seq ≤ mw.retainSeq
    · rw [if_pos hdrop] at h
      cases h
    · rw [if_neg hdrop] at h
      cases h
      exact ⟨hres, fun hrec => Nat.not_lt.1 fun hlt => hcov ⟨hrec, hlt⟩,
        fun hrec hle hdel => hdrop ⟨hrec, hdel, hle⟩⟩

theorem mergeStep_written {e w : Entry} (h : mergeStep resolve mw ks e = .ok (ks', some w)) :
    Written resolve mw e w := by
  unfold mergeStep at h
  split at h
  · exact decideVersion_written h
  · split_ifs at h
    · exact decideVersion_written h
    · cases hdup : checkSameSeqDuplicate _ e mw.expiry <;> rw [hdup] at h <;> cases h
    · cases h
    · exact decideVersion_written h

theorem mem_collapse {es ws : List Entry} (h : collapse resolve mw ks es = .ok ws) {w : Entry}
    (hw : w ∈ ws) : ∃ e ∈ es, Written resolve mw e w := by
  induction es generalizing ks ws with
  | nil =>
    cases h
    cases hw
  | cons e es ih =>
    unfold collapse at h
    obtain ⟨⟨ks₁, written⟩, hstep, h⟩ := bind_eq_ok.1 h
    obtain ⟨rest, hrest, h⟩ := bind_eq_ok.1 h
    cases h
    rcases mem_append.1 hw with hw | hw
    · obtain rfl := Option.mem_toList.1 hw
      exact ⟨e, mem_cons_self, mergeStep_written hstep⟩
    · obtain ⟨x, hx, hwritten⟩ := ih hrest hw
      exact ⟨x, mem_cons_of_mem _ hx, hwritten⟩

end Written

/-- The newest version at or below the watermark is gone for good: its key can be
reclaimed, nothing older was written, and no reader could have been shown it. -/
structure Reclaimed (mw : MergeWrite) (pre out : List Entry) (v : Entry) : Prop where
  reclaims : mw.reclaims v.user = true
  above : ∀ o ∈ out, o.user = v.user → mw.retainSeq < o.seq
  invisible : (∃ n ∈ pre, n.user = v.user ∧ n.seq = v.seq ∧
      ∀ t, mw.expiry ≤ t → n.payload.liveAt t = none) ∨
    ∃ rt ∈ mw.rangeDels, rt.Covers v.user v.seq mw.retainSeq

structure Decided (mw : MergeWrite) (pre : List Entry) (ks : KeyState) (out : List Entry) :
    Prop where
  start : ks.last = none → pre = []
  last_mem : ∀ l ∈ ks.last, l ∈ pre
  last_user : ∀ l ∈ ks.last, ∀ v ∈ pre, v.user ≤ l.user
  last_seq : ∀ l ∈ ks.last, ∀ v ∈ pre, v.user = l.user → l.seq ≤ v.seq ∨ v.seq < mw.retainSeq
  dropped : ∀ l ∈ ks.last, (ks.droppedBelow = true ↔
    ∃ v ∈ pre, v.user = l.user ∧ v.seq ≤ mw.retainSeq)
  restates : ∀ o ∈ out, ∃ v ∈ pre, Restates mw.expiry v o
  above : ∀ v ∈ pre, mw.retainSeq < v.seq → ∃ o ∈ out, o.user = v.user ∧ o.seq = v.seq
  below : ∀ v, IsNewestIn v.user mw.retainSeq pre (some v) →
    (∃ o ∈ out, o.user = v.user ∧ o.seq = v.seq) ∨ Reclaimed mw pre out v
  uncovered : ∀ o ∈ out, mw.reclaims o.user = true →
    ∀ rt ∈ mw.rangeDels, ¬ rt.Covers o.user o.seq mw.retainSeq

theorem decided_nil (mw : MergeWrite) : Decided mw [] ⟨none, false⟩ [] where
  start _ := rfl
  last_mem := by simp
  last_user := by simp
  last_seq := by simp
  dropped := by simp
  restates := by simp
  above := by simp
  below := by
    intro v hv
    exact absurd hv.1 (by simp)
  uncovered := by simp

section Step

variable {resolve : BlobPointer → Except Err Bytes} {mw : MergeWrite} {pre out : List Entry}
  {ks : KeyState} {e : Entry}

theorem isNewestIn_of_append {key : Key} {seq : Nat} {b : Entry}
    (h : IsNewestIn key seq (pre ++ [e]) (some b)) (hb : b ∈ pre) :
    IsNewestIn key seq pre (some b) :=
  ⟨hb, h.2.1, h.2.2.1, fun u hu => h.2.2.2 u (mem_append_left _ hu)⟩

theorem Reclaimed.mono {v : Entry} (h : Reclaimed mw pre out v) :
    Reclaimed mw (pre ++ [e]) out v where
  reclaims := h.reclaims
  above := h.above
  invisible := by
    rcases h.invisible with ⟨n, hn, hrest⟩ | hcov
    · exact Or.inl ⟨n, mem_append_left _ hn, hrest⟩
    · exact Or.inr hcov

theorem Reclaimed.congr {v u : Entry} (h : Reclaimed mw pre out v) (huser : v.user = u.user)
    (hseq : v.seq = u.seq) : Reclaimed mw pre out u := by
  obtain ⟨hrec, habove, hinv⟩ := h
  rw [huser] at hrec habove hinv
  rw [hseq] at hinv
  exact ⟨hrec, habove, hinv⟩

theorem Decided.skip (h : Decided mw pre ks out) (hord : ∀ v ∈ pre, IKeyOrder v e) {l : Entry}
    (hl : ks.last = some l) (huser : l.user = e.user)
    (hold : e.seq = l.seq ∨ (e.seq < mw.retainSeq ∧ ks.droppedBelow = true)) :
    Decided mw (pre ++ [e]) ks out := by
  have hlpre := h.last_mem l hl
  -- A version of the same key already in the prefix is at least as new.
  have hcopy : e.seq ≤ mw.retainSeq → ∃ u ∈ pre, u.user = e.user ∧ e.seq ≤ u.seq ∧
      u.seq ≤ mw.retainSeq := by
    intro hle
    rcases hold with hdup | ⟨_, hdrop⟩
    · exact ⟨l, hlpre, huser, by omega, by omega⟩
    · obtain ⟨u, hu, huu, hus⟩ := (h.dropped l hl).1 hdrop
      have huser' := huu.trans huser
      exact ⟨u, hu, huser', (hord u hu).seq_le huser', hus⟩
  constructor
  · intro hnone
    rw [hl] at hnone
    cases hnone
  · intro l' hl'
    exact mem_append_left _ (h.last_mem l' hl')
  · intro l' hl' v hv
    cases hl.symm.trans hl'
    rcases mem_append.1 hv with hv | hv
    · exact h.last_user l hl v hv
    · rw [mem_singleton.1 hv]
      exact le_of_eq huser.symm
  · intro l' hl' v hv hvu
    cases hl.symm.trans hl'
    rcases mem_append.1 hv with hv | hv
    · exact h.last_seq l hl v hv hvu
    · rw [mem_singleton.1 hv]
      rcases hold with hdup | ⟨hlt, _⟩
      · exact Or.inl (by omega)
      · exact Or.inr hlt
  · intro l' hl'
    cases hl.symm.trans hl'
    rw [h.dropped l hl]
    constructor
    · rintro ⟨v, hv, hrest⟩
      exact ⟨v, mem_append_left _ hv, hrest⟩
    · rintro ⟨v, hv, hvu, hvs⟩
      rcases mem_append.1 hv with hv | hv
      · exact ⟨v, hv, hvu, hvs⟩
      · rw [mem_singleton.1 hv] at hvu hvs
        obtain ⟨u, hu, huu, _, hus⟩ := hcopy hvs
        exact ⟨u, hu, huu.trans hvu, hus⟩
  · intro o ho
    obtain ⟨v, hv, hrest⟩ := h.restates o ho
    exact ⟨v, mem_append_left _ hv, hrest⟩
  · intro v hv hvs
    rcases mem_append.1 hv with hv | hv
    · exact h.above v hv hvs
    · rw [mem_singleton.1 hv] at hvs ⊢
      rcases hold with hdup | ⟨hlt, _⟩
      · obtain ⟨o, ho, hou, hos⟩ := h.above l hlpre (by omega)
        exact ⟨o, ho, hou.trans huser, by omega⟩
      · omega
  · intro v hv
    rcases mem_append.1 hv.1 with hvp | hve
    · rcases h.below v (isNewestIn_of_append hv hvp) with hw | hrec
      · exact Or.inl hw
      · exact Or.inr hrec.mono
    · obtain rfl := mem_singleton.1 hve
      obtain ⟨u, hu, huu, hle, hus⟩ := hcopy hv.2.2.1
      have hseq : u.seq = v.seq :=
        Nat.le_antisymm (hv.2.2.2 u (mem_append_left _ hu) huu hus) hle
      have hunew : IsNewestIn u.user mw.retainSeq pre (some u) := by
        refine ⟨hu, rfl, hus, fun x hx hxu hxs => ?_⟩
        have := hv.2.2.2 x (mem_append_left _ hx) (hxu.trans huu) hxs
        omega
      rcases h.below u hunew with ⟨o, ho, hou, hos⟩ | hrec
      · exact Or.inl ⟨o, ho, hou.trans huu, hos.trans hseq⟩
      · exact Or.inr (hrec.congr huu hseq).mono
  · exact h.uncovered

theorem decideVersion_eq_ok {db : Bool} {ks' : KeyState} {w : Option Entry}
    (h : decideVersion resolve mw db e = .ok (ks', w)) :
    (ks' = ⟨some e, true⟩ ∧ w = none ∧ e.seq ≤ mw.retainSeq ∧ mw.reclaims e.user = true ∧
      ((∃ rt ∈ mw.rangeDels, rt.Covers e.user e.seq mw.retainSeq) ∨
        ∃ w₀, resolveCompactionEntry resolve mw.cc e mw.expiry = .ok w₀ ∧ w₀.kind = .delete)) ∨
    ∃ w₀, w = some w₀ ∧ resolveCompactionEntry resolve mw.cc e mw.expiry = .ok w₀ ∧
      ks' = ⟨some e, if e.seq ≤ mw.retainSeq then true else db⟩ ∧
      (mw.reclaims e.user = true →
        ∀ rt ∈ mw.rangeDels, ¬ rt.Covers e.user e.seq mw.retainSeq) := by
  unfold decideVersion at h
  simp only [lt_maxCoveringRangeDelSeqLE_iff] at h
  by_cases hcov : mw.reclaims e.user = true ∧
      ∃ rt ∈ mw.rangeDels, rt.Covers e.user e.seq mw.retainSeq
  · rw [if_pos hcov] at h
    obtain ⟨hrec, rt, hrt, hcovers⟩ := hcov
    cases h
    have hle := hcovers.2
    exact Or.inl ⟨rfl, rfl, by omega, hrec, Or.inl ⟨rt, hrt, hcovers⟩⟩
  · rw [if_neg hcov] at h
    obtain ⟨w₀, hw₀, h⟩ := bind_eq_ok.1 h
    by_cases hdel : mw.reclaims e.user = true ∧ w₀.kind = .delete ∧ e.seq ≤ mw.retainSeq
    · rw [if_pos hdel] at h
      cases h
      exact Or.inl ⟨rfl, rfl, hdel.2.2, hdel.1, Or.inr ⟨w₀, hw₀, hdel.2.1⟩⟩
    · rw [if_neg hdel] at h
      cases h
      exact Or.inr ⟨w₀, rfl, hw₀, rfl, fun hrec rt hrt hcovers => hcov ⟨hrec, rt, hrt, hcovers⟩⟩

theorem Decided.fresh (h : Decided mw pre ks out) (hord : ∀ v ∈ pre, IKeyOrder v e) {db : Bool}
    (hdb : db = true ↔ ∃ v ∈ pre, v.user = e.user ∧ v.seq ≤ mw.retainSeq)
    (hfresh : e.seq ≤ mw.retainSeq → ∀ v ∈ pre, v.user = e.user → mw.retainSeq < v.seq)
    (hres : ∀ w, resolveCompactionEntry resolve mw.cc e mw.expiry = .ok w →
      Restates mw.expiry e w)
    {ks' : KeyState} {w : Option Entry} (hok : decideVersion resolve mw db e = .ok (ks', w)) :
    Decided mw (pre ++ [e]) ks' (out ++ w.toList) := by
  have hcases := decideVersion_eq_ok hok
  have hlast : ks'.last = some e := by
    rcases hcases with ⟨rfl, _⟩ | ⟨_, _, _, rfl, _⟩ <;> rfl
  have hnew : ∀ o ∈ w.toList, Restates mw.expiry e o := by
    intro o ho
    rcases hcases with ⟨_, rfl, _⟩ | ⟨w₀, rfl, hw₀, _⟩
    · simp at ho
    · obtain rfl : o = w₀ := by simpa using ho
      exact hres o hw₀
  have hflag : e.seq ≤ mw.retainSeq → ks'.droppedBelow = true := by
    intro hle
    rcases hcases with ⟨rfl, _⟩ | ⟨_, _, _, rfl, _⟩
    · rfl
    · simp [hle]
  -- Nothing written for this key lies at or below the watermark.
  have hout : e.seq ≤ mw.retainSeq → ∀ o ∈ out, o.user = e.user → mw.retainSeq < o.seq := by
    intro hle o ho hou
    obtain ⟨v, hv, hvu, hvs, _⟩ := h.restates o ho
    have := hfresh hle v hv (hvu.symm.trans hou)
    omega
  constructor
  · intro hnone
    rw [hlast] at hnone
    cases hnone
  · intro l hl
    cases hlast.symm.trans hl
    simp
  · intro l hl v hv
    cases hlast.symm.trans hl
    rcases mem_append.1 hv with hv | hv
    · exact (hord v hv).user_le
    · rw [mem_singleton.1 hv]
  · intro l hl v hv hvu
    cases hlast.symm.trans hl
    rcases mem_append.1 hv with hv | hv
    · exact Or.inl ((hord v hv).seq_le hvu)
    · rw [mem_singleton.1 hv]
      exact Or.inl (Nat.le_refl _)
  · intro l hl
    cases hlast.symm.trans hl
    by_cases hle : e.seq ≤ mw.retainSeq
    · exact iff_of_true (hflag hle) ⟨e, by simp, rfl, hle⟩
    · have hkeep : ks'.droppedBelow = db := by
        rcases hcases with ⟨_, _, hle', _⟩ | ⟨_, _, _, rfl, _⟩
        · exact absurd hle' hle
        · simp [hle]
      rw [hkeep, hdb]
      constructor
      · rintro ⟨v, hv, hrest⟩
        exact ⟨v, mem_append_left _ hv, hrest⟩
      · rintro ⟨v, hv, hvu, hvs⟩
        rcases mem_append.1 hv with hv | hv
        · exact ⟨v, hv, hvu, hvs⟩
        · rw [mem_singleton.1 hv] at hvs
          exact absurd hvs hle
  · intro o ho
    rcases mem_append.1 ho with ho | ho
    · obtain ⟨v, hv, hrest⟩ := h.restates o ho
      exact ⟨v, mem_append_left _ hv, hrest⟩
    · exact ⟨e, by simp, hnew o ho⟩
  · intro v hv hvs
    rcases mem_append.1 hv with hv | hv
    · obtain ⟨o, ho, hrest⟩ := h.above v hv hvs
      exact ⟨o, mem_append_left _ ho, hrest⟩
    · rw [mem_singleton.1 hv] at hvs ⊢
      rcases hcases with ⟨_, _, hle, _⟩ | ⟨w₀, rfl, hw₀, _⟩
      · omega
      · have hr := hres w₀ hw₀
        exact ⟨w₀, by simp, hr.1, hr.2.1⟩
  · intro v hv
    have hvs := hv.2.2.1
    by_cases huser : v.user = e.user
    · -- Every version of this key in the prefix is newer, so this is `e` itself.
      have hve : v = e := by
        rcases mem_append.1 hv.1 with hvp | hve
        · have hge := (hord v hvp).seq_le huser
          have := hfresh (by omega) v hvp huser
          omega
        · exact mem_singleton.1 hve
      subst hve
      rcases hcases with ⟨_, rfl, hle, hrec, hwhy⟩ | ⟨w₀, rfl, hw₀, _⟩
      · refine Or.inr ⟨hrec, ?_, ?_⟩
        · simpa using hout hle
        · rcases hwhy with hcov | ⟨w₀, hw₀, hdel⟩
          · exact Or.inr hcov
          · refine Or.inl ⟨v, by simp, rfl, rfl, fun t ht => ?_⟩
            rw [← (hres w₀ hw₀).2.2 t ht]
            exact liveAt_delete hdel t
      · have hr := hres w₀ hw₀
        exact Or.inl ⟨w₀, by simp, hr.1, hr.2.1⟩
    · have hvp : v ∈ pre := by
        rcases mem_append.1 hv.1 with hvp | hve
        · exact hvp
        · exact absurd (by rw [mem_singleton.1 hve]) huser
      rcases h.below v (isNewestIn_of_append hv hvp) with ⟨o, ho, hrest⟩ | hrec
      · exact Or.inl ⟨o, mem_append_left _ ho, hrest⟩
      · refine Or.inr ⟨hrec.reclaims, ?_, hrec.mono.invisible⟩
        intro o ho hou
        rcases mem_append.1 ho with ho | ho
        · exact hrec.above o ho hou
        · exact absurd (hou.symm.trans (hnew o ho).1) huser
  · intro o ho hrec
    rcases mem_append.1 ho with ho | ho
    · exact h.uncovered o ho hrec
    · rcases hcases with ⟨_, rfl, _⟩ | ⟨w₀, rfl, hw₀, _, hunc⟩
      · simp at ho
      · obtain rfl : o = w₀ := by simpa using ho
        have hr := hres o hw₀
        rw [hr.1] at hrec ⊢
        rw [hr.2.1]
        exact hunc hrec

theorem Decided.step (h : Decided mw pre ks out) (hord : ∀ v ∈ pre, IKeyOrder v e)
    (hres : ∀ w, resolveCompactionEntry resolve mw.cc e mw.expiry = .ok w →
      Restates mw.expiry e w)
    {ks' : KeyState} {w : Option Entry} (hok : mergeStep resolve mw ks e = .ok (ks', w)) :
    Decided mw (pre ++ [e]) ks' (out ++ w.toList) := by
  have hnewKey : (∀ v ∈ pre, v.user ≠ e.user) →
      decideVersion resolve mw false e = .ok (ks', w) →
      Decided mw (pre ++ [e]) ks' (out ++ w.toList) := by
    intro hnone hdec
    refine h.fresh hord ?_ (fun _ v hv hvu => absurd hvu (hnone v hv)) hres hdec
    simp only [Bool.false_eq_true, false_iff, not_exists, not_and]
    exact fun v hv hvu => absurd hvu (hnone v hv)
  unfold mergeStep at hok
  cases hl : ks.last with
  | none =>
    rw [hl] at hok
    refine hnewKey ?_ hok
    rw [h.start hl]
    simp
  | some l =>
    simp only [hl] at hok
    split_ifs at hok with huser hdup hold
    · refine hnewKey ?_ hok
      intro v hv hvu
      have hle := h.last_user l hl v hv
      have hle' := (hord l (h.last_mem l hl)).user_le
      exact huser (le_antisymm hle' (hvu ▸ hle))
    · cases hchk : checkSameSeqDuplicate l e mw.expiry with
      | error err =>
        rw [hchk] at hok
        cases hok
      | ok u =>
        rw [hchk] at hok
        cases hok
        simpa using h.skip hord hl (not_not.1 huser) (Or.inl hdup)
    · cases hok
      simpa using h.skip hord hl (not_not.1 huser) (Or.inr hold)
    · have hkey : l.user = e.user := not_not.1 huser
      refine h.fresh hord ?_ ?_ hres hok
      · rw [h.dropped l hl, hkey]
      · intro hle v hv hvu
        by_contra hvs
        have hdrop := (h.dropped l hl).2 ⟨v, hv, hvu.trans hkey.symm, by omega⟩
        have hge : mw.retainSeq ≤ e.seq := by
          by_contra hlt
          exact hold ⟨by omega, hdrop⟩
        -- Then `e` sits exactly at the watermark, and so does `l`: a duplicate.
        have hle' := (hord v hv).seq_le hvu
        have hll := (hord l (h.last_mem l hl)).seq_le hkey
        rcases h.last_seq l hl v hv (hvu.trans hkey.symm) with hlv | hlv
        · omega
        · omega

theorem Decided.run {es ws : List Entry} (h : Decided mw pre ks out)
    (hsorted : (pre ++ es).Pairwise IKeyOrder)
    (hres : ∀ e ∈ es, ∀ w, resolveCompactionEntry resolve mw.cc e mw.expiry = .ok w →
      Restates mw.expiry e w)
    (hok : collapse resolve mw ks es = .ok ws) :
    ∃ ks', Decided mw (pre ++ es) ks' (out ++ ws) := by
  induction es generalizing pre ks out ws with
  | nil =>
    cases hok
    exact ⟨ks, by simpa using h⟩
  | cons e es ih =>
    unfold collapse at hok
    obtain ⟨⟨ks₁, w⟩, hstep, hok⟩ := bind_eq_ok.1 hok
    obtain ⟨rest, hrest, hok⟩ := bind_eq_ok.1 hok
    cases hok
    have hord : ∀ v ∈ pre, IKeyOrder v e := by
      intro v hv
      exact (pairwise_append.1 hsorted).2.2 v hv e (by simp)
    have h₁ := h.step hord (hres e (by simp)) hstep
    rw [append_cons] at hsorted ⊢
    obtain ⟨ks', hfin⟩ := ih h₁ hsorted (fun x hx => hres x (by simp [hx])) hrest
    rw [append_assoc out] at hfin
    exact ⟨ks', hfin⟩

end Step

theorem collapse_isCollapse {resolve : BlobPointer → Except Err Bytes} (mw : MergeWrite)
    (hlive : ReadsThrough live)
    {es ws : List Entry} (hsorted : es.Pairwise IKeyOrder)
    (hres : ∀ e ∈ es, ∀ w, resolveCompactionEntry resolve mw.cc e mw.expiry = .ok w →
      Restates mw.expiry e w)
    {T : Time} (hT : mw.expiry ≤ T) (hagree : (storeOf es mw.rangeDels).AgreeFrom live T)
    (hok : collapse resolve mw ⟨none, false⟩ es = .ok ws) :
    Mvcc.Store.Collapse live mw.retainSeq T (fun k => mw.reclaims k = true)
      (storeOf es mw.rangeDels)
      (storeOf ws (rangeDelsToPersist mw.rangeDels
        (mw.dropTombstones && mw.noDeeperTier.isNone) mw.retainSeq)) := by
  obtain ⟨ks, h⟩ := (decided_nil mw).run hsorted hres hok
  rw [nil_append, nil_append] at h
  constructor
  · rintro _ ⟨o, ho, rfl⟩
    obtain ⟨v, hv, hvu, hvs, hvl⟩ := h.restates o ho
    exact ⟨v.version, ⟨v, hv, rfl⟩, hvu.symm, hvs.symm, fun t ht =>
      hlive.congr (hvl t (le_trans hT ht))⟩
  · rintro _ ⟨v, hv, rfl⟩ hvs
    obtain ⟨o, ho, hrest⟩ := h.above v hv hvs
    exact ⟨o.version, ⟨o, ho, rfl⟩, hrest⟩
  · intro k v hv
    obtain ⟨e, rfl, hnew⟩ := storeOf_isNewest_iff.1 hv
    obtain rfl : e.user = k := hnew.2.1
    rcases h.below e hnew with ⟨o, ho, hrest⟩ | hrec
    · exact Or.inl ⟨o.version, ⟨o, ho, rfl⟩, hrest⟩
    · refine Or.inr ⟨hrec.reclaims, ?_, ?_⟩
      · rintro _ ⟨o, ho, rfl⟩ hou
        exact hrec.above o ho hou
      · rcases hrec.invisible with ⟨n, hn, hnu, hns, hdead⟩ | ⟨rt, hrt, hcov⟩
        · left
          intro t ht
          rw [hagree e.version ⟨e, hnew.1, rfl⟩ n.version ⟨n, hn, rfl⟩ hnu.symm hns.symm t ht]
          exact hlive.none (hdead t (le_trans hT ht))
        · exact Or.inr fun hunc => hunc rt hrt hcov
  · intro rt hrt
    have hrt' : rt ∈ rangeDelsToPersist mw.rangeDels _ mw.retainSeq := hrt
    unfold rangeDelsToPersist at hrt'
    split_ifs at hrt'
    · exact hrt'
    · exact (mem_filter.1 hrt').1
  · intro rt hrt hdropped
    have hdropped' : rt ∉ rangeDelsToPersist mw.rangeDels
        (mw.dropTombstones && mw.noDeeperTier.isNone) mw.retainSeq := hdropped
    unfold rangeDelsToPersist at hdropped'
    split_ifs at hdropped' with hflag
    · exact absurd hrt hdropped'
    · have hle : rt.seq ≤ mw.retainSeq := by
        by_contra hlt
        exact hdropped' (mem_filter.2 ⟨hrt, by simpa using hlt⟩)
      have hrec : ∀ k, mw.reclaims k = true := by
        intro k
        simp only [Bool.not_eq_false, Bool.and_eq_true, Option.isNone_iff_eq_none] at hflag
        simp [MergeWrite.reclaims, hflag.1, hflag.2]
      refine ⟨hle, fun k hk => ⟨hrec k, ?_⟩⟩
      rintro _ ⟨o, ho, rfl⟩ hok
      by_contra hlt
      have hok' : o.user = k := hok
      refine h.uncovered o ho (hrec _) rt hrt ⟨hok' ▸ hk, ?_, hle⟩
      exact Nat.lt_of_not_le hlt

end LevisDB
