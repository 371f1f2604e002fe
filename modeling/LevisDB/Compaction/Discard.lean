import LevisDB.Compaction.Soundness
import LevisDB.Engine.Flush

/-!
# Merges that discard values

A compaction filter turns values it discards into tombstones while the merge
runs. Such a merge is the merge without a filter of the same inputs with those
values already erased, so it collapses the erased inputs.
-/

namespace LevisDB

open List Option LevisDB.Except

section Distinct

variable {resolve : BlobPointer → Except Err Bytes} {mw : MergeWrite} {ks ks' : KeyState}

theorem decideVersion_last {dropped : Bool} {e : Entry} {w : Option Entry}
    (h : decideVersion resolve mw dropped e = .ok (ks', w)) : ks'.last = some e := by
  rcases decideVersion_eq_ok h with ⟨rfl, _⟩ | ⟨_, _, _, rfl, _⟩ <;> rfl

theorem mergeStep_cases {e : Entry} {w : Option Entry}
    (h : mergeStep resolve mw ks e = .ok (ks', w)) :
    (ks' = ks ∧ w = none) ∨
      (ks'.last = some e ∧ ∀ l ∈ ks.last, l.user = e.user → l.seq ≠ e.seq) := by
  unfold mergeStep at h
  cases hl : ks.last with
  | none =>
    rw [hl] at h
    exact Or.inr ⟨decideVersion_last h, by simp⟩
  | some l =>
    simp only [hl] at h
    split_ifs at h with huser hdup hold
    · refine Or.inr ⟨decideVersion_last h, fun l' hl' huser' => ?_⟩
      cases hl'
      exact absurd huser' huser
    · cases hchk : checkSameSeqDuplicate l e mw.expiry with
      | error err =>
        rw [hchk] at h
        cases h
      | ok u =>
        rw [hchk] at h
        cases h
        exact Or.inl ⟨rfl, rfl⟩
    · cases h
      exact Or.inl ⟨rfl, rfl⟩
    · refine Or.inr ⟨decideVersion_last h, fun l' hl' _ => ?_⟩
      cases hl'
      exact fun hseq => hdup hseq.symm

theorem VersionLt.trans {a b c : Entry} (hab : VersionLt a b) (hbc : VersionLt b c) :
    VersionLt a c := by
  rcases hab with hab | ⟨hab, hs⟩ <;> rcases hbc with hbc | ⟨hbc, hs'⟩
  · exact Or.inl (lt_trans hab hbc)
  · exact Or.inl (hbc ▸ hab)
  · exact Or.inl (hab ▸ hbc)
  · exact Or.inr ⟨hab.trans hbc, lt_trans hs' hs⟩

theorem collapse_distinct {es ws : List Entry} (hsorted : (ks.last.toList ++ es).Pairwise IKeyOrder)
    (h : collapse resolve mw ks es = .ok ws) : (ks.last.toList ++ ws).Pairwise VersionLt := by
  induction es generalizing ks ws with
  | nil =>
    cases h
    cases ks.last <;> simp
  | cons e es ih =>
    unfold collapse at h
    obtain ⟨⟨ks', w⟩, hstep, h⟩ := bind_eq_ok.1 h
    obtain ⟨rest, hrest, h⟩ := bind_eq_ok.1 h
    cases h
    rcases mergeStep_cases hstep with ⟨rfl, rfl⟩ | ⟨hlast, hfresh⟩
    · exact ih (hsorted.sublist (by simp)) hrest
    · have hbehind := ih (by
        rw [hlast]
        exact hsorted.sublist (by simp)) hrest
      rw [hlast, toList_some, singleton_append, pairwise_cons] at hbehind
      have hwritten : ∀ x ∈ w.toList, x.user = e.user ∧ x.seq = e.seq := by
        intro x hx
        obtain rfl := mem_toList.1 hx
        exact resolveCompactionEntry_key (mergeStep_written hstep).resolved
      have hcross : ∀ x ∈ w.toList, ∀ y ∈ rest, VersionLt x y := by
        intro x hx y hy
        have := hbehind.1 y hy
        rwa [VersionLt, ← (hwritten x hx).1, ← (hwritten x hx).2] at this
      -- The entry decided now lies behind the last one, so everything after it does.
      have hafter : ∀ l ∈ ks.last.toList, VersionLt l e := by
        intro l hl
        refine ((pairwise_append.1 hsorted).2.2 l hl e (by simp)).versionLt ?_
        exact fun hsame => hfresh l (mem_toList.1 hl) hsame.1 hsame.2
      refine pairwise_append.2 ⟨by cases ks.last <;> simp, ?_, ?_⟩
      · exact pairwise_append.2 ⟨by cases w <;> simp, hbehind.2, hcross⟩
      · intro l hl x hx
        rcases mem_append.1 hx with hx | hx
        · have := hafter l hl
          rwa [VersionLt, ← (hwritten x hx).1, ← (hwritten x hx).2] at this
        · exact (hafter l hl).trans (hbehind.1 x hx)

end Distinct

def discards (resolve : BlobPointer → Except Err Bytes) (cc : CompactionConfig) (now : Time)
    (e : Entry) : Bool :=
  match filterView resolve cc e now, cc.filter with
  | .ok (some (value, expiresAt)), some filter =>
    decide (e.kind ≠ .delete) && filterSafe cc e.seq &&
      decide (filter e.user value expiresAt = .ok false)
  | _, _ => false

def afterFilter (resolve : BlobPointer → Except Err Bytes) (cc : CompactionConfig) (now : Time)
    (e : Entry) : Entry :=
  if discards resolve cc now e then e.asTombstone else e

section Verdict

variable {resolve : BlobPointer → Except Err Bytes} {cc : CompactionConfig} {now : Time}
  {e w : Entry}

theorem afterFilter_user : (afterFilter resolve cc now e).user = e.user := by
  unfold afterFilter
  split_ifs <;> rfl

theorem afterFilter_seq : (afterFilter resolve cc now e).seq = e.seq := by
  unfold afterFilter
  split_ifs <;> rfl

theorem afterFilter_order {a b : Entry} (hcopy : a.user = b.user → a.seq = b.seq → a = b)
    (h : IKeyOrder a b) :
    IKeyOrder (afterFilter resolve cc now a) (afterFilter resolve cc now b) := by
  by_cases hsame : a.user = b.user ∧ a.seq = b.seq
  · rw [hcopy hsame.1 hsame.2]
    exact le_refl _
  · have hlt : VersionLt (afterFilter resolve cc now a) (afterFilter resolve cc now b) := by
      have := h.versionLt hsame
      rwa [VersionLt, afterFilter_user, afterFilter_user, afterFilter_seq, afterFilter_seq]
    exact le_of_lt hlt.toIKey_lt

theorem discards_no_filter (h : cc.filter = none) : discards resolve cc now e = false := by
  unfold discards
  rw [h]
  split
  · next hsome => cases hsome
  · rfl

theorem filterView_withoutFilter {view : Option (Bytes × Time)}
    (h : filterView resolve cc e now = .ok view) :
    ∃ view', filterView resolve { cc with filter := none } e now = .ok view' ∧
      view'.isSome = view.isSome := by
  unfold filterView at h ⊢
  cases hk : e.kind with
  | delete | set =>
    simp only [hk] at h
    cases h
    exact ⟨_, rfl, rfl⟩
  | setTTL =>
    simp only [hk] at h
    exact ⟨view, h, rfl⟩
  | blobRef =>
    simp only [hk] at h ⊢
    cases hdec : decodeBlobPointer e.value with
    | error err => simp [hdec] at h
    | ok ptr =>
      simp only [hdec] at h ⊢
      by_cases hexp : ptr.expiresAt ≠ 0 ∧ ptr.expiresAt ≤ now
      · rw [if_pos hexp] at h ⊢
        exact ⟨view, h, rfl⟩
      · rw [if_neg hexp] at h ⊢
        refine ⟨_, if_neg (by simp), ?_⟩
        split_ifs at h with hsafe
        · cases hres : resolve ptr with
          | error err => simp [hres, Except.map] at h
          | ok value =>
            rw [hres] at h
            cases h
            rfl
        · cases h
          rfl

theorem resolve_afterFilter (h : resolveCompactionEntry resolve cc e now = .ok w) :
    resolveCompactionEntry resolve { cc with filter := none } (afterFilter resolve cc now e) now =
      .ok w := by
  unfold resolveCompactionEntry at h
  obtain ⟨view, hview, h⟩ := bind_eq_ok.1 h
  obtain ⟨view', hview', hsome⟩ := filterView_withoutFilter hview
  cases view with
  | none =>
    cases h
    have hkept : afterFilter resolve cc now e = e := by simp [afterFilter, discards, hview]
    obtain rfl : view' = none := by simpa using hsome
    rw [hkept, resolveCompactionEntry, hview']
    rfl
  | some p =>
    obtain ⟨value, expiresAt⟩ := p
    obtain ⟨p', rfl⟩ : ∃ p', view' = some p' := isSome_iff_exists.1 hsome
    have hwritten : resolveCompactionEntry resolve { cc with filter := none } e now = .ok e := by
      rw [resolveCompactionEntry, hview']
      rfl
    cases hfilter : cc.filter with
    | none =>
      simp only [hfilter] at h
      cases h
      have hkept : afterFilter resolve cc now e = e := by
        simp [afterFilter, discards_no_filter hfilter]
      rw [hkept, hwritten]
    | some filter =>
      simp only [hfilter] at h
      split_ifs at h with hsafe
      · obtain ⟨keep, hkeep, h⟩ := bind_eq_ok.1 h
        cases h
        have hverdict : discards resolve cc now e = !keep := by
          simp only [discards, hview, hfilter, hkeep, Except.ok.injEq]
          cases keep <;> simp [hsafe]
        cases keep with
        | false =>
          have hgone : afterFilter resolve cc now e = e.asTombstone := by
            simp [afterFilter, hverdict]
          rw [hgone]
          rfl
        | true =>
          have hkept : afterFilter resolve cc now e = e := by simp [afterFilter, hverdict]
          rw [hkept, hwritten]
          rfl
      · cases h
        have hkept : afterFilter resolve cc now e = e := by
          have hverdict : discards resolve cc now e = false := by
            simp only [discards, hview, hfilter]
            rw [Bool.and_eq_false_iff]
            left
            simpa using hsafe
          simp [afterFilter, hverdict]
        rw [hkept, hwritten]

end Verdict

section Judged

variable {resolve : BlobPointer → Except Err Bytes} {mw : MergeWrite}

def MergeWrite.withoutFilter (mw : MergeWrite) : MergeWrite :=
  { mw with cc := { mw.cc with filter := none } }

def KeyState.map (f : Entry → Entry) (ks : KeyState) : KeyState := ⟨ks.last.map f, ks.droppedBelow⟩

theorem decideVersion_afterFilter {dropped : Bool} {e : Entry} {ks' : KeyState} {w : Option Entry}
    (h : decideVersion resolve mw dropped e = .ok (ks', w)) :
    decideVersion resolve mw.withoutFilter dropped (afterFilter resolve mw.cc mw.expiry e) =
      .ok (ks'.map (afterFilter resolve mw.cc mw.expiry), w) := by
  unfold decideVersion at h ⊢
  simp only [afterFilter_user, afterFilter_seq]
  by_cases hcov : mw.reclaims e.user = true ∧
      e.seq < maxCoveringRangeDelSeqLE mw.rangeDels e.user mw.retainSeq
  · rw [if_pos hcov] at h
    cases h
    exact if_pos hcov
  · rw [if_neg hcov] at h
    obtain ⟨w₀, hw₀, h⟩ := bind_eq_ok.1 h
    refine (if_neg hcov).trans (bind_eq_ok.2 ⟨w₀, resolve_afterFilter hw₀, ?_⟩)
    by_cases hdel : mw.reclaims e.user = true ∧ w₀.kind = .delete ∧ e.seq ≤ mw.retainSeq
    · rw [if_pos hdel] at h
      cases h
      exact if_pos hdel
    · rw [if_neg hdel] at h
      cases h
      exact if_neg hdel

theorem checkSameSeqDuplicate_self (e : Entry) (now : Time) :
    checkSameSeqDuplicate e e now = .ok () := by
  simp [checkSameSeqDuplicate]

theorem mergeStep_afterFilter {ks ks' : KeyState} {e : Entry} {w : Option Entry}
    (hcopy : ∀ l ∈ ks.last, l.user = e.user → l.seq = e.seq → l = e)
    (h : mergeStep resolve mw ks e = .ok (ks', w)) :
    mergeStep resolve mw.withoutFilter (ks.map (afterFilter resolve mw.cc mw.expiry))
        (afterFilter resolve mw.cc mw.expiry e) =
      .ok (ks'.map (afterFilter resolve mw.cc mw.expiry), w) := by
  unfold mergeStep at h ⊢
  cases hl : ks.last with
  | none =>
    rw [hl] at h
    simp only [KeyState.map, hl, map_none]
    exact decideVersion_afterFilter h
  | some l =>
    simp only [hl] at h
    simp only [KeyState.map, hl, map_some, afterFilter_user, afterFilter_seq]
    split_ifs at h with huser hdup hold
    · rw [if_pos huser]
      exact decideVersion_afterFilter h
    · obtain rfl := hcopy l hl (not_not.1 huser) hdup.symm
      rw [checkSameSeqDuplicate_self] at h
      cases h
      rw [if_neg huser, if_pos hdup, checkSameSeqDuplicate_self]
      simp [Except.map, hl]
    · cases h
      rw [if_neg huser, if_neg hdup, if_pos (show e.seq < mw.withoutFilter.retainSeq ∧ _ from hold)]
      simp [hl]
    · rw [if_neg huser, if_neg hdup,
        if_neg (show ¬ (e.seq < mw.withoutFilter.retainSeq ∧ _) from hold)]
      exact decideVersion_afterFilter h

theorem collapse_afterFilter {ks : KeyState} {es ws : List Entry}
    (hcopies : CopiesIdentical (ks.last.toList ++ es)) (h : collapse resolve mw ks es = .ok ws) :
    collapse resolve mw.withoutFilter (ks.map (afterFilter resolve mw.cc mw.expiry))
      (es.map (afterFilter resolve mw.cc mw.expiry)) = .ok ws := by
  induction es generalizing ks ws with
  | nil => exact h
  | cons e es ih =>
    unfold collapse at h
    obtain ⟨⟨ks', w⟩, hstep, h⟩ := bind_eq_ok.1 h
    obtain ⟨rest, hrest, h⟩ := bind_eq_ok.1 h
    have hlast : ∀ l ∈ ks'.last, l = e ∨ l ∈ ks.last.toList := by
      intro l hl
      rcases mergeStep_cases hstep with ⟨rfl, _⟩ | ⟨heq, _⟩
      · exact Or.inr (mem_toList.2 hl)
      · rw [heq] at hl
        exact Or.inl (Option.some.inj hl).symm
    have hsub : ∀ x ∈ ks'.last.toList ++ es, x ∈ ks.last.toList ++ e :: es := by
      intro x hx
      rcases mem_append.1 hx with hx | hx
      · rcases hlast x (mem_toList.1 hx) with rfl | hx
        · simp
        · exact mem_append_left _ hx
      · exact mem_append_right _ (mem_cons_of_mem _ hx)
    have hstep' := mergeStep_afterFilter (fun l hl huser hseq => hcopies l
      (mem_append_left _ (mem_toList.2 hl)) e (by simp) huser hseq) hstep
    have hrest' := ih (fun a ha b hb => hcopies a (hsub a ha) b (hsub b hb)) hrest
    rw [map_cons, collapse]
    exact bind_eq_ok.2 ⟨_, hstep', bind_eq_ok.2 ⟨_, hrest', h⟩⟩

end Judged

def Entry.place (e : Entry) : Key × Nat := (e.user, e.seq)

def CompactionPlan.discarded (p : CompactionPlan) (s : Engine) (cc : CompactionConfig)
    (now : Time) :
    List (Key × Nat) :=
  ((tablePoints p.inputs).filter (discards (resolveBlob s) cc (cc.expiry now))).map Entry.place

theorem CompactionPlan.discarded_no_filter {p : CompactionPlan} {s : Engine} {cc : CompactionConfig}
    {now : Time} (h : cc.filter = none) : p.discarded s cc now = [] := by
  unfold CompactionPlan.discarded
  rw [map_eq_nil_iff, filter_eq_nil_iff]
  intro e _
  simp [discards_no_filter h]

/-- The store without the versions at the given places. -/
def eraseAt (places : List (Key × Nat)) (S : Mvcc.Store Key Payload) : Mvcc.Store Key Payload :=
  S.erase (fun k n => (k, n) ∈ places) ⟨.delete, []⟩

theorem storeOf_map_eraseAt (es : List Entry) (rts : List RangeTombstone)
    (places : List (Key × Nat)) :
    storeOf (es.map fun e => if e.place ∈ places then e.asTombstone else e) rts =
      eraseAt places (storeOf es rts) := by
  ext v
  · constructor
    · rintro ⟨_, hmap, rfl⟩
      obtain ⟨e, he, rfl⟩ := List.mem_map.1 hmap
      by_cases hmem : e.place ∈ places
      · rw [if_pos hmem]
        exact Or.inr ⟨rfl, hmem, e.version, ⟨e, he, rfl⟩, rfl, rfl⟩
      · rw [if_neg hmem]
        exact Or.inl ⟨⟨e, he, rfl⟩, hmem⟩
    · rintro (⟨⟨e, he, rfl⟩, hmem⟩ | ⟨hpay, hmem, _, ⟨e, he, rfl⟩, hk, hn⟩)
      · exact ⟨e, List.mem_map.2 ⟨e, he, if_neg hmem⟩, rfl⟩
      · have hplace : e.place ∈ places := by
          have : e.place = (v.key, v.seq) := Prod.ext hk hn
          rwa [this]
        refine ⟨e.asTombstone, List.mem_map.2 ⟨e, he, if_pos hplace⟩, ?_⟩
        obtain ⟨k, n, pay⟩ := v
        obtain rfl : _ = k := hk
        obtain rfl : _ = n := hn
        obtain rfl : pay = _ := hpay
        rfl
  · rfl

section Run

variable {fmt : TableFormat} {s : Engine} {p : CompactionPlan} {retainSeq : Nat}
  {cc : CompactionConfig} {now : Time} {metas : List TableMeta} {alloc : Nat}

theorem afterFilter_eq_place (hcopies : CopiesIdentical (tablePoints p.inputs)) {e : Entry}
    (he : e ∈ tablePoints p.inputs) :
    afterFilter (resolveBlob s) cc (cc.expiry now) e =
      if e.place ∈ p.discarded s cc now then e.asTombstone else e := by
  have hiff : e.place ∈ p.discarded s cc now ↔ discards (resolveBlob s) cc (cc.expiry now) e =
    true := by
    constructor
    · intro hmem
      obtain ⟨e', he', hplace⟩ := List.mem_map.1 hmem
      obtain ⟨hin, hdis⟩ := mem_filter.1 he'
      rwa [hcopies e' hin e he (congrArg Prod.fst hplace) (congrArg Prod.snd hplace)] at hdis
    · exact fun hdis => List.mem_map.2 ⟨e, mem_filter.2 ⟨he, hdis⟩, rfl⟩
  simp only [afterFilter, hiff]

theorem runCompaction_distinct (h : runCompaction fmt s p retainSeq cc now = .ok (metas, alloc)) :
    ((tablePoints metas).map Entry.place).Nodup ∧
      ∀ w ∈ tablePoints metas, ∃ e ∈ tablePoints p.inputs, e.place = w.place ∧
        resolveCompactionEntry (resolveBlob s) cc e (cc.expiry now) = .ok w := by
  obtain ⟨es, hsorted, hperm, hcol, _, _⟩ := runCompaction_eq_ok h
  refine ⟨?_, fun w hw => ?_⟩
  · have hstart : ((⟨none, false⟩ : KeyState).last.toList ++ es).Pairwise IKeyOrder := hsorted
    refine pairwise_map.2 ((collapse_distinct hstart hcol).imp fun hlt hplace => ?_)
    have huser := congrArg Prod.fst hplace
    have hseq := congrArg Prod.snd hplace
    rcases hlt with hlt | ⟨_, hlt⟩
    · exact absurd huser (ne_of_lt hlt)
    · exact absurd hseq.symm (ne_of_lt hlt)
  · obtain ⟨e, he, hwritten⟩ := mem_collapse hcol hw
    have hkey := resolveCompactionEntry_key hwritten.resolved
    exact ⟨e, hperm.mem_iff.1 he, Prod.ext hkey.1.symm hkey.2.symm, hwritten.resolved⟩

theorem runCompaction_isCollapse_erased {V : Type} {live : Payload → Time → Option V}
    (hlive : ReadsThrough live) (hcopies : CopiesIdentical (tablePoints p.inputs))
    (h : runCompaction fmt s p retainSeq cc now = .ok (metas, alloc)) :
    Mvcc.Store.Collapse live retainSeq (cc.expiry now) (fun k => p.reclaims k = true)
      (eraseAt (p.discarded s cc now) (tablesStore p.inputs)) (tablesStore metas) := by
  obtain ⟨es, hsorted, hperm, hcol, hrts, _⟩ := runCompaction_eq_ok h
  have hes : CopiesIdentical es := fun a ha b hb =>
    hcopies a (hperm.mem_iff.1 ha) b (hperm.mem_iff.1 hb)
  set mw := p.mergeWrite retainSeq cc now (tableRangeDels p.inputs) with hmw
  have hstart : CopiesIdentical ((⟨none, false⟩ : KeyState).last.toList ++ es) := hes
  have hjudged := collapse_afterFilter hstart hcol
  have hmap : es.map (afterFilter (resolveBlob s) mw.cc mw.expiry) =
      es.map fun e => if e.place ∈ p.discarded s cc now then e.asTombstone else e :=
    map_congr_left fun e he => afterFilter_eq_place hcopies (hperm.mem_iff.1 he)
  have hstore : eraseAt (p.discarded s cc now) (tablesStore p.inputs) =
      storeOf (es.map (afterFilter (resolveBlob s) mw.cc mw.expiry)) (tableRangeDels p.inputs) := by
    rw [hmap, storeOf_map_eraseAt]
    exact congrArg _ (storeOf_congr (fun e => hperm.mem_iff.symm) fun _ => Iff.rfl)
  have hout : tablesStore metas = storeOf (tablePoints metas)
      (rangeDelsToPersist (tableRangeDels p.inputs)
        (p.dropTombstones && p.noDeeperTier.isNone) retainSeq) := by
    rw [← hrts, tablesStore]
  rw [hstore, hout]
  refine collapse_isCollapse mw.withoutFilter hlive ?_
    (fun e _ w hw => restates_of_resolve rfl hw) (le_refl _) ?_ hjudged
  · refine pairwise_map.2 (hsorted.imp_of_mem fun ha hb hab => ?_)
    exact afterFilter_order (hes _ ha _ hb) hab
  · rintro _ ⟨x, hx, rfl⟩ _ ⟨y, hy, rfl⟩ hkey hseq t _
    obtain ⟨a, ha, rfl⟩ := List.mem_map.1 hx
    obtain ⟨b, hb, rfl⟩ := List.mem_map.1 hy
    have huser : a.user = b.user := by simpa only [Entry.version_key, afterFilter_user] using hkey
    have hseq' : a.seq = b.seq := by simpa only [Entry.version_seq, afterFilter_seq] using hseq
    rw [hes a ha b hb huser hseq']

end Run

end LevisDB
