import LevisDB.Compaction.Collapse

/-!
# A merge at the latest sequence

When no reader holds the watermark back, the merge loop decides each user key by
its first entry alone and skips the rest. The loop is run here together with the
calls it makes to the compaction filter, which no table records.
-/

namespace LevisDB

open List LevisDB.Except

structure FilterCall where
  key : Key
  value : Bytes
  expiresAt : Time
  deriving DecidableEq

/-- `resolveCompactionEntry`, and the call it makes to the filter. -/
def resolveLogged (resolve : BlobPointer → Except Err Bytes) (cc : CompactionConfig) (e : Entry)
    (now : Time) : Except Err (Entry × Option FilterCall) := do
  match ← filterView resolve cc e now with
  | none => pure (e.asTombstone, none)
  | some (value, expiresAt) =>
    match cc.filter with
    | none => pure (e, none)
    | some filter =>
      if e.kind ≠ .delete ∧ filterSafe cc e.seq = true then
        let keep ← filter e.user value expiresAt
        pure (if keep then e else e.asTombstone, some ⟨e.user, value, expiresAt⟩)
      else pure (e, none)

def decideLogged (resolve : BlobPointer → Except Err Bytes) (mw : MergeWrite)
    (droppedBelow : Bool) (e : Entry) :
    Except Err ((KeyState × Option Entry) × Option FilterCall) :=
  if mw.reclaims e.user = true ∧
      e.seq < maxCoveringRangeDelSeqLE mw.rangeDels e.user mw.retainSeq then
    .ok ((⟨some e, true⟩, none), none)
  else do
    let (w, call) ← resolveLogged resolve mw.cc e mw.expiry
    if mw.reclaims e.user = true ∧ w.kind = .delete ∧ e.seq ≤ mw.retainSeq then
      pure ((⟨some e, true⟩, none), call)
    else
      pure ((⟨some e, if e.seq ≤ mw.retainSeq then true else droppedBelow⟩, some w), call)

def mergeStepLogged (resolve : BlobPointer → Except Err Bytes) (mw : MergeWrite) (ks : KeyState)
    (e : Entry) : Except Err ((KeyState × Option Entry) × Option FilterCall) :=
  match ks.last with
  | none => decideLogged resolve mw false e
  | some last =>
    if last.user ≠ e.user then decideLogged resolve mw false e
    else if e.seq = last.seq then
      (checkSameSeqDuplicate last e mw.expiry).map fun _ => ((ks, none), none)
    else if e.seq < mw.retainSeq ∧ ks.droppedBelow = true then .ok ((ks, none), none)
    else decideLogged resolve mw ks.droppedBelow e

def collapseLogged (resolve : BlobPointer → Except Err Bytes) (mw : MergeWrite) :
    KeyState → List Entry → Except Err (List Entry × List FilterCall)
  | _, [] => .ok ([], [])
  | ks, e :: es => do
      let ((ks', w), call) ← mergeStepLogged resolve mw ks e
      let (rest, calls) ← collapseLogged resolve mw ks' es
      pure (w.toList ++ rest, call.toList ++ calls)

section Logged

variable {resolve : BlobPointer → Except Err Bytes} {cc : CompactionConfig} {mw : MergeWrite}

theorem resolveLogged_fst (e : Entry) (now : Time) :
    (resolveLogged resolve cc e now).map Prod.fst = resolveCompactionEntry resolve cc e now := by
  unfold resolveLogged resolveCompactionEntry
  cases filterView resolve cc e now with
  | error err => rfl
  | ok view =>
    cases view with
    | none => rfl
    | some p =>
      cases hfilter : cc.filter with
      | none => rfl
      | some filter =>
        change Except.map Prod.fst (if _ then _ else _) = if _ then _ else _
        split_ifs
        · cases filter e.user p.1 p.2 <;> rfl
        · rfl

theorem decideLogged_fst (dropped : Bool) (e : Entry) :
    (decideLogged resolve mw dropped e).map Prod.fst = decideVersion resolve mw dropped e := by
  unfold decideLogged decideVersion
  by_cases hcov : mw.reclaims e.user = true ∧
      e.seq < maxCoveringRangeDelSeqLE mw.rangeDels e.user mw.retainSeq
  · rw [if_pos hcov, if_pos hcov]
    rfl
  · rw [if_neg hcov, if_neg hcov, ← resolveLogged_fst]
    cases resolveLogged resolve mw.cc e mw.expiry with
    | error err => rfl
    | ok r =>
      change Except.map Prod.fst (if _ then _ else _) = if _ then _ else _
      split_ifs <;> rfl

theorem mergeStepLogged_fst (ks : KeyState) (e : Entry) :
    (mergeStepLogged resolve mw ks e).map Prod.fst = mergeStep resolve mw ks e := by
  unfold mergeStepLogged mergeStep
  cases ks.last with
  | none => exact decideLogged_fst false e
  | some last =>
    dsimp only
    split_ifs
    · exact decideLogged_fst false e
    · cases checkSameSeqDuplicate last e mw.expiry <;> rfl
    · rfl
    · exact decideLogged_fst ks.droppedBelow e

theorem collapseLogged_fst (ks : KeyState) (es : List Entry) :
    (collapseLogged resolve mw ks es).map Prod.fst = collapse resolve mw ks es := by
  induction es generalizing ks with
  | nil => rfl
  | cons e es ih =>
    rw [collapseLogged, collapse, ← mergeStepLogged_fst]
    cases mergeStepLogged resolve mw ks e with
    | error err => rfl
    | ok r =>
      obtain ⟨⟨ks', w⟩, call⟩ := r
      change Except.map Prod.fst (Except.bind (collapseLogged resolve mw ks' es) _) =
        Except.bind (collapse resolve mw ks' es) _
      rw [← ih ks']
      cases collapseLogged resolve mw ks' es <;> rfl

theorem collapse_logged {ks : KeyState} {es ws : List Entry}
    (h : collapse resolve mw ks es = .ok ws) :
    ∃ calls, collapseLogged resolve mw ks es = .ok (ws, calls) := by
  rw [← collapseLogged_fst] at h
  cases hrun : collapseLogged resolve mw ks es with
  | error err =>
    rw [hrun] at h
    cases h
  | ok r =>
    rw [hrun] at h
    obtain ⟨ws', calls⟩ := r
    cases h
    exact ⟨calls, rfl⟩

theorem collapseLogged_no_filter (hfilter : mw.cc.filter = none) {ks : KeyState}
    {es ws : List Entry}
    {calls : List FilterCall} (h : collapseLogged resolve mw ks es = .ok (ws, calls)) :
    calls = [] := by
  have hresolve : ∀ {e : Entry} {r : Entry × Option FilterCall},
      resolveLogged resolve mw.cc e mw.expiry = .ok r → r.2 = none := by
    intro e r h
    unfold resolveLogged at h
    obtain ⟨view, _, h⟩ := bind_eq_ok.1 h
    cases view with
    | none => cases h; rfl
    | some p =>
      simp only [hfilter] at h
      cases h
      rfl
  have hdecide : ∀ {d : Bool} {e : Entry} {r}, decideLogged resolve mw d e = .ok r →
      r.2 = none := by
    intro d e r h
    unfold decideLogged at h
    by_cases hcov : mw.reclaims e.user = true ∧
        e.seq < maxCoveringRangeDelSeqLE mw.rangeDels e.user mw.retainSeq
    · rw [if_pos hcov] at h
      cases h
      rfl
    · rw [if_neg hcov] at h
      obtain ⟨q, hq, h⟩ := bind_eq_ok.1 h
      have hnone := hresolve hq
      dsimp only at h
      split_ifs at h <;> cases h <;> exact hnone
  induction es generalizing ks ws calls with
  | nil =>
    cases h
    rfl
  | cons e es ih =>
    rw [collapseLogged] at h
    obtain ⟨⟨⟨ks', w⟩, call⟩, hstep, h⟩ := bind_eq_ok.1 h
    obtain ⟨⟨rest, more⟩, hrest, h⟩ := bind_eq_ok.1 h
    have hcall : call = none := by
      unfold mergeStepLogged at hstep
      split at hstep
      · exact hdecide hstep
      · split_ifs at hstep
        · exact hdecide hstep
        · cases hdup : checkSameSeqDuplicate _ e mw.expiry <;> rw [hdup] at hstep <;> cases hstep
          rfl
        · cases hstep
          rfl
        · exact hdecide hstep
    cases h
    rw [hcall, ih hrest]
    rfl

end Logged

/-- The first entry of each stretch of one user key, after entries of `last`. -/
def heads : Option Key → List Entry → List Entry
  | _, [] => []
  | last, e :: es => if last = some e.user then heads last es else e :: heads (some e.user) es

theorem heads_sublist (last : Option Key) (es : List Entry) : (heads last es).Sublist es := by
  induction es generalizing last with
  | nil => exact List.Sublist.refl _
  | cons e es ih =>
    rw [heads]
    split_ifs
    · exact (ih last).cons e
    · exact (ih (some e.user)).cons_cons e

theorem exists_head {last : Option Key} {es : List Entry} (hsorted : es.Pairwise IKeyOrder)
    {e : Entry} (he : e ∈ es) (hlast : last ≠ some e.user) :
    ∃ h ∈ heads last es, h.user = e.user ∧ e.seq ≤ h.seq := by
  induction es generalizing last with
  | nil => cases he
  | cons a es ih =>
    rw [pairwise_cons] at hsorted
    rw [heads]
    rcases mem_cons.1 he with rfl | he
    · rw [if_neg hlast]
      exact ⟨e, mem_cons_self, rfl, Nat.le_refl _⟩
    · by_cases hsame : last = some a.user
      · rw [if_pos hsame]
        exact ih hsorted.2 he hlast
      · rw [if_neg hsame]
        by_cases huser : a.user = e.user
        · exact ⟨a, mem_cons_self, huser, (hsorted.1 e he).seq_le huser⟩
        · obtain ⟨h, hh, hrest⟩ := ih hsorted.2 he (fun heq => huser (Option.some.inj heq))
          exact ⟨h, mem_cons_of_mem _ hh, hrest⟩

theorem heads_ascending {last : Option Key} {es : List Entry} (hsorted : es.Pairwise IKeyOrder)
    (hlast : ∀ k ∈ last, ∀ e ∈ es, k ≤ e.user) :
    (heads last es).Pairwise (fun a b => a.user < b.user) ∧
      ∀ k ∈ last, ∀ h ∈ heads last es, k < h.user := by
  induction es generalizing last with
  | nil => exact ⟨List.Pairwise.nil, fun _ _ _ hh => absurd hh not_mem_nil⟩
  | cons e es ih =>
    rw [pairwise_cons] at hsorted
    rw [heads]
    split_ifs with hsame
    · exact ih hsorted.2 fun k hk x hx => hlast k hk x (mem_cons_of_mem _ hx)
    · have hnext : ∀ k ∈ some e.user, ∀ x ∈ es, k ≤ x.user := by
        intro k hk x hx
        cases hk
        exact (hsorted.1 x hx).user_le
      obtain ⟨hpair, habove⟩ := ih hsorted.2 hnext
      refine ⟨pairwise_cons.2 ⟨habove e.user rfl, hpair⟩, fun k hk h hh => ?_⟩
      have hke : k < e.user := by
        refine lt_of_le_of_ne (hlast k hk e mem_cons_self) fun heq => hsame ?_
        rw [← heq]
        exact hk
      rcases mem_cons.1 hh with rfl | hh
      · exact hke
      · exact lt_trans hke (habove e.user rfl h hh)

section Latest

variable {resolve : BlobPointer → Except Err Bytes} {mw : MergeWrite}

theorem decideLogged_state {dropped : Bool} {e : Entry} (hseq : e.seq ≤ mw.retainSeq)
    {r : (KeyState × Option Entry) × Option FilterCall}
    (h : decideLogged resolve mw dropped e = .ok r) :
    r.1.1 = ⟨some e, true⟩ ∧ decideLogged resolve mw false e = .ok r := by
  unfold decideLogged at h ⊢
  by_cases hcov : mw.reclaims e.user = true ∧
      e.seq < maxCoveringRangeDelSeqLE mw.rangeDels e.user mw.retainSeq
  · rw [if_pos hcov] at h ⊢
    cases h
    exact ⟨rfl, rfl⟩
  · rw [if_neg hcov] at h ⊢
    simp only [hseq, and_true, if_true] at h ⊢
    refine ⟨?_, h⟩
    obtain ⟨q, _, h⟩ := bind_eq_ok.1 h
    split_ifs at h <;> cases h <;> rfl

theorem collapseLogged_latest {ks : KeyState} {es ws : List Entry} {calls : List FilterCall}
    (hsorted : es.Pairwise IKeyOrder) (hseq : ∀ e ∈ es, e.seq ≤ mw.retainSeq)
    (hlast : ∀ l ∈ ks.last, ks.droppedBelow = true ∧ l.seq ≤ mw.retainSeq ∧
      ∀ e ∈ es, IKeyOrder l e)
    (h : collapseLogged resolve mw ks es = .ok (ws, calls)) :
    ∃ decided : List (Entry × Option Entry × Option FilterCall),
      decided.map (·.1) = heads (ks.last.map (·.user)) es ∧
      (∀ p ∈ decided, decideLogged resolve mw false p.1 = .ok ((⟨some p.1, true⟩, p.2.1), p.2.2)) ∧
      ws = decided.filterMap (·.2.1) ∧ calls = decided.filterMap (·.2.2) := by
  induction es generalizing ks ws calls with
  | nil =>
    cases h
    exact ⟨[], rfl, by simp, rfl, rfl⟩
  | cons e es ih =>
    rw [pairwise_cons] at hsorted
    rw [collapseLogged] at h
    obtain ⟨⟨⟨ks', w⟩, call⟩, hstep, h⟩ := bind_eq_ok.1 h
    obtain ⟨⟨rest, more⟩, hrest, h⟩ := bind_eq_ok.1 h
    cases h
    have hse := hseq e mem_cons_self
    by_cases hsame : ks.last.map (·.user) = some e.user
    · -- A later entry of the key just decided: the state does not move.
      obtain ⟨l, hl, huser⟩ := Option.map_eq_some_iff.1 hsame
      obtain ⟨hdrop, hlseq, hord⟩ := hlast l hl
      have hskip : ks' = ks ∧ w = none ∧ call = none := by
        have hle := (hord e mem_cons_self).seq_le huser
        unfold mergeStepLogged at hstep
        rw [hl] at hstep
        simp only [huser, ne_eq, not_true_eq_false, if_false, hdrop, and_true] at hstep
        split_ifs at hstep
        · cases hdup : checkSameSeqDuplicate l e mw.expiry <;> rw [hdup] at hstep <;> cases hstep
          exact ⟨rfl, rfl, rfl⟩
        · cases hstep
          exact ⟨rfl, rfl, rfl⟩
        · omega
      obtain ⟨rfl, rfl, rfl⟩ := hskip
      obtain ⟨decided, hrest'⟩ := ih hsorted.2
        (fun x hx => hseq x (mem_cons_of_mem _ hx))
        (fun l hl => ⟨(hlast l hl).1, (hlast l hl).2.1,
          fun x hx => (hlast l hl).2.2 x (mem_cons_of_mem _ hx)⟩) hrest
      rw [heads, if_pos hsame]
      exact ⟨decided, hrest'⟩
    · have hdecide : ∃ d, decideLogged resolve mw d e = .ok ((ks', w), call) := by
        unfold mergeStepLogged at hstep
        cases hl : ks.last with
        | none =>
          rw [hl] at hstep
          exact ⟨false, hstep⟩
        | some l =>
          have hne : l.user ≠ e.user := by
            intro heq
            exact hsame (by rw [hl, Option.map_some, heq])
          rw [hl] at hstep
          simp only [ne_eq, hne, not_false_eq_true, if_true] at hstep
          exact ⟨false, hstep⟩
      obtain ⟨d, hd⟩ := hdecide
      obtain ⟨hks, hfalse⟩ := decideLogged_state hse hd
      obtain rfl : ks' = ⟨some e, true⟩ := hks
      obtain ⟨decided, hheads, hall, rfl, rfl⟩ := ih hsorted.2
        (fun x hx => hseq x (mem_cons_of_mem _ hx))
        (by
          intro l hl
          cases hl
          exact ⟨rfl, hse, hsorted.1⟩) hrest
      rw [heads, if_neg hsame]
      refine ⟨(e, w, call) :: decided, by rw [map_cons, hheads]; rfl, ?_, ?_, ?_⟩
      · intro p hp
        rcases mem_cons.1 hp with rfl | hp
        · exact hfalse
        · exact hall p hp
      · cases w <;> rfl
      · cases call <;> rfl

theorem liveAt_of_filterView_some {cc : CompactionConfig} {e : Entry} {now : Time}
    {shown : Bytes × Time} (h : filterView resolve cc e now = .ok (some shown))
    (hkind : e.kind ≠ .delete) : e.payload.liveAt now ≠ none := by
  cases filterView_viewed h with
  | deleted hdeleted => exact absurd hdeleted hkind
  | inline hlive => simp [hlive]
  | blob _ _ hlive _ => simp [hlive]

theorem resolveCompactionEntry_live {cc : CompactionConfig} {e w : Entry} {now : Time}
    (h : resolveCompactionEntry resolve cc e now = .ok w) (hkind : w.kind ≠ .delete) :
    w = e ∧ e.payload.liveAt now ≠ none := by
  have hsame : w = e := (resolveCompactionEntry_form h).resolve_right fun htomb => by
    rw [htomb] at hkind
    exact hkind rfl
  subst hsame
  unfold resolveCompactionEntry at h
  obtain ⟨view, hview, h⟩ := bind_eq_ok.1 h
  cases view with
  | none =>
    have := Except.ok.inj h
    rw [← this] at hkind
    exact absurd rfl hkind
  | some shown => exact ⟨rfl, liveAt_of_filterView_some hview hkind⟩

theorem decideLogged_some {e w : Entry} {ks : KeyState} {call : Option FilterCall}
    (hrec : mw.reclaims e.user = true) (hseq : e.seq ≤ mw.retainSeq)
    (h : decideLogged resolve mw false e = .ok ((ks, some w), call)) :
    w = e ∧ e.payload.liveAt mw.expiry ≠ none ∧
      maxCoveringRangeDelSeqLE mw.rangeDels e.user mw.retainSeq ≤ e.seq := by
  have hdecide : decideVersion resolve mw false e = .ok (ks, some w) := by
    rw [← decideLogged_fst, h]
    rfl
  have hwritten := decideVersion_written hdecide
  obtain ⟨hsame, hlive⟩ := resolveCompactionEntry_live hwritten.resolved (hwritten.kept hrec hseq)
  exact ⟨hsame, hlive, hwritten.uncovered hrec⟩

theorem collapse_latest {es ws : List Entry} (hsorted : es.Pairwise IKeyOrder)
    (hseq : ∀ e ∈ es, e.seq ≤ mw.retainSeq) (hrec : ∀ k, mw.reclaims k = true)
    (h : collapse resolve mw ⟨none, false⟩ es = .ok ws) :
    ws.Sublist (heads none es) ∧ ∀ w ∈ ws, w.payload.liveAt mw.expiry ≠ none ∧
      maxCoveringRangeDelSeqLE mw.rangeDels w.user mw.retainSeq ≤ w.seq := by
  obtain ⟨calls, hlog⟩ := collapse_logged h
  obtain ⟨decided, hheads, hall, rfl, -⟩ := collapseLogged_latest hsorted hseq (by simp) hlog
  change decided.map (·.1) = heads none es at hheads
  have hwritten : ∀ p ∈ decided, ∀ w, p.2.1 = some w → w = p.1 ∧
      w.payload.liveAt mw.expiry ≠ none ∧
      maxCoveringRangeDelSeqLE mw.rangeDels w.user mw.retainSeq ≤ w.seq := by
    intro p hp w hw
    have hmem : p.1 ∈ heads none es := hheads ▸ mem_map.2 ⟨p, hp, rfl⟩
    have hdecide := hall p hp
    rw [hw] at hdecide
    obtain ⟨rfl, hlive⟩ := decideLogged_some (hrec p.1.user)
      (hseq p.1 ((heads_sublist none es).subset hmem)) hdecide
    exact ⟨rfl, hlive⟩
  refine ⟨?_, fun w hw => ?_⟩
  · rw [← hheads]
    clear hheads hlog h hall
    induction decided with
    | nil => exact List.Sublist.refl _
    | cons p decided ih =>
      have ih := ih fun q hq => hwritten q (mem_cons_of_mem _ hq)
      rw [filterMap_cons]
      cases hw : p.2.1 with
      | none => exact ih.cons _
      | some w =>
        obtain ⟨rfl, _⟩ := hwritten p mem_cons_self w hw
        exact ih.cons_cons _
  · obtain ⟨p, hp, hpw⟩ := mem_filterMap.1 hw
    exact (hwritten p hp w hpw).2

end Latest

end LevisDB
