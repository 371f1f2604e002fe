import LevisDB.Db.Replication

/-!
# The update stream has no silent gap

Whatever files are left and whatever state they are in, every record in them was
journaled by this session, and a record at or below the captured watermark was
published whole.
-/

namespace LevisDB

open List

namespace Replication

open GroupCommit

def between (lo hi : Nat) (es : List WalEntry) : List WalEntry :=
  es.filter fun e => decide (lo < e.seq ∧ e.seq ≤ hi)

theorem between_cons (lo hi : Nat) (e : WalEntry) (es : List WalEntry) :
    between lo hi (e :: es) =
      if lo < e.seq ∧ e.seq ≤ hi then e :: between lo hi es else between lo hi es := by
  simp [between, filter_cons]

theorem between_append (lo hi : Nat) (es es' : List WalEntry) :
    between lo hi (es ++ es') = between lo hi es ++ between lo hi es' := filter_append ..

theorem between_eq_nil {lo hi : Nat} {es : List WalEntry}
    (h : ∀ e ∈ es, e.seq ≤ lo ∨ hi < e.seq) : between lo hi es = [] := by
  refine filter_eq_nil_iff.2 fun e he => ?_
  have hout := h e he
  simp only [decide_eq_true_eq]
  omega

theorem between_empty {lo hi : Nat} (h : hi ≤ lo) (es : List WalEntry) : between lo hi es = [] :=
  between_eq_nil fun e _ => by omega

theorem between_split {es : List WalEntry} (h : Ascending es) {lo mid hi : Nat} (hlo : lo ≤ mid)
    (hhi : mid ≤ hi) : between lo hi es = between lo mid es ++ between mid hi es := by
  induction es with
  | nil => rfl
  | cons e es ih =>
    obtain ⟨hfirst, hrest⟩ := pairwise_cons.1 h
    have ih := ih hrest
    rw [between_cons, between_cons, between_cons]
    by_cases hmid : e.seq ≤ mid
    · rw [if_neg (by omega : ¬ (mid < e.seq ∧ e.seq ≤ hi)), ih]
      by_cases hle : lo < e.seq
      · rw [if_pos ⟨hle, by omega⟩, if_pos ⟨hle, hmid⟩, cons_append]
      · rw [if_neg (by omega), if_neg (by omega)]
    · -- Everything from here on lies past `mid`.
      have hnone : between lo mid es = [] := between_eq_nil fun e' he' => by
        have hlt := hfirst e' he'
        omega
      rw [if_neg (by omega : ¬ (lo < e.seq ∧ e.seq ≤ mid)), ih, hnone, nil_append]
      by_cases hle : e.seq ≤ hi
      · rw [if_pos ⟨by omega, hle⟩, if_pos ⟨by omega, hle⟩, nil_append]
      · rw [if_neg (by omega), if_neg (by omega), nil_append]

theorem between_batch {bs : List Batch} (hasc : Ascending bs.flatten) {b : Batch} (hb : b ∈ bs)
    {mid : Nat} (hfirst : firstSeq b ≤ mid + 1) (hnum : Numbered b) :
    between mid (lastSeq b) bs.flatten = b.filter fun e => decide (mid < e.seq) := by
  obtain ⟨before, after, rfl⟩ := append_of_mem hb
  rw [flatten_append, flatten_cons] at hasc ⊢
  obtain ⟨_, hrest, hbefore⟩ := pairwise_append.1 hasc
  obtain ⟨_, _, hafter⟩ := pairwise_append.1 hrest
  obtain ⟨e₀, he₀, hlast⟩ := hnum.exists_last
  have hhead : ∃ e ∈ b, e.seq = firstSeq b := by
    cases b with
    | nil => exact absurd rfl hnum.ne_nil
    | cons e es => exact ⟨e, by simp, rfl⟩
  obtain ⟨e₁, he₁, hfirst₁⟩ := hhead
  have hbeforeNil : between mid (lastSeq b) before.flatten = [] := between_eq_nil fun e he => by
    have hlt := hbefore e he e₁ (mem_append_left _ he₁)
    omega
  have hafterNil : between mid (lastSeq b) after.flatten = [] := between_eq_nil fun e he => by
    have hlt := hafter e₀ he₀ e he
    omega
  rw [between_append, between_append, hbeforeNil, hafterNil, nil_append, append_nil]
  refine filter_congr fun e he => ?_
  have hle := hnum.seq_le he
  simp [hle]

theorem convertWALBatch_eq {since maxSeen : Nat} (hle : since ≤ maxSeen) {b : Batch}
    (hasc : Ascending b) :
    convertWALBatch since maxSeen b =
      (b.foldl (fun n e => max n e.seq) maxSeen,
        (b.filter fun e => decide (maxSeen < e.seq)).map publicEntry) := by
  induction b generalizing maxSeen with
  | nil => rfl
  | cons e es ih =>
    obtain ⟨hfirst, hrest⟩ := pairwise_cons.1 hasc
    rw [convertWALBatch]
    by_cases hseen : e.seq ≤ maxSeen
    · rw [if_pos (Or.inr hseen), ih hle hrest]
      simp [Nat.max_eq_left hseen, Nat.not_lt.2 hseen]
    · have hlt : maxSeen < e.seq := by omega
      rw [if_neg (by omega), ih (by omega) hrest]
      have hall : es.filter (fun x => decide (e.seq < x.seq)) =
          es.filter fun x => decide (maxSeen < x.seq) := by
        refine filter_congr fun x hx => ?_
        have hx' := hfirst x hx
        simp [hx', Nat.lt_trans hlt hx']
      simp [hall, hlt, Nat.max_eq_right (Nat.le_of_lt hlt)]

theorem foldl_max_assignSeqs (base : Nat) (es : List WalEntry) (n : Nat) :
    (assignSeqs base es).foldl (fun n e => max n e.seq) n =
      if es = [] then n else max n (base + es.length - 1) := by
  induction es generalizing base n with
  | nil => rfl
  | cons e es ih =>
    rw [assignSeqs, foldl_cons, ih]
    cases es with
    | nil => simp
    | cons e' es =>
      simp only [reduceCtorEq, if_false, length_cons]
      omega

theorem foldl_max_eq {b : Batch} (hnum : Numbered b) (n : Nat) :
    b.foldl (fun n e => max n e.seq) n = max n (lastSeq b) := by
  obtain ⟨base, es, hne, rfl⟩ := hnum
  have hlast := lastSeq_assignSeqs base hne
  rw [foldl_max_assignSeqs, if_neg hne]
  omega

/-- What a call has emitted once everything up to `maxSeen` is accounted for. -/
structure Emitted (published : List Batch) (since cutoff : Nat) (st : Nat × List (List Update)) :
    Prop where
  past : since ≤ st.1
  within : st.1 ≤ cutoff
  exact : st.2.flatten = (between since st.1 published.flatten).map publicEntry
  reached : since < st.1 → ∃ e ∈ published.flatten, e.seq = st.1

theorem Emitted.emit {published : List Batch} {c : Call} {st : Nat × List (List Update)}
    (h : Emitted published c.since c.cutoff st) (hasc : Ascending published.flatten) {b : Batch}
    (hb : b ∈ published) (hnum : Numbered b) (hfirst : firstSeq b ≤ st.1 + 1)
    (hlast : lastSeq b ≤ c.cutoff) : Emitted published c.since c.cutoff (c.emit st b) := by
  have hascb : Ascending b := by
    obtain ⟨base, es, _, rfl⟩ := hnum
    exact assignSeqs_ascending base es
  have hpast := h.past
  have hwithin := h.within
  have hconv := convertWALBatch_eq hpast hascb
  rw [foldl_max_eq hnum] at hconv
  have hflat : (c.emit st b).2.flatten =
      st.2.flatten ++ (b.filter fun e => decide (st.1 < e.seq)).map publicEntry := by
    simp only [Call.emit, hconv]
    split_ifs with hnil
    · rw [hnil, append_nil]
    · simp
  have hmax : (c.emit st b).1 = max st.1 (lastSeq b) := by
    simp only [Call.emit, hconv]
  refine ⟨by omega, by omega, ?_, fun hlt => ?_⟩
  · rw [hflat, h.exact, hmax, ← map_append, ← between_batch hasc hb hfirst hnum]
    congr 1
    rcases Nat.le_total (lastSeq b) st.1 with hle | hle
    · rw [Nat.max_eq_left hle, between_empty hle, append_nil]
    · rw [Nat.max_eq_right hle, between_split hasc hpast hle]
  · rcases Nat.le_total (lastSeq b) st.1 with hle | hle
    · rw [hmax, Nat.max_eq_left hle] at hlt ⊢
      exact h.reached hlt
    · obtain ⟨e, he, hlast⟩ := hnum.exists_last
      exact ⟨e, mem_flatten.2 ⟨b, hb, he⟩, by rw [hlast, hmax, Nat.max_eq_right hle]⟩

def Visit.Holds {σ : Type} (P : σ → Prop) : Visit σ → Prop
  | .next st => P st
  | .stop st => P st
  | .fail _ => True

theorem visitRecords_holds {σ : Type} {P : σ → Prop} {lenient strictTail : Bool}
    {visit : σ → Batch → Visit σ} {tail : Tail} {records : List Batch}
    (hvisit : ∀ b ∈ records, ∀ st, P st → (visit st b).Holds P) {st : σ} (hst : P st) (last : Nat) :
    (visitRecords lenient strictTail visit tail st last records).Holds P := by
  induction records generalizing st last with
  | nil =>
    unfold visitRecords
    cases tail with
    | clean => exact hst
    | torn =>
      dsimp only
      split_ifs
      · exact hst
      · trivial
      · exact hst
    | corrupt =>
      dsimp only
      split_ifs
      · exact hst
      · trivial
  | cons b records ih =>
    cases b with
    | nil =>
      unfold visitRecords
      split_ifs
      · exact hst
      · trivial
    | cons e es =>
      unfold visitRecords
      split_ifs
      · exact hst
      · trivial
      · have hv := hvisit (e :: es) (by simp) st hst
        cases hr : visit st (e :: es) with
        | next st' =>
          rw [hr] at hv
          exact ih (fun b hb => hvisit b (by simp [hb])) hv _
        | stop st' =>
          rw [hr] at hv
          exact hv
        | fail err => trivial

/-- A reply that carries a stream carries the whole stretch, which ends at the
watermark. -/
def Complete (committed : List WalEntry) (r : Reply) : Prop :=
  ∀ out, r.result = .ok out →
    out.flatten = (between r.since r.cutoff committed).map publicEntry ∧
      (r.since < r.cutoff → ∃ e ∈ committed, e.seq = r.cutoff)

/-- A call that has nothing to read reads nothing. -/
def Ahead (r : Reply) : Prop :=
  r.cutoff ≤ r.since → r.result = .ok [] ∨ r.result = .error .retentionExpired

structure Inv (s : State) : Prop where
  core : GroupCommit.Inv s.core
  others : ∀ seg ∈ s.others, ∀ b ∈ seg.records, b ∈ s.core.trace.journaled
  horizon : s.core.startSeq ≤ s.reapedThroughSeq
  earlier : ∀ e ∈ s.earlier, e.seq ≤ s.core.startSeq
  ascending : Ascending s.earlier
  call : ∀ c, s.call = some c → s.core.startSeq ≤ c.since ∧ c.since < c.cutoff ∧
    c.cutoff ≤ s.core.readSeq ∧ Emitted s.core.trace.published c.since c.cutoff (c.maxSeen, c.out)
  replies : ∀ r ∈ s.replies, r.cutoff ≤ s.core.readSeq ∧ Ahead r ∧ Complete s.committed r

theorem Inv.start {startSeq : Nat} (hstart : startSeq ≤ maxIKeySeq) (sync retain : Bool) (num : Nat)
    {earlier : List WalEntry} (hearlier : ∀ e ∈ earlier, e.seq ≤ startSeq)
    (hasc : Ascending earlier) : Inv (State.start sync retain startSeq num earlier) where
  core := .start hstart sync num
  others := by simp [State.start]
  horizon := Nat.le_refl _
  earlier := hearlier
  ascending := hasc
  call := by simp [State.start]
  replies := by simp [State.start]

namespace Inv

variable {s : State}

section

variable (h : Inv s)
include h

theorem segment_records {num : Nat} {seg : Segment} (hseg : s.segment num = some seg) :
    ∀ b ∈ seg.records, b ∈ s.core.trace.journaled := by
  unfold State.segment at hseg
  split_ifs at hseg
  · cases hseg
    exact fun b hb => h.core.files.live_journaled hb
  · exact h.others seg (List.mem_of_find?_eq_some hseg)

theorem between_committed {lo hi : Nat} (hlo : s.core.startSeq ≤ lo) :
    between lo hi s.committed = between lo hi s.core.trace.published.flatten := by
  have hnil : between lo hi s.earlier = [] := between_eq_nil fun e he => by
    have hle := h.earlier e he
    omega
  rw [State.committed, between_append, hnil, nil_append]

theorem ascending_published : Ascending s.core.trace.published.flatten := by
  obtain ⟨rest, hrest⟩ := h.core.order.nested.applied.trans h.core.order.nested.written
  have hasc := h.core.sequences.ascending
  rw [← hrest, flatten_append] at hasc
  exact (pairwise_append.1 hasc).1

theorem ascending_committed : Ascending s.committed := by
  refine pairwise_append.2 ⟨h.ascending, h.ascending_published, fun a ha e he => ?_⟩
  obtain ⟨b, hb, heb⟩ := mem_flatten.1 he
  have henq := (h.core.order.nested.applied.trans h.core.order.nested.written).subset hb
  exact Nat.lt_of_le_of_lt (h.earlier a ha) (h.core.sequences.range b henq e heb).1

theorem published_of_le {b : Batch} (hb : b ∈ s.core.trace.journaled)
    (hle : lastSeq b ≤ s.core.readSeq) : b ∈ s.core.trace.published ∧ Numbered b := by
  have henq := h.core.order.nested.written.subset hb
  have hnum := h.core.sequences.numbered b henq
  refine ⟨?_, hnum⟩
  by_contra hnot
  obtain ⟨e, he, hlast⟩ := hnum.exists_last
  have hlt := h.core.sequences.hidden b henq hnot e he
  omega

theorem visit {c : Call} (hcutoff : c.cutoff ≤ s.core.readSeq) {b : Batch}
    (hb : b ∈ s.core.trace.journaled) {st : Nat × List (List Update)}
    (hst : Emitted s.core.trace.published c.since c.cutoff st) :
    (c.visit st b).Holds (Emitted s.core.trace.published c.since c.cutoff) := by
  unfold Call.visit
  split_ifs with hpast hgap hend
  · exact hst
  · trivial
  · obtain ⟨hpub, hnum⟩ := h.published_of_le hb (by omega)
    exact hst.emit h.ascending_published hpub hnum (by omega) (by omega)
  · obtain ⟨hpub, hnum⟩ := h.published_of_le hb (by omega)
    exact hst.emit h.ascending_published hpub hnum (by omega) (by omega)

theorem grow {core : GroupCommit.State} (hcore : GroupCommit.Inv core)
    (hgrows : Grows s.core core) : Inv { s with core := core } := by
  obtain ⟨more, hmore, habove⟩ := hgrows.published
  have hsame : ∀ lo hi, hi ≤ s.core.readSeq → between lo hi core.trace.published.flatten =
      between lo hi s.core.trace.published.flatten := by
    intro lo hi hle
    have hnil : between lo hi more.flatten = [] := between_eq_nil fun e he => by
      have hlt := habove e he
      omega
    rw [hmore, flatten_append, between_append, hnil, append_nil]
  have hread := hgrows.readSeq
  refine ⟨hcore, fun seg hseg b hb => hgrows.journaled.subset (h.others seg hseg b hb), ?_, ?_,
    h.ascending, fun c hc => ?_, fun r hr => ?_⟩
  · exact hgrows.startSeq ▸ h.horizon
  · exact hgrows.startSeq ▸ h.earlier
  · obtain ⟨hsince, hopen, hcutoff, hemitted⟩ := h.call c hc
    refine ⟨hgrows.startSeq ▸ hsince, hopen, Nat.le_trans hcutoff hread, hemitted.past,
      hemitted.within, ?_,
      fun hlt => ?_⟩
    · rw [hsame _ _ (Nat.le_trans hemitted.within hcutoff)]
      exact hemitted.exact
    · obtain ⟨e, he, heq⟩ := hemitted.reached hlt
      exact ⟨e, by simp [hmore, he], heq⟩
  · obtain ⟨hcutoff, hahead, hcomplete⟩ := h.replies r hr
    refine ⟨Nat.le_trans hcutoff hread, hahead, fun out hout => ?_⟩
    obtain ⟨heq, hend⟩ := hcomplete out hout
    refine ⟨?_, fun hlt => ?_⟩
    · rw [State.committed, between_append] at heq ⊢
      rw [hsame _ _ hcutoff]
      exact heq
    · obtain ⟨e, he, heq⟩ := hend hlt
      refine ⟨e, ?_, heq⟩
      rcases mem_append.1 he with he | he
      · exact mem_append_left _ he
      · exact mem_append_right _ (by simp [hmore, he])

theorem reply {since cutoff : Nat} {result : Except Err (List (List Update))}
    (hcutoff : cutoff ≤ s.core.readSeq) (hahead : Ahead ⟨since, cutoff, result⟩)
    (hcomplete : Complete s.committed ⟨since, cutoff, result⟩) :
    Inv (s.reply since cutoff result) :=
  { h with
    call := by simp [State.reply]
    replies := fun r hr => by
      rcases mem_append.1 hr with hr | hr
      · exact h.replies r hr
      · rw [mem_singleton.1 hr]
        exact ⟨hcutoff, hahead, hcomplete⟩ }

theorem ahead {c : Call} (hc : s.call = some c) (result : Except Err (List (List Update))) :
    Ahead ⟨c.since, c.cutoff, result⟩ :=
  fun hle => absurd (h.call c hc).2.1 (Nat.not_lt.2 hle)

theorem finish {c : Call} (hc : s.call = some c) {st : Nat × List (List Update)}
    (hst : Emitted s.core.trace.published c.since c.cutoff st) :
    Inv (s.reply c.since c.cutoff (c.finish st)) := by
  obtain ⟨hsince, _, hcutoff, _⟩ := h.call c hc
  refine h.reply hcutoff (h.ahead hc _) fun out hout => ?_
  simp only [Call.finish] at hout
  split_ifs at hout with hend
  cases hout
  have heq := not_not.1 hend
  refine ⟨?_, fun hlt => ?_⟩
  · rw [hst.exact, h.between_committed hsince, heq]
  · obtain ⟨e, he, hseq⟩ := hst.reached (heq ▸ hlt)
    exact ⟨e, mem_append_right _ he, hseq.trans heq⟩

theorem updatesBegin (since : Nat) :
    Inv (s.updatesBegin since) := by
  unfold State.updatesBegin
  have hhorizon : s.core.startSeq ≤ s.horizon := by
    have hle := h.horizon
    unfold State.horizon
    split_ifs
    · exact hle
    · omega
  split_ifs with hexpired hahead
  · exact h.reply (Nat.le_refl _) (fun _ => .inr rfl) fun out hout => by cases hout
  · refine h.reply (Nat.le_refl _) (fun _ => .inl rfl) fun out hout => ?_
    cases hout
    refine ⟨?_, fun hlt => absurd hahead (Nat.not_le.2 hlt)⟩
    change _ = (between since s.core.readSeq _).map publicEntry
    rw [between_empty hahead]
    rfl
  · refine { h with call := fun c hc => ?_ }
    cases hc
    refine ⟨Nat.le_trans hhorizon (Nat.not_lt.1 hexpired), Nat.not_le.1 hahead, Nat.le_refl _,
      Nat.le_refl _, Nat.le_of_lt (Nat.not_le.1 hahead), ?_, fun hlt =>
        absurd hlt (Nat.lt_irrefl _)⟩
    rw [between_empty (Nat.le_refl _)]
    rfl

theorem updatesRead {c : Call} (hc : s.call = some c) (opens : Bool) :
    Inv (s.updatesRead c opens) := by
  obtain ⟨hsince, hopen, hcutoff, hst⟩ := h.call c hc
  unfold State.updatesRead
  split
  · exact h.finish hc hst
  · rename_i num rest htodo
    split
    · exact h.reply hcutoff (h.ahead hc _) fun out hout => by cases hout
    · rename_i seg hseg
      have hfile : s.segment num = some seg := by
        split_ifs at hseg
        exact hseg
      have hpass : (visitRecords false (decide (num ≠ s.core.live.num)) c.visit seg.tail
          (c.maxSeen, c.out) 0 seg.records).Holds
          (Emitted s.core.trace.published c.since c.cutoff) :=
        visitRecords_holds
          (fun b hb st hst => h.visit hcutoff (h.segment_records hfile b hb) hst) hst 0
      split
      · exact h.reply hcutoff (h.ahead hc _) fun out hout => by cases hout
      · rename_i st hstop
        rw [hstop] at hpass
        exact h.finish hc hpass
      · rename_i st hnext
        rw [hnext] at hpass
        refine { h with call := fun c' hc' => ?_ }
        cases hc'
        exact ⟨hsince, hopen, hcutoff, hpass⟩

theorem files {others : List Segment}
    (hsub : ∀ seg ∈ others, ∀ b ∈ seg.records, ∃ seg' ∈ s.others, b ∈ seg'.records) :
    Inv { s with others := others } :=
  { h with
    others := fun seg hseg b hb => by
      obtain ⟨seg', hseg', hb'⟩ := hsub seg hseg b hb
      exact h.others seg' hseg' b hb' }

theorem dropFiles (nums : List Nat) : Inv (s.dropFiles nums) :=
  h.files fun seg hseg _ hb => ⟨seg, (mem_filter.1 hseg).1, hb⟩

theorem rotate {num : Nat} {s' : State} (hstep : s.rotate num = some s') : Inv s' := by
  obtain ⟨core, hcore, rfl⟩ := Option.map_eq_some_iff.1 hstep
  have hgrow := h.grow (h.core.step hcore) (Grows.step h.core hcore)
  refine { hgrow with others := fun seg hseg b hb => ?_ }
  rcases mem_append.1 hseg with hseg | hseg
  · exact hgrow.others seg (mem_filter.1 hseg).1 b hb
  · rw [mem_singleton.1 hseg] at hb
    exact (Grows.step h.core hcore).journaled.subset (h.core.files.live_journaled hb)

theorem rotateFail (num : Nat) (err : Err) (removed : Bool) :
    Inv (s.rotateFail num err removed) := by
  have hcore : Inv { s with core := (s.core.step (.rotateFail err)).getD s.core } := by
    cases hr : s.core.step (.rotateFail err) with
    | none => exact h
    | some core => exact h.grow (h.core.step hr) (Grows.step h.core hr)
  unfold State.rotateFail
  cases removed with
  | false => exact { hcore with }
  | true => exact { hcore.dropFiles [num] with }

theorem ingestEnd {committed : Bool} {s' : State}
    (hstep : s.ingestEnd committed = some s') : Inv s' := by
  obtain ⟨core, hcore, rfl⟩ := Option.map_eq_some_iff.1 hstep
  have hgrow := h.grow (h.core.step hcore) (Grows.step h.core hcore)
  split
  · exact { hgrow with horizon := Nat.le_trans hgrow.horizon (Nat.le_max_left _ _) }
  · exact hgrow

theorem reapRetainedWAL (env : ReapEnv) : Inv (s.reapRetainedWAL env) :=
  { h.dropFiles _ with horizon := Nat.le_trans h.horizon (Nat.le_max_left _ _) }

theorem step {a : Action} {s' : State} (hstep : s.step a = some s') : Inv s' := by
  cases a with
  | commit a =>
    simp only [State.step] at hstep
    split_ifs at hstep
    obtain ⟨core, hcore, rfl⟩ := Option.map_eq_some_iff.1 hstep
    exact h.grow (h.core.step hcore) (Grows.step h.core hcore)
  | ingestEnd committed => exact h.ingestEnd hstep
  | createLog num =>
    simp only [State.step] at hstep
    split_ifs at hstep
    cases hstep
    refine { h with others := fun seg hseg b hb => ?_ }
    rcases mem_append.1 hseg with hseg | hseg
    · exact h.others seg hseg b hb
    · rw [mem_singleton.1 hseg] at hb
      cases hb
  | rotate =>
    simp only [State.step] at hstep
    split at hstep
    · exact h.rotate hstep
    · cases hstep
  | rotateFail err removed =>
    simp only [State.step] at hstep
    split at hstep
    · cases hstep
      exact h.rotateFail _ err removed
    · cases hstep
  | record | done =>
    simp only [State.step] at hstep
    split at hstep
    · cases hstep
      exact { h with }
    · cases hstep
  | abort =>
    simp only [State.step] at hstep
    split_ifs at hstep
    cases hstep
    exact { h with }
  | removeRetired outcome =>
    simp only [State.step] at hstep
    split at hstep
    · cases hstep
      cases outcome with
      | removed | unsynced => exact { h.dropFiles _ with }
      | kept => exact { h with }
    · cases hstep
  | reap env =>
    simp only [State.step] at hstep
    split at hstep
    · cases hstep
      exact { h.reapRetainedWAL env with }
    · cases hstep
  | damage num keep torn =>
    cases hstep
    refine h.files fun seg hseg b hb => ?_
    obtain ⟨seg', hseg', rfl⟩ := List.mem_map.1 hseg
    refine ⟨seg', hseg', ?_⟩
    by_cases hnum : seg'.num = num
    · rw [if_pos hnum] at hb
      exact Segment.mem_damage hb
    · rw [if_neg hnum] at hb
      exact hb
  | updatesBegin since =>
    simp only [State.step] at hstep
    split_ifs at hstep with hguard
    cases hstep
    exact h.updatesBegin since
  | updatesRead opens =>
    obtain ⟨c, hc, rfl⟩ := Option.map_eq_some_iff.1 hstep
    exact h.updatesRead hc opens
  | restart sync retain startSeq num =>
    simp only [State.step] at hstep
    split_ifs at hstep with hle
    cases hstep
    refine .start hle sync retain num (fun e he => ?_) (h.ascending_committed.filter _)
    simpa using (mem_filter.1 he).2

end

end Inv

abbrev Steps : State → List Action → State → Prop := Transition.Run State.step fun _ _ => True

theorem getLast?_of_pairwise {ns : List Nat} (h : ns.Pairwise (· < ·)) {n : Nat} (hmem : n ∈ ns)
    (hle : ∀ m ∈ ns, m ≤ n) : ns.getLast? = some n := by
  obtain ⟨before, after, rfl⟩ := append_of_mem hmem
  have hnil : after = [] := by
    cases after with
    | nil => rfl
    | cons m after =>
      have hlt := rel_of_pairwise_cons (pairwise_append.1 h).2.1
        (mem_cons_self : m ∈ m :: after)
      have hle := hle m (by simp)
      omega
  subst hnil
  simp

theorem inv_of_run {s s' : State} {as : List Action} (hrun : Steps s as s') (h : Inv s) : Inv s' :=
  hrun.invariant (fun _ _ _ hs _ hstep => hs.step hstep) h

def tailing : List Action :=
  let put : List GroupCommit.Action :=
    [.enqueue [lonePut], .drain, .writeRecord, .flush, .fsync, .applyEntry, .publish, .applied,
      .observe false, .release, .next, .drain]
  put.map .commit ++ [.createLog 2, .rotate, .record, .abort] ++ put.map .commit ++
    [.updatesBegin 1, .updatesRead true, .updatesRead true]

end Replication

end LevisDB
