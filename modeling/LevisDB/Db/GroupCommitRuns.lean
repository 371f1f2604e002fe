import LevisDB.Db.GroupCommitOrder

/-!
# Sequences and visibility under group commit

The read watermark moves over whole batches only: every batch is either at or
below it and applied, or above it.
-/

namespace LevisDB

open List Option

namespace GroupCommit

def Numbered (b : Batch) : Prop := ∃ base es, es ≠ [] ∧ b = assignSeqs base es

theorem lastSeq_assignSeqs (base : Nat) {es : List WalEntry} (hne : es ≠ []) :
    lastSeq (assignSeqs base es) + 1 = base + es.length := by
  induction es generalizing base with
  | nil => exact absurd rfl hne
  | cons e es ih =>
    cases es with
    | nil => rfl
    | cons e' es =>
      have hlast := ih (base + 1) (by simp)
      have heq : lastSeq (assignSeqs base (e :: e' :: es)) =
          lastSeq (assignSeqs (base + 1) (e' :: es)) := rfl
      rw [heq, hlast]
      simp only [length_cons]
      omega

theorem Numbered.seq_le {b : Batch} (h : Numbered b) {e : WalEntry} (he : e ∈ b) :
    e.seq ≤ lastSeq b := by
  obtain ⟨base, es, hne, rfl⟩ := h
  have hlast := lastSeq_assignSeqs base hne
  have hhi := (mem_assignSeqs he).2.1
  omega

theorem Numbered.exists_last {b : Batch} (h : Numbered b) : ∃ e ∈ b, e.seq = lastSeq b := by
  obtain ⟨base, es, hne, rfl⟩ := h
  have hcons : assignSeqs base es ≠ [] := by
    intro hnil
    have hlen := assignSeqs_length base es
    rw [hnil] at hlen
    exact hne (length_eq_zero_iff.1 hlen.symm)
  refine ⟨(assignSeqs base es).getLast hcons, getLast_mem hcons, ?_⟩
  rw [lastSeq, List.getLast?_eq_some_getLast hcons]
  rfl

theorem Numbered.ne_nil {b : Batch} (h : Numbered b) : b ≠ [] := by
  obtain ⟨e, he, _⟩ := h.exists_last
  exact ne_nil_of_mem he

structure Sequences (startSeq walSeq readSeq : Nat) (t : Trace) : Prop where
  ascending : Ascending t.enqueued.flatten
  numbered : ∀ b ∈ t.enqueued, Numbered b
  range : ∀ b ∈ t.enqueued, ∀ e ∈ b, startSeq < e.seq ∧ e.seq ≤ walSeq
  start : startSeq ≤ readSeq
  reserved : readSeq ≤ walSeq
  limit : walSeq ≤ maxIKeySeq
  visible : ∀ b ∈ t.published, ∀ e ∈ b, e.seq ≤ readSeq
  hidden : ∀ b ∈ t.enqueued, b ∉ t.published → ∀ e ∈ b, readSeq < e.seq
  origin : readSeq = startSeq ∨ (∃ b ∈ t.published, readSeq = lastSeq b) ∨ readSeq ∈ t.ingested

namespace Sequences

variable {startSeq walSeq readSeq : Nat} {t : Trace}

theorem fresh {startSeq : Nat} (h : startSeq ≤ maxIKeySeq) (num : Nat) (sync : Bool) :
    Sequences startSeq startSeq startSeq (State.start sync startSeq num).trace :=
  ⟨List.Pairwise.nil, by simp [State.start], by simp [State.start], Nat.le_refl _, Nat.le_refl _, h,
    by simp [State.start], by simp [State.start], Or.inl rfl⟩

section

variable (h : Sequences startSeq walSeq readSeq t)
include h

theorem skip {walSeq' : Nat} (hle : walSeq ≤ walSeq')
    (hlimit : walSeq' ≤ maxIKeySeq) : Sequences startSeq walSeq' readSeq t :=
  { h with
    range := fun b hb e he => ⟨(h.range b hb e he).1, Nat.le_trans (h.range b hb e he).2 hle⟩
    reserved := Nat.le_trans h.reserved hle
    limit := hlimit }

theorem enqueue {es : List WalEntry} (hne : es ≠ [])
    (hlimit : walSeq + es.length ≤ maxIKeySeq) :
    Sequences startSeq (walSeq + es.length) readSeq
      { t with enqueued := t.enqueued ++ [assignSeqs (walSeq + 1) es] } := by
  have hnew : ∀ e ∈ assignSeqs (walSeq + 1) es, walSeq < e.seq ∧ e.seq ≤ walSeq + es.length := by
    intro e he
    obtain ⟨hlo, hhi, _⟩ := mem_assignSeqs he
    omega
  refine ⟨?_, ?_, ?_, h.start, by have := h.reserved; omega, hlimit, h.visible, ?_, h.origin⟩
  · rw [flatten_append]
    refine pairwise_append.2 ⟨h.ascending, by simpa [Ascending] using assignSeqs_ascending _ _, ?_⟩
    intro a ha e he
    obtain ⟨b, hb, hab⟩ := mem_flatten.1 ha
    have hle := (h.range b hb a hab).2
    have hlt := (hnew e (by simpa using he)).1
    omega
  · intro b hb
    rcases mem_append.1 hb with hb | hb
    · exact h.numbered b hb
    · exact ⟨walSeq + 1, es, hne, mem_singleton.1 hb⟩
  · intro b hb e he
    have hstart := h.start
    have hreserved := h.reserved
    rcases mem_append.1 hb with hb | hb
    · have hr := h.range b hb e he
      omega
    · rw [mem_singleton.1 hb] at he
      have hlt := hnew e he
      omega
  · intro b hb hnot e he
    rcases mem_append.1 hb with hb | hb
    · exact h.hidden b hb hnot e he
    · rw [mem_singleton.1 hb] at he
      have hlt := (hnew e he).1
      have hreserved := h.reserved
      omega

theorem publish {b : Batch} {rest : List Batch}
    (hqueue : t.published ++ b :: rest = t.enqueued) :
    Sequences startSeq walSeq (max readSeq (lastSeq b))
      { t with published := t.published ++ [b] } := by
  have hb : b ∈ t.enqueued := by simp [← hqueue]
  have hnum := h.numbered b hb
  obtain ⟨e₀, he₀, hlast⟩ := hnum.exists_last
  have hasc := h.ascending
  rw [← hqueue, flatten_append, flatten_cons, Ascending, pairwise_append,
    pairwise_append] at hasc
  obtain ⟨_, ⟨_, _, hafter⟩, hbefore⟩ := hasc
  -- The sequences of the batch lie above the watermark and below the rest of the queue.
  have hnot : b ∉ t.published := by
    intro hmem
    exact absurd (hbefore e₀ (mem_flatten.2 ⟨b, hmem, he₀⟩) e₀ (by simp [he₀]))
      (Nat.lt_irrefl _)
  have hlt := h.hidden b hb hnot e₀ he₀
  have hmax : max readSeq (lastSeq b) = lastSeq b := by omega
  rw [hmax]
  refine ⟨h.ascending, h.numbered, h.range, by have := h.start; omega, ?_, h.limit, ?_, ?_, ?_⟩
  · exact hlast ▸ (h.range b hb e₀ he₀).2
  · intro b' hb' e he
    rcases mem_append.1 hb' with hb' | hb'
    · have hle := h.visible b' hb' e he
      omega
    · rw [mem_singleton.1 hb'] at he
      exact hnum.seq_le he
  · intro b' hb' hnot' e he
    have hrest : b' ∈ rest := by
      simp only [← hqueue, mem_append, mem_cons] at hb'
      simp only [mem_append, mem_singleton, not_or] at hnot'
      tauto
    rw [← hlast]
    exact hafter e₀ he₀ e (mem_flatten.2 ⟨b', hrest, he⟩)
  · exact Or.inr (Or.inl ⟨b, by simp, rfl⟩)

theorem ingest (hall : t.published = t.enqueued)
    (hlt : readSeq < walSeq) :
    Sequences startSeq walSeq (max readSeq walSeq)
      { t with ingested := t.ingested ++ [walSeq] } := by
  rw [Nat.max_eq_right (Nat.le_of_lt hlt)]
  refine ⟨h.ascending, h.numbered, h.range,
    by have := h.start; omega, Nat.le_refl _, h.limit, ?_, ?_,
    Or.inr (Or.inr (by simp))⟩
  · intro b hb e he
    exact (h.range b (hall ▸ hb) e he).2
  · intro b hb hnot
    exact absurd (hall ▸ hb) hnot

theorem giveBack (hlt : readSeq < walSeq)
    (hall : t.published = t.enqueued) : Sequences startSeq (walSeq - 1) readSeq t :=
  { h with
    range := fun b hb e he => by
      have hr := h.range b hb e he
      have hv := h.visible b (hall ▸ hb) e he
      omega
    reserved := by omega
    limit := by have := h.limit; omega }

end

end Sequences

/-- While an ingestion runs no batch is in flight, and its sequence is the last one
reserved. -/
def Exclusive (walSeq readSeq : Nat) (stage : Stage) (published enqueued : List Batch) :
    Option Ingest → Prop
  | none => True
  | some (.reserved seq) => stage = .idle ∧ published = enqueued ∧ walSeq = seq ∧ readSeq < seq
  | some (.published seq) => stage = .idle ∧ published = enqueued ∧ walSeq = seq ∧ readSeq = seq

/-- What the memtables have been given: the published batches, and part of the one
being applied. -/
def Applying (t : Trace) : Stage → Prop
  | .applying _ (b :: _) todo =>
    ∃ part, part ++ todo = b ∧ t.applied = t.published.flatten ++ part
  | .applying _ [] todo => todo = [] ∧ t.applied = t.published.flatten
  | _ => t.applied = t.published.flatten

/-- Once the log is poisoned the batch being applied stays as it is. -/
def Interrupted (t : Trace) : Prop :=
  t.published.flatten <+: t.applied ∧ t.applied <+: t.enqueued.flatten

def Stage.Grouped : Stage → Prop
  | .writing group _ => group ≠ []
  | .syncing group => group ≠ []
  | .applying group _ _ => group ≠ []
  | _ => True

/-- A failed batch latches the background error before its writer leaves. -/
def Latched (err : Option Err) (failed : Bool) (stage : Stage) (t : Trace) : Prop :=
  err ≠ none → failed = true ∨ (∃ e b left, stage = .failing e (b :: left)) ∨
    (stage = .idle ∧ t.published = t.enqueued)

/-- What had been journaled when the live file was begun. -/
def retired (rotated : List (List Batch × Nat)) : List Batch :=
  (rotated.getLast?.map (·.1)).getD []

/-- What has been journaled is in the file or still in the buffer; what a rotation
retires is covered by its cutoff. -/
structure Files (live : Segment) (buf journaled written durable published : List Batch)
    (rotated : List (List Batch × Nat)) : Prop where
  handed : written ++ buf = journaled
  records : ∀ b ∈ live.records, b ∈ written
  intact : live.tail = .clean → retired rotated ++ live.records = written
  visible : ∀ b ∈ published, b ∈ written
  rotated : ∀ r ∈ rotated, ∀ b ∈ r.1, b ∈ durable ∧ b ∈ published ∧ ∀ e ∈ b, e.seq ≤ r.2

structure Inv (s : State) : Prop where
  order : Order s.sync s.err s.stage s.pending s.trace
  sequences : Sequences s.startSeq s.walSeq s.readSeq s.trace
  exclusive : Exclusive s.walSeq s.readSeq s.stage s.trace.published s.trace.enqueued s.ingest
  applying : s.err = none → Applying s.trace s.stage
  interrupted : s.err ≠ none → Interrupted s.trace
  grouped : s.stage.Grouped
  latched : Latched s.err s.failed s.stage s.trace
  files : Files s.live s.buf s.trace.journaled s.written s.trace.durable s.trace.published
    s.trace.rotated
  flushed : s.err = none → ¬ s.stage.Writing → s.buf = []
  durable : s.trace.durable <+: s.trace.journaled
  memory : s.flushed ++ s.imm.getD [] ++ s.mem = s.trace.applied

theorem Segment.mem_writes {seg : Segment} {bs : List Batch} {b : Batch}
    (h : b ∈ (seg.writes bs).records) : b ∈ seg.records ∨ b ∈ bs := by
  unfold Segment.writes at h
  split_ifs at h
  · exact mem_append.1 h
  · exact Or.inl h

theorem Segment.mem_damage {seg : Segment} {keep : Nat} {tail : Tail} {b : Batch}
    (h : b ∈ (seg.damage keep tail).records) : b ∈ seg.records := mem_of_mem_take h

section

variable {live : Segment} {buf journaled written durable published : List Batch}
  {rotated : List (List Batch × Nat)}
variable (h : Files live buf journaled written durable published rotated)
include h

theorem Files.sync (hdurable : durable <+: journaled) :
    Files live buf journaled written journaled published rotated :=
  { h with rotated := fun r hr b hb => (h.rotated r hr b hb).imp_left fun hd => hdurable.subset hd }

theorem Files.live_journaled {b : Batch} (hb : b ∈ live.records) : b ∈ journaled :=
  h.handed ▸ mem_append_left _ (h.records b hb)

theorem Files.handOver (n : Nat) :
    Files (live.writes (buf.take n)) (buf.drop n) journaled
    (written ++ buf.take n) durable published
      rotated where
  handed := by rw [append_assoc, take_append_drop, h.handed]
  records b hb := mem_append.2 ((Segment.mem_writes hb).imp_left (h.records b))
  intact hclean := by
    unfold Segment.writes at hclean ⊢
    split_ifs at hclean ⊢ with hlive
    · rw [← append_assoc, h.intact hlive]
    · exact absurd hclean hlive
  visible b hb := mem_append_left _ (h.visible b hb)
  rotated := h.rotated

theorem Files.damage (keep : Nat) {tail : Tail} (htail : tail ≠ .clean) :
    Files (live.damage keep tail) buf journaled written durable published rotated :=
  { h with
    records := fun b hb => h.records b (Segment.mem_damage hb)
    intact := fun hclean => absurd hclean htail }

end

theorem Inv.start {startSeq : Nat} (h : startSeq ≤ maxIKeySeq) (sync : Bool) (num : Nat) :
    Inv (State.start sync startSeq num) where
  order := by
    refine ⟨rfl, fun _ => rfl, trivial, fun _ => ?_, fun hne => absurd rfl hne,
      by simp [State.start]⟩
    exact ⟨by simp [State.start], rfl, fun _ => rfl, rfl, rfl⟩
  sequences := .fresh h num sync
  exclusive := trivial
  applying _ := rfl
  interrupted hne := absurd rfl hne
  grouped := trivial
  latched hne := absurd rfl hne
  files := ⟨rfl, by simp [State.start], fun _ => rfl, by simp [State.start], by simp [State.start]⟩
  flushed _ _ := rfl
  durable := prefix_refl _
  memory := rfl

namespace Inv

variable {s : State}
variable {b : Batch} {group left : List Batch}

theorem ingest_none (h : Inv s) (hbusy : s.stage ≠ .idle) : s.ingest = none := by
  have hex := h.exclusive
  cases hi : s.ingest with
  | none => rfl
  | some i =>
    rw [hi] at hex
    cases i with
    | reserved seq => exact absurd hex.1 hbusy
    | published seq => exact absurd hex.1 hbusy

theorem exclusive_of_none {walSeq readSeq : Nat} {stage : Stage} {published enqueued : List Batch}
    {i : Option Ingest} (h : i = none) : Exclusive walSeq readSeq stage published enqueued i := by
  subst h
  trivial

theorem busy (h : Inv s) {stage : Stage} (hstage : s.stage = stage) (hbusy : ¬ stage.AtRest) :
    s.err = none ∧ Order s.sync s.err stage s.pending s.trace ∧ stage.Grouped ∧
      Applying s.trace stage ∧ s.ingest = none ∧ (¬ stage.Writing → s.buf = []) := by
  subst hstage
  have herr := h.order.healthy_of_busy hbusy
  have hidle : s.stage ≠ .idle := fun hidle => hbusy (by rw [hidle]; trivial)
  exact ⟨herr, h.order, h.grouped, h.applying herr, h.ingest_none hidle, h.flushed herr⟩

theorem published_of_idle (h : Inv s) (hidle : s.stage = .idle) (hfailed : s.failed = false) :
    s.trace.published = s.trace.enqueued := by
  by_cases herr : s.err = none
  · have ho := h.order
    rw [herr, hidle] at ho
    exact ho.published_of_idle
  · rcases h.latched herr with hf | ⟨e, b, left, hstage⟩ | ⟨_, hall⟩
    · rw [hfailed] at hf
      cases hf
    · rw [hidle] at hstage
      cases hstage
    · exact hall

theorem prefix_flatten {bs bs' : List Batch} (h : bs <+: bs') : bs.flatten <+: bs'.flatten := by
  obtain ⟨rest, rfl⟩ := h
  rw [flatten_append]
  exact prefix_append _ _

theorem applied_between (h : Inv s) : Interrupted s.trace := by
  by_cases herr : s.err = none
  · have happ := h.applying herr
    have hpub := (h.order.nested.applied.trans h.order.nested.written)
    have hwhole : s.trace.applied = s.trace.published.flatten → Interrupted s.trace := by
      intro heq
      rw [Interrupted, heq]
      exact ⟨prefix_refl _, prefix_flatten hpub⟩
    have hqueue := (h.order.healthy herr).applied
    cases hstage : s.stage with
    | applying group rest todo =>
      rw [hstage] at happ hqueue
      cases rest with
      | nil => exact hwhole happ.2
      | cons b rest =>
        obtain ⟨part, hpart, heq⟩ := happ
        have hq : s.trace.published ++ [b] <+: s.trace.enqueued :=
          ⟨rest ++ s.pending, by simpa using hqueue⟩
        rw [Interrupted, heq]
        refine ⟨prefix_append _ _, List.IsPrefix.trans ?_ (prefix_flatten hq)⟩
        rw [flatten_append, flatten_singleton, ← hpart]
        exact (prefix_append_right_inj _).2 (prefix_append _ _)
    | _ =>
      rw [hstage] at happ
      exact hwhole happ
  · exact h.interrupted herr

theorem appendWAL (h : Inv s) (hingest : s.ingest = none) {es : List WalEntry} (hne : es ≠ []) :
    Inv (s.appendWAL es) := by
  unfold State.appendWAL
  split
  · exact { h with latched := fun _ => Or.inl rfl }
  · rename_i base e hr herr
    have hlimit := (reserveSeq_eq_ok hr).2
    exact { h with
      sequences := h.sequences.skip (Nat.le_add_right _ _) hlimit
      exclusive := exclusive_of_none hingest
      latched := fun _ => Or.inl rfl }
  · rename_i base hr herr
    obtain ⟨rfl, hlimit⟩ := reserveSeq_eq_ok hr
    have ho := h.order
    rw [herr] at ho
    have happ := h.applying herr
    refine ⟨?_, h.sequences.enqueue hne hlimit, exclusive_of_none hingest, fun _ => ?_,
      fun hne => absurd herr hne, ?_, fun hne => absurd herr hne, h.files, ?_, h.durable, h.memory⟩
    · change Order s.sync s.err _ _ _
      rw [herr]
      exact ho.enqueue _
    · change Applying _ s.stage.woken
      cases hstage : s.stage with
      | applying group rest todo =>
        rw [hstage] at happ
        cases rest <;> exact happ
      | _ =>
        rw [hstage] at happ
        exact happ
    · change s.stage.woken.Grouped
      have hg := h.grouped
      cases hstage : s.stage <;> rw [hstage] at hg <;> exact hg
    · change s.err = none → ¬ s.stage.woken.Writing → s.buf = []
      have hf := h.flushed
      cases hstage : s.stage <;> rw [hstage] at hf <;> exact hf

theorem drain (h : Inv s) (hstage : s.stage = .draining) : Inv s.drain := by
  have hnone := h.ingest_none (by rw [hstage]; simp)
  have ho := h.order
  rw [hstage] at ho
  obtain ⟨hidle, hfailing, hwriting⟩ := ho.drain
  have happ : s.err = none → s.trace.applied = s.trace.published.flatten := by
    intro herr
    have happ := h.applying herr
    rw [hstage] at happ
    exact happ
  have hbuf : s.err = none → s.buf = [] := fun herr => h.flushed herr (by simp [hstage])
  have hlatched : s.err ≠ none → s.failed = true := by
    intro herr
    rcases h.latched herr with hf | ⟨e, b, left, hs⟩ | ⟨hs, _⟩
    · exact hf
    · rw [hstage] at hs
      cases hs
    · rw [hstage] at hs
      cases hs
  unfold State.drain
  split
  · rename_i hnil
    exact { h with
      order := by
        change Order s.sync s.err .idle s.pending s.trace
        rw [hnil]
        exact hidle hnil
      exclusive := exclusive_of_none hnone
      applying := happ
      grouped := trivial
      latched := fun herr => Or.inl (hlatched herr)
      flushed := fun herr _ => hbuf herr }
  · rename_i e herr _
    exact { h with
      order := hfailing e herr
      exclusive := exclusive_of_none hnone
      applying := happ
      grouped := trivial
      latched := fun hne => Or.inl (hlatched hne)
      flushed := fun herr _ => hbuf herr }
  · rename_i herr hpending
    exact { h with
      order := hwriting herr
      exclusive := exclusive_of_none hnone
      applying := happ
      grouped := hpending
      latched := fun hne => Or.inl (hlatched hne)
      flushed := fun _ hw => absurd trivial hw }

theorem latched_of_none {err : Option Err} (herr : err = none) (failed : Bool) (stage : Stage)
    (t : Trace) : Latched err failed stage t := fun hne => absurd herr hne

theorem applying_applyFrom {t : Trace} (h : t.applied = t.published.flatten)
    (group rest : List Batch) : Applying t (.applyFrom group rest) := by
  cases rest with
  | nil => exact ⟨rfl, h⟩
  | cons b rest => exact ⟨[], rfl, by simp [h]⟩

theorem grouped_applyFrom (h : group ≠ []) (rest : List Batch) :
    (Stage.applyFrom group rest).Grouped := by
  cases rest <;> exact h

section

variable (h : Inv s)
include h

theorem advance (hbusy : ¬ s.stage.AtRest) {stage : Stage} (hidle : s.stage ≠ .idle)
    (hbuf : s.buf = []) (horder : Order s.sync s.err stage s.pending s.trace)
    (happ : Applying s.trace stage)
    (hgrouped : stage.Grouped) : Inv { s with stage := stage } :=
  { h with
    order := horder
    exclusive := exclusive_of_none (h.ingest_none hidle)
    applying := fun _ => happ
    grouped := hgrouped
    latched := latched_of_none (h.order.healthy_of_busy hbusy) _ _ _
    flushed := fun _ _ => hbuf }

theorem writeRecord (hstage : s.stage = .writing group (b :: left)) :
    Inv { s with
      stage := .writing group left
      buf := s.buf ++ [b]
      trace := { s.trace with journaled := s.trace.journaled ++ [b] } } := by
  obtain ⟨herr, ho, hg, happ, hnone, _⟩ := h.busy hstage (by simp)
  have hf := h.files
  refine ⟨ho.writeRecord, { h.sequences with }, ?_, fun _ => happ, fun hne => absurd herr hne, hg,
    latched_of_none herr _ _ _, ⟨?_, hf.records, hf.intact, hf.visible, hf.rotated⟩,
    fun _ hw => absurd trivial hw, ?_, h.memory⟩
  · exact exclusive_of_none hnone
  · rw [← append_assoc, hf.handed]
  · exact h.durable.trans (prefix_append _ _)

theorem handOver (n : Nat) : Inv (s.handOver n) :=
  { h with
    files := h.files.handOver n
    flushed := fun herr hw => by simp [State.handOver, h.flushed herr hw] }

theorem tear (torn : Bool) : Inv (s.tear torn) := by
  refine { h with files := ?_ }
  cases torn with
  | false => exact h.files
  | true => exact h.files.damage _ (by simp)

theorem flush (hstage : s.stage = .writing group []) (hbuf : s.buf = []) :
    Inv { s with stage := if s.sync then .syncing group else .applyFrom group group } := by
  obtain ⟨herr, ho, hg, happ, hnone, _⟩ := h.busy hstage (by simp)
  refine { h with
    order := ho.flush
    exclusive := exclusive_of_none hnone
    applying := fun _ => ?_
    grouped := ?_
    latched := latched_of_none herr _ _ _
    flushed := fun _ _ => hbuf }
  · change Applying s.trace (if s.sync then .syncing group else .applyFrom group group)
    split_ifs
    · exact happ
    · exact applying_applyFrom happ _ _
  · change (if s.sync then Stage.syncing group else .applyFrom group group).Grouped
    split_ifs
    · exact hg
    · exact grouped_applyFrom hg _

theorem fsync (hstage : s.stage = .syncing group) :
    Inv { s with
      stage := .applyFrom group group
      trace := { s.trace with durable := s.trace.journaled } } := by
  obtain ⟨herr, ho, hg, happ, hnone, hbuf⟩ := h.busy hstage (by simp)
  refine ⟨ho.fsync, { h.sequences with }, ?_, fun _ => applying_applyFrom happ _ _,
    fun hne => absurd herr hne, grouped_applyFrom hg _, latched_of_none herr _ _ _,
    h.files.sync h.durable, fun _ _ => hbuf id, prefix_refl _, h.memory⟩
  exact exclusive_of_none hnone

theorem poison (hbusy : s.stage ≠ .idle)
    (hgroup : s.stage.inFlight = group) (hne : group ≠ []) (e : Err) : Inv (s.poison e group) := by
  have hbetween := h.applied_between
  have ho := h.order.poison e
  rw [hgroup] at ho
  exact { h with
    order := ho
    exclusive := exclusive_of_none (h.ingest_none hbusy)
    applying := fun hnone => by cases hnone
    interrupted := fun _ => hbetween
    grouped := trivial
    latched := fun _ => by
      obtain ⟨b, left, rfl⟩ := exists_cons_of_ne_nil hne
      exact Or.inr (Or.inl ⟨e, b, left, rfl⟩)
    flushed := fun hnone => by cases hnone }

theorem fault (hfaulty : s.stage.faulty = some group) (e : Err) : Inv (s.poison e group) := by
  have hstage : s.stage.inFlight = group ∧ s.stage ≠ .idle ∧ (s.stage.Grouped → group ≠ []) := by
    unfold Stage.faulty at hfaulty
    cases hs : s.stage <;> simp [hs] at hfaulty
    · simp [hfaulty, Stage.Grouped]
    · simp [hfaulty, Stage.Grouped]
  exact h.poison hstage.2.1 hstage.1 (hstage.2.2 h.grouped) e

theorem applyEntry {rest : List Batch} {e : WalEntry} {todo : Batch}
    (hstage : s.stage = .applying group rest (e :: todo)) :
    Inv { s with
      stage := .applying group rest todo
      mem := s.mem ++ [e]
      trace := { s.trace with applied := s.trace.applied ++ [e] } } := by
  obtain ⟨herr, ho, hg, happ, hnone, hbuf⟩ := h.busy hstage (by simp)
  have hh := ho.healthy herr
  refine ⟨⟨ho.returned, by simp, ho.shaped, fun _ => ⟨by simp, hh.written, hh.synced, hh.applied,
    hh.observed⟩, fun hne => absurd herr hne, ho.success⟩, { h.sequences with }, ?_, fun _ => ?_,
    fun hne => absurd herr hne, hg, latched_of_none herr _ _ _, h.files, fun _ _ => hbuf id,
    h.durable, ?_⟩
  · exact exclusive_of_none hnone
  · cases rest with
    | nil => cases happ.1
    | cons b rest =>
      obtain ⟨part, hpart, heq⟩ := happ
      exact ⟨part ++ [e], by simpa using hpart, by simp [heq]⟩
  · simp [← h.memory]

theorem publish {rest : List Batch}
    (hstage : s.stage = .applying group (b :: rest) []) :
    Inv { s with
      stage := .applyFrom group rest
      readSeq := max s.readSeq (lastSeq b)
      trace := { s.trace with published := s.trace.published ++ [b] } } := by
  obtain ⟨herr, ho, hg, happ, hnone, hbuf⟩ := h.busy hstage (by simp)
  have hf := h.files
  have hqueue : s.trace.published ++ b :: (rest ++ s.pending) = s.trace.enqueued := by
    simpa using (ho.healthy herr).applied
  obtain ⟨part, hpart, heq⟩ := happ
  rw [append_nil] at hpart
  subst hpart
  refine ⟨ho.publish, h.sequences.publish hqueue, ?_, fun _ => ?_, fun hne => absurd herr hne,
    grouped_applyFrom hg _, latched_of_none herr _ _ _, ⟨hf.handed, hf.records, hf.intact, ?_, ?_⟩,
    fun _ _ => hbuf id, h.durable, h.memory⟩
  · exact exclusive_of_none hnone
  · exact applying_applyFrom (by simpa using heq) _ _
  · -- with the buffer empty, what is journaled is in the file
    have hwritten := hf.handed
    rw [hbuf id, append_nil] at hwritten
    rw [hwritten]
    exact fun b' hb' => ho.publish.nested.applied.subset hb'
  · intro r hr b' hb'
    obtain ⟨hd, hp, hle⟩ := h.files.rotated r hr b' hb'
    exact ⟨hd, mem_append_left _ hp, hle⟩

theorem applied {todo : Batch}
    (hstage : s.stage = .applying group [] todo) : Inv { s with stage := .observing group } := by
  obtain ⟨_, ho, _, happ, _, hbuf⟩ := h.busy hstage (by simp)
  exact h.advance (by simp [hstage]) (by simp [hstage]) (hbuf id) ho.applied happ.2 trivial

theorem observe (hstage : s.stage = .observing (b :: left)) (result : Option Err) :
    Inv { s with
      stage := .releasing b result left
      trace := { s.trace with observed := s.trace.observed ++ [b] } } := by
  obtain ⟨herr, ho, _, happ, hnone, hbuf⟩ := h.busy hstage (by simp)
  exact ⟨ho.observe result, { h.sequences with },
    exclusive_of_none hnone, fun _ => happ,
    fun hne => absurd herr hne, trivial, latched_of_none herr _ _ _, h.files, fun _ _ => hbuf id,
    h.durable, h.memory⟩

theorem release {result : Option Err}
    (hstage : s.stage = .releasing b result left) :
    Inv { s with
      stage := .observing left
      failed := s.failed || result.isSome
      trace := { s.trace with results := s.trace.results ++ [(b, result)] } } := by
  obtain ⟨herr, ho, _, happ, hnone, hbuf⟩ := h.busy hstage (by simp)
  exact ⟨ho.release, { h.sequences with },
    exclusive_of_none hnone, fun _ => happ,
    fun hne => absurd herr hne, trivial, latched_of_none herr _ _ _, h.files, fun _ _ => hbuf id,
    h.durable, h.memory⟩

theorem fail {e : Err}
    (hstage : s.stage = .failing e (b :: left)) :
    Inv { s with
      stage := .failing e left
      failed := true
      trace := { s.trace with results := s.trace.results ++ [(b, some e)] } } := by
  have ho := h.order
  have herr : s.err ≠ none := by
    intro hnone
    have hrun := (h.order.healthy hnone).running
    rw [hstage] at hrun
    exact hrun trivial
  rw [hstage] at ho
  exact ⟨ho.fail, { h.sequences with }, exclusive_of_none (h.ingest_none (by simp [hstage])),
    fun hnone => absurd hnone herr, h.interrupted, trivial, fun _ => Or.inl rfl, h.files,
    fun hnone => absurd hnone herr, h.durable, h.memory⟩

theorem next (hstage : s.stage = .observing [] ∨ ∃ e, s.stage = .failing e []) :
    Inv { s with stage := .draining } := by
  have hidle : s.stage ≠ .idle := by
    rcases hstage with hs | ⟨e, hs⟩
    · simp [hs]
    · simp [hs]
  refine { h with
    order := h.order.next hstage
    exclusive := exclusive_of_none (h.ingest_none hidle)
    applying := fun hnone => ?_
    grouped := trivial
    latched := fun hne => ?_
    flushed := fun hnone _ => ?_ }
  · have happ := h.applying hnone
    rcases hstage with hs | ⟨e, hs⟩
    · rw [hs] at happ
      exact happ
    · rw [hs] at happ
      exact happ
  · rcases h.latched hne with hf | ⟨e, b, left, hs⟩ | ⟨hs, _⟩
    · exact Or.inl hf
    · rcases hstage with hs' | ⟨e', hs'⟩
      · rw [hs] at hs'
        cases hs'
      · rw [hs] at hs'
        cases hs'
    · exact absurd hs hidle
  · refine h.flushed hnone ?_
    rcases hstage with hs | ⟨e, hs⟩
    · simp [hs]
    · simp [hs]

theorem stepCommit {a : Action} {s' : State} (hstep : s.stepCommit a = some s') :
    Inv s' := by
  cases a with
  | drain =>
    simp only [State.stepCommit] at hstep
    split at hstep
    · cases hstep
      exact h.drain (by assumption)
    · cases hstep
  | writeRecord =>
    simp only [State.stepCommit] at hstep
    split at hstep
    · cases hstep
      exact h.writeRecord (by assumption)
    · cases hstep
  | spill =>
    simp only [State.stepCommit] at hstep
    split at hstep
    · cases hstep
      exact h.handOver 1
    · cases hstep
  | flush =>
    simp only [State.stepCommit] at hstep
    split at hstep
    · cases hstep
      exact (h.handOver _).flush (by assumption) drop_length
    · cases hstep
  | fsync =>
    simp only [State.stepCommit] at hstep
    split at hstep
    · cases hstep
      exact h.fsync (by assumption)
    · cases hstep
  | fault err reached torn =>
    obtain ⟨group, hfaulty, rfl⟩ := map_eq_some_iff.1 hstep
    exact ((h.handOver reached).tear torn).fault hfaulty err
  | applyEntry =>
    simp only [State.stepCommit] at hstep
    split at hstep
    · cases hstep
      exact h.applyEntry (by assumption)
    · cases hstep
  | publish =>
    simp only [State.stepCommit] at hstep
    split at hstep
    · cases hstep
      exact h.publish (by assumption)
    · cases hstep
  | applyPanic =>
    simp only [State.stepCommit] at hstep
    split at hstep
    · rename_i hstage
      cases hstep
      have hg := h.grouped
      rw [hstage] at hg
      exact h.poison (by simp [hstage]) (by simp [hstage]) hg _
    · cases hstep
  | applied =>
    simp only [State.stepCommit] at hstep
    split at hstep
    · cases hstep
      exact h.applied (by assumption)
    · cases hstep
  | observe panics =>
    simp only [State.stepCommit] at hstep
    split at hstep
    · cases hstep
      exact h.observe (by assumption) _
    · cases hstep
  | release =>
    simp only [State.stepCommit] at hstep
    split at hstep
    · cases hstep
      exact h.release (by assumption)
    · cases hstep
  | fail =>
    simp only [State.stepCommit] at hstep
    split at hstep
    · cases hstep
      exact h.fail (by assumption)
    · cases hstep
  | next =>
    simp only [State.stepCommit] at hstep
    split at hstep
    · cases hstep
      exact h.next (Or.inl (by assumption))
    · cases hstep
      exact h.next (Or.inr ⟨_, by assumption⟩)
    · cases hstep
  | _ => cases hstep

theorem settle (hidle : s.stage = .idle) (herr : s.err = none) :
    Order s.sync s.err s.stage s.pending { s.trace with durable := s.trace.journaled } ∧
      s.trace.published = s.trace.enqueued ∧ s.trace.journaled = s.trace.enqueued := by
  have ho := h.order
  rw [herr, hidle] at ho
  rw [herr, hidle]
  have hwritten := (ho.healthy rfl).written
  rw [ho.drained rfl] at hwritten
  exact ⟨ho.syncNow, ho.published_of_idle, by simpa using hwritten⟩

theorem rotate (hidle : s.stage = .idle) (herr : s.err = none) (num : Nat) :
    Inv { s with
      live := ⟨num, [], .clean⟩
      trace := { s.trace with
        durable := s.trace.journaled
        rotated := s.trace.rotated ++ [(s.trace.journaled, s.readSeq)] } } := by
  obtain ⟨ho, hpub, hjour⟩ := h.settle hidle herr
  have hh := ho.healthy herr
  refine ⟨⟨ho.returned, ho.drained, ho.shaped, fun _ => ⟨hh.running, hh.written, hh.synced,
    hh.applied, hh.observed⟩, fun hne => absurd herr hne, ho.success⟩, { h.sequences with },
    h.exclusive, h.applying, h.interrupted, h.grouped, latched_of_none herr _ _ _,
    ⟨h.files.handed, by simp, fun _ => ?_, h.files.visible, ?_⟩, h.flushed, prefix_refl _,
    h.memory⟩
  · have hwritten := h.files.handed
    rw [h.flushed herr (by simp [hidle]), append_nil] at hwritten
    simp [retired, hwritten]
  intro r hr b hb
  rcases mem_append.1 hr with hr | hr
  · exact (h.files.sync h.durable).rotated r hr b hb
  · rw [mem_singleton.1 hr] at hb ⊢
    have hb' : b ∈ s.trace.published := by rwa [hpub, ← hjour]
    exact ⟨hb, hb', h.sequences.visible b hb'⟩

theorem syncNow (hidle : s.stage = .idle) (herr : s.err = none) :
    Inv { s with trace := { s.trace with durable := s.trace.journaled } } := by
  obtain ⟨ho, _, _⟩ := h.settle hidle herr
  exact ⟨ho, { h.sequences with }, h.exclusive, h.applying, h.interrupted, h.grouped,
    latched_of_none herr _ _ _, h.files.sync h.durable, h.flushed, prefix_refl _, h.memory⟩

theorem rotateFail (hidle : s.stage = .idle) (herr : s.err = none) (e : Err) :
    Inv { s with err := some e } := by
  obtain ⟨_, hpub, _⟩ := h.settle hidle herr
  have hbetween := h.applied_between
  have ho := h.order
  rw [herr, hidle] at ho
  exact { h with
    order := by
      change Order s.sync (some e) s.stage s.pending s.trace
      rw [hidle]
      exact ho.rotateFail e
    applying := fun hnone => by cases hnone
    interrupted := fun _ => hbetween
    latched := fun _ => Or.inr (Or.inr ⟨hidle, hpub⟩)
    flushed := fun hnone => by cases hnone }

theorem ingestReserve (hidle : s.stage = .idle) (hfailed : s.failed = false) {seq : Nat}
    (hreserve : reserveSeq s.walSeq 1 = .ok seq) :
    Inv { s with
      walSeq := s.walSeq + 1
      ingest := some (.reserved seq) } := by
  obtain ⟨rfl, hlimit⟩ := reserveSeq_eq_ok hreserve
  have hle := h.sequences.reserved
  exact { h with
    sequences := h.sequences.skip (Nat.le_succ _) hlimit
    exclusive := ⟨hidle, h.published_of_idle hidle hfailed, rfl, Nat.lt_succ_of_le hle⟩ }

theorem ingestPublish {seq : Nat} (hingest : s.ingest = some (.reserved seq)) :
    Inv { s with
      readSeq := max s.readSeq seq
      ingest := some (.published seq)
      trace := { s.trace with ingested := s.trace.ingested ++ [seq] } } := by
  have hex := h.exclusive
  rw [hingest] at hex
  obtain ⟨hidle, hall, rfl, hlt⟩ := hex
  have ho := h.order
  refine ⟨⟨ho.returned, ho.drained, ho.shaped, fun herr => ?_, fun hne => ?_, ho.success⟩,
    h.sequences.ingest hall hlt, ⟨hidle, hall, rfl, Nat.max_eq_right (Nat.le_of_lt hlt)⟩,
    fun herr => ?_, h.interrupted, h.grouped, h.latched, h.files, h.flushed, h.durable, h.memory⟩
  · exact { ho.healthy herr with }
  · exact ⟨(ho.poisoned hne).1, { (ho.poisoned hne).2 with }⟩
  · have happ := h.applying herr
    change Applying _ s.stage
    rw [hidle] at happ ⊢
    exact happ

theorem ingestEnd {i : Ingest} (hingest : s.ingest = some i) (ok : Bool) :
    Inv (match i with
      | .reserved seq => s.ingestEnd seq true
      | .published seq => s.ingestEnd seq ok) := by
  have hex := h.exclusive
  rw [hingest] at hex
  have hlatched (ok : Bool) : Latched s.err (s.failed || !ok) s.stage s.trace := by
    intro herr
    rcases h.latched herr with hf | hrest
    · exact Or.inl (by simp [hf])
    · exact Or.inr hrest
  cases i with
  | reserved seq =>
    obtain ⟨hidle, hall, rfl, hlt⟩ := hex
    exact { h with
      sequences := by
        change Sequences s.startSeq (if s.readSeq < s.walSeq then s.walSeq - 1 else s.walSeq)
          s.readSeq s.trace
        rw [if_pos hlt]
        exact h.sequences.giveBack hlt hall
      exclusive := trivial
      latched := hlatched true }
  | published seq =>
    obtain ⟨hidle, hall, rfl, heq⟩ := hex
    exact { h with
      sequences := by
        change Sequences s.startSeq (if s.readSeq < s.walSeq then s.walSeq - 1 else s.walSeq)
          s.readSeq s.trace
        rw [if_neg (by omega)]
        exact h.sequences
      exclusive := trivial
      latched := hlatched ok }

theorem step {a : Action} {s' : State} (hstep : s.step a = some s') : Inv s' := by
  cases a with
  | enqueue entries =>
    simp only [State.step] at hstep
    split_ifs at hstep with hguard
    cases hstep
    exact h.appendWAL (isNone_iff_eq_none.1 hguard.1) hguard.2
  | syncNow =>
    simp only [State.step] at hstep
    split at hstep
    · cases hstep
      exact h.syncNow (by assumption) (by assumption)
    · cases hstep
  | sealMem =>
    simp only [State.step] at hstep
    split at hstep
    · rename_i himm
      cases hstep
      exact { h with memory := by simpa [himm] using h.memory }
    · cases hstep
  | flushMem =>
    obtain ⟨imm, himm, rfl⟩ := map_eq_some_iff.1 hstep
    exact { h with memory := by simpa [himm] using h.memory }
  | rotate num =>
    simp only [State.step] at hstep
    split at hstep
    · cases hstep
      exact h.rotate (by assumption) (by assumption) num
    · cases hstep
  | rotateFail err =>
    simp only [State.step] at hstep
    split at hstep
    · cases hstep
      exact h.rotateFail (by assumption) (by assumption) err
    · cases hstep
  | ingestReserve =>
    simp only [State.step] at hstep
    split at hstep
    · cases hstep
      exact h.ingestReserve (by assumption) (by assumption) (by assumption)
    · cases hstep
  | ingestPublish =>
    simp only [State.step] at hstep
    split at hstep
    · cases hstep
      exact h.ingestPublish (by assumption)
    · cases hstep
  | ingestEnd committed =>
    simp only [State.step] at hstep
    split at hstep
    · rename_i hi
      cases hstep
      exact h.ingestEnd hi committed
    · rename_i hi
      cases hstep
      exact h.ingestEnd hi committed
    · cases hstep
  | damage keep torn =>
    cases hstep
    exact { h with files := h.files.damage _ (by split_ifs <;> simp) }
  | _ =>
    simp only [State.step] at hstep
    exact h.stepCommit hstep

end

end Inv

abbrev Steps : State → List Action → State → Prop := Transition.Run State.step fun _ _ => True

theorem inv_of_run {s s' : State} {as : List Action} (hrun : Steps s as s') (h : Inv s) : Inv s' :=
  hrun.invariant (fun _ _ _ hs _ hstep => hs.step hstep) h

/-- What a step can add: records to the journal, and batches above the watermark to
what is published. -/
structure Grows (s s' : State) : Prop where
  startSeq : s'.startSeq = s.startSeq
  journaled : s.trace.journaled <+: s'.trace.journaled
  readSeq : s.readSeq ≤ s'.readSeq
  published : ∃ more, s'.trace.published = s.trace.published ++ more ∧
    ∀ e ∈ more.flatten, s.readSeq < e.seq

theorem Grows.of_eq {s s' : State} (hstart : s'.startSeq = s.startSeq)
    (hjournaled : s'.trace.journaled = s.trace.journaled) (hread : s.readSeq ≤ s'.readSeq)
    (hpublished : s'.trace.published = s.trace.published) : Grows s s' :=
  ⟨hstart, hjournaled ▸ prefix_refl _, hread, [], by simp [hpublished], by simp⟩

theorem Grows.step {s : State} (h : Inv s) {a : Action} {s' : State} (hstep : s.step a = some s') :
    Grows s s' := by
  cases a with
  | publish =>
    simp only [State.step, State.stepCommit] at hstep
    split at hstep
    · rename_i group b rest hstage
      cases hstep
      have herr : s.err = none := h.order.healthy_of_busy (by simp [hstage])
      have hqueue := (h.order.healthy herr).applied
      rw [hstage] at hqueue
      have hb : b ∈ s.trace.enqueued := by simp [← hqueue]
      refine ⟨rfl, prefix_refl _, Nat.le_max_left _ _, [b], rfl, ?_⟩
      have hnot : b ∉ s.trace.published := by
        intro hmem
        obtain ⟨e, he, _⟩ := (h.sequences.numbered b hb).exists_last
        have hasc := h.sequences.ascending
        rw [← hqueue, append_assoc, flatten_append, Ascending,
          pairwise_append] at hasc
        exact absurd (hasc.2.2 e (mem_flatten.2 ⟨b, hmem, he⟩) e (by simp [he]))
          (Nat.lt_irrefl _)
      simpa using h.sequences.hidden b hb hnot
    · cases hstep
  | writeRecord =>
    simp only [State.step, State.stepCommit] at hstep
    split at hstep
    · cases hstep
      exact ⟨rfl, prefix_append _ _, Nat.le_refl _, [], by simp, by simp⟩
    · cases hstep
  | ingestPublish =>
    simp only [State.step] at hstep
    split at hstep
    · cases hstep
      exact .of_eq rfl rfl (Nat.le_max_left _ _) rfl
    · cases hstep
  | enqueue entries =>
    simp only [State.step] at hstep
    split_ifs at hstep
    cases hstep
    unfold State.appendWAL
    split <;> exact .of_eq rfl rfl (Nat.le_refl _) rfl
  | drain =>
    simp only [State.step, State.stepCommit] at hstep
    split at hstep
    · cases hstep
      unfold State.drain
      split <;> exact .of_eq rfl rfl (Nat.le_refl _) rfl
    · cases hstep
  | flushMem =>
    obtain ⟨imm, _, rfl⟩ := map_eq_some_iff.1 hstep
    exact .of_eq rfl rfl (Nat.le_refl _) rfl
  | fault err reached torn =>
    obtain ⟨group, _, rfl⟩ := map_eq_some_iff.1 hstep
    exact .of_eq rfl rfl (Nat.le_refl _) rfl
  | damage keep torn =>
    cases hstep
    exact .of_eq rfl rfl (Nat.le_refl _) rfl
  | _ =>
    -- The other steps add nothing to either list.
    simp only [State.step, State.stepCommit] at hstep
    split at hstep <;> first
      | (cases hstep
         exact .of_eq rfl rfl (Nat.le_refl _) rfl)
      | cases hstep

/-- What a poisoned log can still do: hand out errors. -/
structure Frozen (s s' : State) : Prop where
  err : s'.err ≠ none
  applied : s'.trace.applied = s.trace.applied
  published : s'.trace.published = s.trace.published
  results : ∀ r ∈ s'.trace.results, r.2 = none → r ∈ s.trace.results

theorem stepCommit_of_atRest {s s' : State} {a : Action} (hrest : s.stage.AtRest)
    (hstep : s.stepCommit a = some s') : a = .drain ∨ a = .fail ∨ a = .next := by
  cases hs : s.stage <;> cases a <;> simp_all [State.stepCommit, Stage.faulty]

theorem Frozen.step {s : State} (h : Inv s) (herr : s.err ≠ none) {a : Action} {s' : State}
    (hstep : s.step a = some s') : Frozen s s' := by
  have hrest := (h.order.poisoned herr).1
  have hsame : ∀ {s'' : State}, s''.err = s.err → s''.trace = s.trace → Frozen s s'' := by
    intro s'' he ht
    exact ⟨he ▸ herr, by rw [ht], by rw [ht], by rw [ht]; exact fun r hr _ => hr⟩
  cases a with
  | enqueue entries =>
    simp only [State.step] at hstep
    split_ifs at hstep
    cases hstep
    unfold State.appendWAL
    split
    · exact hsame rfl rfl
    · exact hsame rfl rfl
    · exact absurd (by assumption) herr
  | drain =>
    simp only [State.step, State.stepCommit] at hstep
    split at hstep
    · cases hstep
      unfold State.drain
      split
      · exact hsame rfl rfl
      · exact hsame rfl rfl
      · exact hsame rfl rfl
    · cases hstep
  | fail =>
    simp only [State.step, State.stepCommit] at hstep
    split at hstep
    · cases hstep
      refine ⟨herr, rfl, rfl, fun r hr hnone => ?_⟩
      rcases mem_append.1 hr with hr | hr
      · exact hr
      · rw [mem_singleton.1 hr] at hnone
        cases hnone
    · cases hstep
  | next =>
    simp only [State.step, State.stepCommit] at hstep
    split at hstep
    · cases hstep
      exact hsame rfl rfl
    · cases hstep
      exact hsame rfl rfl
    · cases hstep
  | syncNow | rotate num | rotateFail err =>
    simp only [State.step] at hstep
    split at hstep
    · exact absurd (by assumption) herr
    · cases hstep
  | sealMem | ingestReserve =>
    simp only [State.step] at hstep
    split at hstep
    · cases hstep
      exact hsame rfl rfl
    · cases hstep
  | flushMem =>
    obtain ⟨imm, _, rfl⟩ := map_eq_some_iff.1 hstep
    exact hsame rfl rfl
  | ingestPublish =>
    simp only [State.step] at hstep
    split at hstep
    · cases hstep
      exact ⟨herr, rfl, rfl, fun r hr _ => hr⟩
    · cases hstep
  | ingestEnd committed =>
    simp only [State.step] at hstep
    split at hstep
    · cases hstep
      exact hsame rfl rfl
    · cases hstep
      exact hsame rfl rfl
    · cases hstep
  | damage keep torn =>
    cases hstep
    exact hsame rfl rfl
  | _ =>
    -- The other steps of the committer work on a group.
    simp only [State.step] at hstep
    rcases stepCommit_of_atRest hrest hstep with ha | ha | ha <;> cases ha

theorem Frozen.run {s s' : State} {as : List Action} (h : Inv s) (herr : s.err ≠ none)
    (hrun : Steps s as s') : Frozen s s' := by
  have hstart : Inv s ∧ Frozen s s := ⟨h, herr, rfl, rfl, fun r hr _ => hr⟩
  refine (Transition.Run.invariant (P := fun s₂ => Inv s₂ ∧ Frozen s s₂) ?_ hrun hstart).2
  intro s₁ a s₂ ⟨hinv, hfrozen⟩ _ hstep
  have hnext := Frozen.step hinv hfrozen.err hstep
  refine ⟨hinv.step hstep, hnext.err, hnext.applied.trans hfrozen.applied,
    hnext.published.trans hfrozen.published, fun r hr hnone => ?_⟩
  exact hfrozen.results r (hnext.results r hr hnone) hnone

/-- What writers, readers and the checkpoint may rely on in a state `s`, and what a
failed group means for any later state `s'`. -/
structure Committed (s s' : State) : Prop where
  queued : Ascending s.trace.enqueued.flatten ∧ ∀ b ∈ s.trace.enqueued, b ≠ []
  journaled : s.trace.journaled <+: s.trace.enqueued
  applied : s.trace.applied <+: s.trace.enqueued.flatten
  stored : s.flushed ++ s.imm.getD [] ++ s.mem = s.trace.applied
  observed : s.trace.observed <+: s.trace.enqueued
  visible : ∀ b ∈ s.trace.enqueued, lastSeq b ≤ s.readSeq → ∀ e ∈ b, e ∈ s.trace.applied
  whole : ∀ b ∈ s.trace.enqueued, (∀ e ∈ b, e.seq ≤ s.readSeq) ∨ ∀ e ∈ b, s.readSeq < e.seq
  watermark : s.readSeq = s.startSeq ∨
    (∃ b ∈ s.trace.enqueued, s.readSeq = lastSeq b ∧ ∀ e ∈ b, e ∈ s.trace.applied) ∨
    s.readSeq ∈ s.trace.ingested
  released : s.trace.results.map (·.1) <+: s.trace.enqueued
  answered : s.stage = .idle → s.trace.results.map (·.1) = s.trace.enqueued
  handed : s.written ++ s.buf = s.trace.journaled
  file : s.live.tail = .clean → retired s.trace.rotated ++ s.live.records = s.written
  success : ∀ b, (b, none) ∈ s.trace.results → b ∈ s.written ∧
    (s.sync = true → b ∈ s.trace.durable) ∧ (∀ e ∈ b, e ∈ s.trace.applied ∧ e.seq ≤ s.readSeq) ∧
    b ∈ s.trace.observed
  stopped : s.err ≠ none → s'.trace.applied = s.trace.applied ∧
    ∀ r ∈ s'.trace.results, r.2 = none → r ∈ s.trace.results
  drained : s.stage = .idle → s.pending = []
  covered : ∀ r ∈ s.trace.rotated, ∀ b ∈ r.1, b ∈ s.trace.durable ∧
    ∀ e ∈ b, e ∈ s.trace.applied ∧ e.seq ≤ r.2

/-- Batches go through the log in sequence order and become visible whole. -/
theorem group_commit_ordered {sync : Bool} {startSeq num : Nat} (hstart : startSeq ≤ maxIKeySeq)
    {as as' : List Action} {s s' : State} (hrun : Steps (State.start sync startSeq num) as s)
    (hlater : Steps s as' s') : Committed s s' := by
  have h := inv_of_run hrun (.start hstart sync num)
  have hn := h.order.nested
  have hpub : ∀ b ∈ s.trace.published, ∀ e ∈ b, e ∈ s.trace.applied := fun b hb e he =>
    h.applied_between.1.subset (mem_flatten.2 ⟨b, hb, he⟩)
  have hret : s.trace.results.map (·.1) ++ (s.stage.inFlight ++ s.pending) = s.trace.enqueued := by
    rw [← append_assoc, h.order.returned]
  refine ⟨⟨h.sequences.ascending, fun b hb => (h.sequences.numbered b hb).ne_nil⟩, hn.written,
    h.applied_between.2, h.memory, hn.observed.trans (hn.applied.trans hn.written), ?_, ?_, ?_,
    ⟨_, hret⟩, ?_, h.files.handed, h.files.intact, ?_, ?_, h.order.drained, ?_⟩
  · intro b hb hle
    by_cases hmem : b ∈ s.trace.published
    · exact hpub b hmem
    · obtain ⟨e, he, hlast⟩ := (h.sequences.numbered b hb).exists_last
      have hlt := h.sequences.hidden b hb hmem e he
      omega
  · intro b hb
    by_cases hmem : b ∈ s.trace.published
    · exact Or.inl (h.sequences.visible b hmem)
    · exact Or.inr (h.sequences.hidden b hb hmem)
  · rcases h.sequences.origin with hs | ⟨b, hb, heq⟩ | hi
    · exact Or.inl hs
    · exact Or.inr (Or.inl ⟨b, (hn.applied.trans hn.written).subset hb, heq, hpub b hb⟩)
    · exact Or.inr (Or.inr hi)
  · intro hidle
    rw [hidle, h.order.drained hidle] at hret
    simpa using hret
  · intro b hb
    have hobs : b ∈ s.trace.observed := h.order.success _ hb rfl
    have hmem := hn.observed.subset hobs
    exact ⟨h.files.visible b hmem, fun hs => (hn.synced hs).subset hmem,
      fun e he => ⟨hpub b hmem e he, h.sequences.visible b hmem e he⟩, hobs⟩
  · intro herr
    have hfrozen := Frozen.run h herr hlater
    exact ⟨hfrozen.applied, hfrozen.results⟩
  · intro r hr b hb
    obtain ⟨hd, hp, hle⟩ := h.files.rotated r hr b hb
    exact ⟨hd, fun e he => ⟨hpub b hp e he, hle e he⟩⟩

def lonePut : WalEntry := ⟨0, .put, [107], [118], 0⟩

def onePut : List Action :=
  [.enqueue [lonePut], .drain, .writeRecord, .flush, .fsync, .applyEntry, .publish, .applied,
    .observe false, .release, .next, .drain]

theorem group_commit_ordered_onePut :
    ∃ s, Transition.exec State.step (State.start true 0 1) onePut = some s ∧
      s.trace.results = [([{ lonePut with seq := 1 }], none)] ∧ Committed s s := by
  refine ⟨_, rfl, rfl, ?_⟩
  exact group_commit_ordered (by decide) (Transition.run_of_exec (fun _ _ => trivial)
    (show Transition.exec State.step (State.start true 0 1) onePut = some _ from rfl)) (.nil _)

/-- Under `NoSync` a waiter is released before its batch is durable, and a session
starts with a watermark that is no batch of its own. -/
theorem unsynced_batch_acknowledged :
    (∃ s, Transition.exec State.step (State.start false 5 1)
        [.enqueue [lonePut], .drain, .writeRecord, .flush, .applyEntry, .publish, .applied,
          .observe false, .release] = some s ∧
      ([{ lonePut with seq := 6 }], none) ∈ s.trace.results ∧
      [{ lonePut with seq := 6 }] ∉ s.trace.durable) ∧
    (State.start false 5 1).readSeq = 5 ∧ (State.start false 5 1).trace.enqueued = [] ∧
      (State.start false 5 1).trace.ingested = [] :=
  ⟨⟨_, rfl, by decide, by decide⟩, rfl, rfl, rfl⟩

end GroupCommit

end LevisDB
