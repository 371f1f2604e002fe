import LevisDB.Db.GroupCommit

/-!
# The order of a group commit

While the log is healthy, what has been journaled, synced, applied and observed
are four prefixes of one queue: the batches in the order they were enqueued. The
stage of the committer says how far each prefix has come.
-/

namespace LevisDB

open List

namespace GroupCommit

namespace Stage

/-- Batches of the group that have no result yet. -/
@[simp] def inFlight : Stage → List Batch
  | .writing group _ => group
  | .syncing group => group
  | .applying group _ _ => group
  | .observing left => left
  | .releasing b _ left => b :: left
  | .failing _ left => left
  | .idle | .draining => []

@[simp] def toWrite : Stage → List Batch
  | .writing _ left => left
  | _ => []

@[simp] def toSync : Stage → List Batch
  | .writing group _ => group
  | .syncing group => group
  | _ => []

@[simp] def toApply : Stage → List Batch
  | .writing group _ => group
  | .syncing group => group
  | .applying _ rest _ => rest
  | _ => []

@[simp] def toObserve : Stage → List Batch
  | .writing group _ => group
  | .syncing group => group
  | .applying group _ _ => group
  | .observing left => left
  | .releasing _ _ left => left
  | _ => []

/-- The rest of a group is a suffix of it. -/
@[simp] def Shaped : Stage → Prop
  | .writing group left => left <:+ group
  | .applying group rest _ => rest <:+ group
  | _ => True

/-- Stages in which nothing of a group is written, applied or observed. -/
@[simp] def AtRest : Stage → Prop
  | .idle | .draining | .failing _ _ => True
  | _ => False

@[simp] def Writing : Stage → Prop
  | .writing _ _ => True
  | _ => False

@[simp] def Failing : Stage → Prop
  | .failing _ _ => True
  | _ => False

theorem applyFrom_eq (group rest : List Batch) :
    Stage.applyFrom group rest = .applying group rest (rest.headD []) := by
  cases rest with
  | nil => rfl
  | cons b rest => rfl

end Stage

structure Healthy (sync : Bool) (stage : Stage) (pending : List Batch) (t : Trace) : Prop where
  running : ¬ stage.Failing
  written : t.journaled ++ stage.toWrite ++ pending = t.enqueued
  synced : sync = true → t.durable ++ stage.toSync ++ pending = t.enqueued
  applied : t.published ++ stage.toApply ++ pending = t.enqueued
  observed : t.observed ++ stage.toObserve ++ pending = t.enqueued

/-- How the prefixes are nested, in any state. -/
structure Nested (sync : Bool) (t : Trace) : Prop where
  written : t.journaled <+: t.enqueued
  applied : t.published <+: t.journaled
  synced : sync = true → t.published <+: t.durable
  observed : t.observed <+: t.published

/-- Every waiter is released once, in the order of the queue, and with success only
when its batch has gone all the way. -/
structure Order (sync : Bool) (err : Option Err) (stage : Stage) (pending : List Batch)
    (t : Trace) : Prop where
  returned : t.results.map (·.1) ++ stage.inFlight ++ pending = t.enqueued
  drained : stage = .idle → pending = []
  shaped : stage.Shaped
  healthy : err = none → Healthy sync stage pending t
  poisoned : err ≠ none → stage.AtRest ∧ Nested sync t
  success : ∀ r ∈ t.results, r.2 = none → r.1 ∈ t.observed

theorem prefix_of_append_eq {α : Type} {xs ys us vs : List α} (h : xs ++ us = ys ++ vs)
    (hsuffix : vs <:+ us) : xs <+: ys := by
  obtain ⟨ws, rfl⟩ := hsuffix
  rw [← append_assoc] at h
  exact ⟨ws, append_cancel_right h⟩

namespace Healthy

variable {sync : Bool} {stage : Stage} {pending : List Batch} {t : Trace}

theorem nested (h : Healthy sync stage pending t) (hshape : stage.Shaped) : Nested sync t where
  written := ⟨stage.toWrite ++ pending, by rw [← append_assoc, h.written]⟩
  applied := by
    refine prefix_of_append_eq (append_cancel_right (h.applied.trans h.written.symm)) ?_
    cases stage <;> simp_all
  synced hsync := by
    refine prefix_of_append_eq (append_cancel_right (h.applied.trans (h.synced hsync).symm)) ?_
    cases stage <;> simp_all
  observed := by
    refine prefix_of_append_eq (append_cancel_right (h.observed.trans h.applied.symm)) ?_
    cases stage <;> simp_all

theorem restage (h : Healthy sync stage pending t) {stage' : Stage} (hrun : ¬ stage'.Failing)
    (hwrite : stage'.toWrite = stage.toWrite) (hsync : stage'.toSync = stage.toSync)
    (happly : stage'.toApply = stage.toApply) (hobserve : stage'.toObserve = stage.toObserve) :
    Healthy sync stage' pending t where
  running := hrun
  written := hwrite ▸ h.written
  synced hs := hsync ▸ h.synced hs
  applied := happly ▸ h.applied
  observed := hobserve ▸ h.observed

end Healthy

namespace Order

variable {sync : Bool} {err : Option Err} {stage : Stage} {pending : List Batch} {t : Trace}
variable {b : Batch} {group left : List Batch}

theorem nested (h : Order sync err stage pending t) : Nested sync t := by
  by_cases herr : err = none
  · exact (h.healthy herr).nested h.shaped
  · exact (h.poisoned herr).2

theorem healthy_of_busy (h : Order sync err stage pending t) (hbusy : ¬ stage.AtRest) :
    err = none := by
  by_contra herr
  exact hbusy (h.poisoned herr).1

theorem enqueue (h : Order sync none stage pending t) (b : Batch) :
    Order sync none stage.woken (pending ++ [b]) { t with enqueued := t.enqueued ++ [b] } := by
  have hh := h.healthy rfl
  have hsame : stage.woken.inFlight = stage.inFlight ∧ stage.woken.Shaped = stage.Shaped ∧
      stage.woken ≠ .idle ∧ (¬ stage.Failing → ¬ stage.woken.Failing) ∧
      stage.woken.toWrite = stage.toWrite ∧ stage.woken.toSync = stage.toSync ∧
      stage.woken.toApply = stage.toApply ∧ stage.woken.toObserve = stage.toObserve := by
    cases stage <;> simp [Stage.woken]
  obtain ⟨hflight, hshaped, hidle, hrun, hwrite, hsync, happly, hobserve⟩ := hsame
  refine ⟨?_, fun hs => absurd hs hidle, hshaped ▸ h.shaped, fun _ => ?_, fun hne => absurd rfl hne,
    h.success⟩
  · rw [hflight, ← append_assoc, h.returned]
  · have hh' := hh.restage (hrun hh.running) hwrite hsync happly hobserve
    refine ⟨hh'.running, ?_, fun hs => ?_, ?_, ?_⟩
    · rw [← append_assoc, hh'.written]
    · rw [← append_assoc, hh'.synced hs]
    · rw [← append_assoc, hh'.applied]
    · rw [← append_assoc, hh'.observed]

theorem drain (h : Order sync err .draining pending t) :
    (pending = [] → Order sync err .idle [] t) ∧
      (∀ e, err = some e → Order sync err (.failing e pending) [] t) ∧
      (err = none → Order sync err (.writing pending pending) [] t) := by
  have hret : t.results.map (·.1) ++ pending = t.enqueued := by simpa using h.returned
  refine ⟨fun hnil => ?_, fun e he => ?_, fun he => ?_⟩
  · subst hnil
    refine ⟨h.returned, fun _ => rfl, trivial, fun hnone => ?_, fun hne => ?_, h.success⟩
    · exact (h.healthy hnone).restage (by simp) rfl rfl rfl rfl
    · exact ⟨trivial, (h.poisoned hne).2⟩
  · refine ⟨by simpa using hret, by simp, trivial, fun hnone => ?_, fun hne => ?_, h.success⟩
    · rw [he] at hnone
      cases hnone
    · exact ⟨trivial, (h.poisoned hne).2⟩
  · have hh := h.healthy he
    refine ⟨by simpa using hret, by simp, suffix_refl _, fun _ => ?_,
      fun hne => absurd he hne, h.success⟩
    exact ⟨by simp, by simpa using hh.written, by simpa using hh.synced, by simpa using hh.applied,
      by simpa using hh.observed⟩

theorem writeRecord (h : Order sync err (.writing group (b :: left)) pending t) :
    Order sync err (.writing group left) pending { t with journaled := t.journaled ++ [b] } := by
  have herr := h.healthy_of_busy (by simp)
  have hh := h.healthy herr
  refine ⟨h.returned, by simp, (suffix_cons b left).trans h.shaped, fun _ => ?_,
    fun hne => absurd herr hne, h.success⟩
  exact ⟨by simp, by simpa using hh.written, hh.synced, hh.applied, hh.observed⟩

theorem flush (h : Order sync err (.writing group []) pending t) :
    Order sync err (if sync then .syncing group else .applyFrom group group) pending t := by
  have herr := h.healthy_of_busy (by simp)
  have hh := h.healthy herr
  cases hsync : sync with
  | true =>
    refine ⟨h.returned, by simp, trivial, fun _ => ?_, fun hne => absurd herr hne, h.success⟩
    exact ⟨by simp, hh.written, by simpa using hh.synced hsync, hh.applied, hh.observed⟩
  | false =>
    rw [if_neg (by simp), Stage.applyFrom_eq]
    refine ⟨h.returned, by simp, suffix_refl _, fun _ => ?_, fun hne => absurd herr hne,
      h.success⟩
    exact ⟨by simp, hh.written, by simp, hh.applied, hh.observed⟩

theorem fsync (h : Order sync err (.syncing group) pending t) :
    Order sync err (.applyFrom group group) pending { t with durable := t.journaled } := by
  have herr := h.healthy_of_busy (by simp)
  have hh := h.healthy herr
  rw [Stage.applyFrom_eq]
  refine ⟨h.returned, by simp, suffix_refl _, fun _ => ?_, fun hne => absurd herr hne, h.success⟩
  exact ⟨by simp, hh.written, fun _ => hh.written, hh.applied, hh.observed⟩

theorem poison (h : Order sync err stage pending t) (e : Err) :
    Order sync (some e) (.failing e stage.inFlight) pending t :=
  ⟨h.returned, by simp, trivial, by simp, fun _ => ⟨trivial, h.nested⟩, h.success⟩

theorem publish {rest : List Batch} {todo : Batch}
    (h : Order sync err (.applying group (b :: rest) todo) pending t) :
    Order sync err (.applyFrom group rest) pending { t with published := t.published ++ [b] } := by
  have herr := h.healthy_of_busy (by simp)
  have hh := h.healthy herr
  rw [Stage.applyFrom_eq]
  refine ⟨h.returned, by simp, (suffix_cons b rest).trans h.shaped, fun _ => ?_,
    fun hne => absurd herr hne, h.success⟩
  exact ⟨by simp, hh.written, hh.synced, by simpa using hh.applied, hh.observed⟩

theorem applied {todo : Batch}
    (h : Order sync err (.applying group [] todo) pending t) :
    Order sync err (.observing group) pending t := by
  have herr := h.healthy_of_busy (by simp)
  refine ⟨h.returned, by simp, trivial, fun _ => ?_, fun hne => absurd herr hne, h.success⟩
  exact (h.healthy herr).restage (by simp) rfl rfl rfl rfl

theorem observe (h : Order sync err (.observing (b :: left)) pending t)
    (result : Option Err) :
    Order sync err (.releasing b result left) pending { t with observed := t.observed ++ [b] } := by
  have herr := h.healthy_of_busy (by simp)
  have hh := h.healthy herr
  refine ⟨h.returned, by simp, trivial, fun _ => ?_, fun hne => absurd herr hne,
    fun r hr hnone => ?_⟩
  · exact ⟨by simp, hh.written, hh.synced, hh.applied, by simpa using hh.observed⟩
  · exact mem_append_left _ (h.success r hr hnone)

theorem release {result : Option Err}
    (h : Order sync err (.releasing b result left) pending t) :
    Order sync err (.observing left) pending { t with results := t.results ++ [(b, result)] } := by
  have herr := h.healthy_of_busy (by simp)
  have hh := h.healthy herr
  -- The batch being released is the last one observed.
  have hlast : t.observed = t.results.map (·.1) ++ [b] := by
    have heq : t.observed ++ (left ++ pending) = (t.results.map (·.1) ++ [b]) ++
      (left ++ pending) := by
      simpa using hh.observed.trans h.returned.symm
    exact append_cancel_right heq
  refine ⟨by simpa using h.returned, by simp, trivial, fun _ => ?_, fun hne => absurd herr hne,
    fun r hr hnone => ?_⟩
  · exact ⟨by simp, hh.written, hh.synced, hh.applied, hh.observed⟩
  · rcases mem_append.1 hr with hr | hr
    · exact h.success r hr hnone
    · rw [mem_singleton.1 hr]
      simp [hlast]

theorem fail {e : Err}
    (h : Order sync err (.failing e (b :: left)) pending t) :
    Order sync err (.failing e left) pending { t with results := t.results ++ [(b, some e)] } := by
  refine ⟨by simpa using h.returned, by simp, trivial, fun hnone => ?_, fun hne => ?_,
    fun r hr hnone => ?_⟩
  · exact absurd trivial (h.healthy hnone).running
  · have hn := (h.poisoned hne).2
    exact ⟨trivial, hn.written, hn.applied, hn.synced, hn.observed⟩
  · rcases mem_append.1 hr with hr | hr
    · exact h.success r hr hnone
    · rw [mem_singleton.1 hr] at hnone
      cases hnone

theorem next (h : Order sync err stage pending t)
    (hstage : stage = .observing [] ∨ ∃ e, stage = .failing e []) :
    Order sync err .draining pending t := by
  have hflight : stage.inFlight = [] := by
    rcases hstage with rfl | ⟨e, rfl⟩
    · rfl
    · rfl
  have hret := h.returned
  rw [hflight] at hret
  refine ⟨hret, by simp, trivial, fun hnone => ?_, fun hne => ?_, h.success⟩
  · rcases hstage with rfl | ⟨e, rfl⟩
    · exact (h.healthy hnone).restage (by simp) rfl rfl rfl rfl
    · exact absurd trivial (h.healthy hnone).running
  · exact ⟨trivial, (h.poisoned hne).2⟩

section

variable (h : Order sync none .idle pending t)
include h

theorem syncNow :
    Order sync none .idle pending { t with durable := t.journaled } := by
  have hh := h.healthy rfl
  refine ⟨h.returned, h.drained, trivial, fun _ => ?_, fun hne => absurd rfl hne, h.success⟩
  exact ⟨by simp, hh.written, fun _ => hh.written, hh.applied, hh.observed⟩

theorem rotateFail (e : Err) :
    Order sync (some e) .idle pending t :=
  ⟨h.returned, h.drained, trivial, by simp, fun _ => ⟨trivial, h.nested⟩, h.success⟩

theorem published_of_idle : t.published = t.enqueued := by
  have heq := (h.healthy rfl).applied
  rw [h.drained rfl] at heq
  simpa using heq

end

end Order

end GroupCommit

end LevisDB
