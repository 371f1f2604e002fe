import LevisDB.Lib.Transition

/-!
# The background scheduler

Writers signal that there is work; one worker runs a pass of flushes and compactions for all
signals so far. `drain` and `Close` return when no work is outstanding. Every locked section is
one step, and signals, closes and the worker interleave in any order.
-/

namespace LevisDB

open Option Transition

/-- Where the worker is: about to look for work, parked on the condition, in a pass, or gone. -/
inductive Worker where
  | looking
  | parked
  | running
  | exited
  deriving DecidableEq

/-- The scheduler, and for how many signals a pass was begun and completed: `begun` of the
`signals` came before the last pass began, `served` before the last completed one did. -/
structure Scheduler where
  pending : Bool
  active : Bool
  closed : Bool
  outstanding : Nat
  worker : Worker
  signals : Nat
  begun : Nat
  served : Nat

namespace Scheduler

def newScheduler : Scheduler := ⟨false, false, false, 0, .looking, 0, 0, 0⟩

inductive Act where
  | signal
  | close
  /-- The worker takes the lock and looks for work. -/
  | look
  /-- A pass returns. -/
  | finish

/-- A wakeup reaches a worker that is parked and nobody else. -/
def woken (w : Worker) : Worker := if w = .parked then .looking else w

def signal (s : Scheduler) : Scheduler :=
  if s.closed then s
  else if s.pending then { s with signals := s.signals + 1 }
  else
    { s with
      pending := true
      outstanding := s.outstanding + 1
      worker := woken s.worker
      signals := s.signals + 1 }

def close (s : Scheduler) : Scheduler :=
  if s.closed then s else { s with closed := true, worker := woken s.worker }

def look (s : Scheduler) : Scheduler :=
  if !s.closed && (!s.pending || s.active) then { s with worker := .parked }
  else if s.closed && !s.pending then { s with worker := .exited }
  else { s with pending := false, active := true, worker := .running, begun := s.signals }

/-- The wait group counts one piece of work down; below zero it panics. -/
def finish (s : Scheduler) : Option Scheduler :=
  if s.outstanding = 0 then none
  else
    some { s with
      active := false
      outstanding := s.outstanding - 1
      worker := .looking
      served := s.begun }

def step (s : Scheduler) : Act → Option Scheduler
  | .signal => some s.signal
  | .close => some s.close
  | .look => if s.worker = .looking then some s.look else none
  | .finish => if s.worker = .running then s.finish else none

/-- Work is outstanding while it is pending or in a pass, the worker is parked only when there
is nothing to do, and what is not pending has been begun, what is not in a pass served. -/
structure Inv (s : Scheduler) : Prop where
  count : s.outstanding = s.pending.toNat + s.active.toNat
  pass : s.active = true ↔ s.worker = .running
  parked : s.worker = .parked → s.closed = false ∧ s.pending = false
  exited : s.worker = .exited → s.closed = true ∧ s.pending = false
  begun : s.pending = false → s.begun = s.signals
  served : s.active = false → s.served = s.begun

variable {s s' : Scheduler} {a : Act}

theorem inv_new : Inv newScheduler := by
  constructor <;> simp [newScheduler]

theorem Inv.idle (h : Inv s) (hzero : s.outstanding = 0) : s.pending = false ∧ s.active = false :=
    by
  have hcount := h.count
  cases hp : s.pending <;> cases ha : s.active <;> simp [hp, ha, hzero] at hcount ⊢

theorem Inv.finish (h : Inv s) (hw : s.worker = .running) :
    s.step .finish = some { s with
      active := false, outstanding := s.pending.toNat, worker := .looking, served := s.begun } := by
  have hcount := h.count
  rw [h.pass.2 hw, Bool.toNat_true] at hcount
  rw [Scheduler.step, if_pos hw, Scheduler.finish, if_neg (by omega), hcount, Nat.add_sub_cancel]

theorem Inv.step (h : Inv s) (hstep : s.step a = some s') : Inv s' := by
  cases a with
  | signal | close | look =>
    obtain ⟨hcount, hpass, hparked, hexited, hbegun, hserved⟩ := h
    constructor <;>
      grind [Scheduler.step, Scheduler.signal, Scheduler.close, Scheduler.look, woken]
  | finish =>
    obtain ⟨hw, _⟩ := ite_none_right_eq_some.1 hstep
    cases (h.finish hw).symm.trans hstep
    exact ⟨rfl, by simp, fun hw => (by cases hw), fun hw => (by cases hw), h.begun, fun _ => rfl⟩

theorem inv_of_run {as : List Act} (hrun : Transition.exec step newScheduler as = some s) : Inv s :=
  exec_invariant (fun _ _ _ h => h.step) hrun inv_new

theorem step_of_shut {w : Worker} (hclosed : s.closed = true) (hpending : s.pending = false)
    (hzero : s.outstanding = 0) (hstep : step { s with worker := w } a = some s') :
    ∃ w', s' = { s with worker := w' } := by
  cases a with
  | signal | close => exact ⟨w, by simpa [step, signal, close, hclosed] using hstep.symm⟩
  | look =>
    obtain ⟨_, hstep⟩ := ite_none_right_eq_some.1 hstep
    exact ⟨.exited, by simpa [look, hclosed, hpending] using hstep.symm⟩
  | finish => simp [step, finish, hzero] at hstep

theorem Inv.all_served (h : Inv s) (hzero : s.outstanding = 0) :
    s.active = false ∧ s.served = s.signals := by
  obtain ⟨hpending, hactive⟩ := h.idle hzero
  exact ⟨hactive, (h.served hactive).trans (h.begun hpending)⟩

/-- In any interleaving the passes do not overlap and the wait group never goes below zero;
where `drain` and `Close` can return, a whole pass began after every signal, and after `Close`
no other one begins: only the worker still leaves. -/
theorem signals_served {as : List Act} (hrun : Transition.exec step newScheduler as = some s) :
    (s.active = true ↔ s.worker = .running) ∧ (s.worker = .running → (s.step .finish).isSome) ∧
      (s.outstanding = 0 → s.active = false ∧ s.served = s.signals) ∧
      (s.closed = true → s.outstanding = 0 → ∀ bs s', Transition.exec step s bs = some s' →
        ∃ w, s' = { s with worker := w }) := by
  have h : Inv s := inv_of_run hrun
  refine ⟨h.pass, fun hw => ?_, h.all_served, fun hclosed hzero bs s' hexec => ?_⟩
  · rw [h.finish hw]
    rfl
  · refine exec_invariant (P := fun u => ∃ w, u = { s with worker := w }) ?_ hexec
      ⟨s.worker, rfl⟩
    rintro _ a u ⟨w, rfl⟩ hstep
    exact step_of_shut hclosed (h.idle hzero).1 hzero hstep

def rearmed : List Act := [.look, .signal, .look, .signal, .finish, .look, .close, .finish]

theorem signals_served_rearmed :
    ∃ s, Transition.exec step newScheduler rearmed = some s ∧ s.signals = 2 ∧
      s.served = s.signals := by
  obtain ⟨s, hs, hsignals, hzero⟩ := exists_exec step newScheduler rearmed
    (fun s => s.signals = 2 ∧ s.outstanding = 0) (by decide)
  exact ⟨s, hs, hsignals, ((signals_served hs).2.2.1 hzero).2⟩

theorem Inv.drains (h : Inv s) (hrest : s.worker ≠ .running) : ∃ (bs : List Act) (s' : Scheduler),
    (bs = [] ∨ bs = [.look, .finish]) ∧ Transition.exec Scheduler.step s bs = some s' ∧
      s'.outstanding = 0 ∧ s'.served = s.signals := by
  have hactive : s.active = false := by simpa [hrest] using h.pass
  cases hpending : s.pending with
  | false =>
    have hzero : s.outstanding = 0 := by simp [h.count, hpending, hactive]
    exact ⟨[], s, .inl rfl, rfl, hzero, (h.all_served hzero).2⟩
  | true =>
    -- pending work keeps the worker from being parked or gone
    have hw : s.worker = .looking := by
      cases hw : s.worker with
      | looking => rfl
      | parked => simpa [hpending] using (h.parked hw).2
      | running => exact absurd hw hrest
      | exited => simpa [hpending] using (h.exited hw).2
    have hlook : s.step .look =
        some { s with pending := false, active := true, worker := .running, begun := s.signals } :=
          by
      simp [Scheduler.step, Scheduler.look, hw, hpending, hactive]
    have hfinish := (h.step hlook).finish rfl
    exact ⟨[.look, .finish], _, .inr rfl, bind_eq_some_iff.2 ⟨_, hlook,
      bind_eq_some_iff.2 ⟨_, hfinish, rfl⟩⟩, rfl, rfl⟩

/-- No wakeup is lost: wherever an interleaving leaves the scheduler, the worker alone gets to
the end of the outstanding work in at most three steps, with every signal served. -/
theorem worker_drains {as : List Act} (hrun : Transition.exec step newScheduler as = some s) :
    ∃ bs s', bs.length ≤ 3 ∧ (∀ b ∈ bs, b = .look ∨ b = .finish) ∧
      Transition.exec step s bs = some s' ∧ s'.outstanding = 0 ∧ s'.served = s.signals := by
  have h : Inv s := inv_of_run hrun
  by_cases hw : s.worker = .running
  · have hstep := h.finish hw
    obtain ⟨bs, s', hbs, hexec, hdone⟩ := (h.step hstep).drains (by simp)
    refine ⟨.finish :: bs, s', ?_, ?_, bind_eq_some_iff.2 ⟨_, hstep, hexec⟩, hdone⟩
    all_goals rcases hbs with rfl | rfl <;> simp
  · obtain ⟨bs, s', hbs, hrest⟩ := h.drains hw
    refine ⟨bs, s', ?_, ?_, hrest⟩
    all_goals rcases hbs with rfl | rfl <;> simp

theorem worker_drains_rearmed :
    ∃ s, Transition.exec step newScheduler (rearmed.take 4) = some s ∧ ∃ bs s', bs.length ≤ 3 ∧
      Transition.exec step s bs = some s' ∧ s'.outstanding = 0 ∧ s'.served = s.signals := by
  obtain ⟨s, hs, _⟩ := exists_exec step newScheduler (rearmed.take 4)
    (fun s => s.outstanding = 2) (by decide)
  obtain ⟨bs, s', hlen, _, hrest⟩ := worker_drains hs
  exact ⟨s, hs, bs, s', hlen, hrest⟩

end Scheduler

end LevisDB
