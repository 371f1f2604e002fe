import LevisDB.Lib.Clock
import LevisDB.Lib.Loop
import LevisDB.Lib.Transition

/-!
# Descriptor pool

Table files are opened on demand and closed again by a clock sweep when more of them are
open than the limit allows, or by a reaper when they have been idle. The open handles form a
ring, and each records its place in it; taking one out moves the last one into its place. As
long as operations do not overlap, exactly the open handles are in the ring, and admitting a
handle ends within the limit or with a read in progress on every other open handle.
-/

namespace LevisDB

open List Function

/-- A handle of a table file. `evictions` counts the calls of its eviction callback. -/
structure OpenFile where
  isOpen : Bool
  used : Bool
  lastUsed : Int
  inflight : Nat
  ringIx : Int
  inRing : Bool
  evictions : Nat

structure FdPool where
  limit : Int
  ring : List Nat
  hand : Nat
  openCount : Int
  handles : Nat → OpenFile

namespace FdPool

def newHandle : OpenFile := ⟨false, false, 0, 0, 0, false, 0⟩

def newFDPool (limit : Int) : FdPool := ⟨limit, [], 0, 0, fun _ => newHandle⟩

def modifyHandle (p : FdPool) (h : Nat) (f : OpenFile → OpenFile) : FdPool :=
  { p with handles := Function.update p.handles h (f (p.handles h)) }

/-- Takes `h` out by moving the last element into its slot; none on an index out of range. -/
def removeLocked (p : FdPool) (h : Nat) : Option FdPool :=
  let last := p.ring.length - 1
  let ix := (p.handles h).ringIx
  match p.ring[last]? with
  | none => none
  | some moved =>
    if 0 ≤ ix ∧ ix < p.ring.length then
      let p' := p.modifyHandle moved fun f => { f with ringIx := ix }
      let p' := p'.modifyHandle h fun f => { f with inRing := false, ringIx := -1 }
      some { p' with
        ring := (p.ring.set ix.toNat moved).take last
        hand := if last < p.hand then 0 else p.hand
        openCount := p.openCount - 1 }
    else none

def withHand (p : FdPool) (hand : Nat) : FdPool := { p with hand := hand }

def wrapHand (p : FdPool) : FdPool := if p.ring.length ≤ p.hand then p.withHand 0 else p

def advance (p : FdPool) : FdPool := p.withHand (p.hand + 1)

def unmark (p : FdPool) (v : Nat) : FdPool := p.modifyHandle v fun f => { f with used := false }

/-- The sweep of `clockEvict` for a number of steps. -/
def clockSweep (keep : Nat) : Nat → FdPool → Option (Option Nat × FdPool)
  | 0, p => some (none, p)
  | steps + 1, p =>
    let p := p.wrapHand
    match p.ring[p.hand]? with
    | none => none
    | some v =>
      if v = keep then clockSweep keep steps p.advance
      else if 0 < (p.handles v).inflight then clockSweep keep steps p.advance
      else if (p.handles v).used then clockSweep keep steps (p.unmark v).advance
      else (p.removeLocked v).map fun p' => (some v, p')

/-- Removes the first handle without a second chance, if there is one within two passes. -/
def clockEvict (p : FdPool) (keep : Nat) : Option (Option Nat × FdPool) :=
  if p.ring.length = 0 then some (none, p) else clockSweep keep (2 * p.ring.length) p

def closeVictim (p : FdPool) (v : Nat) : FdPool :=
  if (p.handles v).inRing = false ∧ (p.handles v).isOpen then
    p.modifyHandle v fun f => { f with isOpen := false, evictions := f.evictions + 1 }
  else p

def closeVictims (p : FdPool) (victims : List Nat) : FdPool := victims.foldl closeVictim p

def register (p : FdPool) (h : Nat) : FdPool :=
  if (p.handles h).inRing then p
  else
    { p.modifyHandle h (fun f => { f with ringIx := p.ring.length, inRing := true }) with
      ring := p.ring ++ [h]
      openCount := p.openCount + 1 }

/-- One round of the loop of `admit`: the pool and the victims so far. The result is none on a
fault. -/
def admitStep (keep : Nat) (s : FdPool × List Nat) :
    Option (FdPool × List Nat) ⊕ FdPool × List Nat :=
  if s.1.limit < s.1.openCount then
    match s.1.clockEvict keep with
    | none => .inl none
    | some (none, p) => .inl (some (p, s.2))
    | some (some v, p) => .inr (p, s.2 ++ [v])
  else .inl (some s)

/-- Registers an opened handle and evicts down to the limit; none on a fault, or if the loop
would not end. -/
def admitHandle (p : FdPool) (h : Nat) : Option FdPool :=
  let p := p.register h
  if p.limit ≤ 0 then some p
  else
    (Loop.run (admitStep h) (p.ring.length + 1) (p, [])).join.map fun s => s.1.closeVictims s.2

def markUsed (p : FdPool) (h : Nat) (now : Int) : FdPool :=
  p.modifyHandle h fun f => { f with used := true, lastUsed := now }

/-- Makes sure the descriptor is open; `opens` says whether the file can be opened. -/
def ensureOpen (p : FdPool) (h : Nat) (now : Int) (opens : Bool) : Option FdPool :=
  if (p.handles h).isOpen then some (p.markUsed h now)
  else if opens then
    ((p.modifyHandle h fun f => { f with isOpen := true }).markUsed h now).admitHandle h
  else some p

def remove (p : FdPool) (h : Nat) : Option FdPool :=
  if (p.handles h).inRing then p.removeLocked h else some p

def close (p : FdPool) (h : Nat) : Option FdPool :=
  (p.remove h).map fun p => p.modifyHandle h fun f => { f with isOpen := false }

/-- One handle of the reaper's snapshot. -/
def reapStep (cutoff : Int) (s : FdPool × List Nat) (v : Nat) : Option (FdPool × List Nat) :=
  if 0 < (s.1.handles v).inflight then some s
  else if cutoff < (s.1.handles v).lastUsed then some s
  else (s.1.removeLocked v).map fun p => (p, s.2 ++ [v])

/-- Closes the handles untouched since `now - timeout`, and says how many. -/
def reapIdle (p : FdPool) (now timeout : Int) : Option (FdPool × Nat) :=
  (p.ring.foldlM (reapStep (now - timeout)) (p, [])).map fun s =>
    (s.1.closeVictims s.2, s.2.length)

/-- The ring: each member records its index, the marked handles are the members, the open
count is the length, and the hand is on the ring or right behind it. -/
structure Ringed (p : FdPool) : Prop where
  slot : ∀ i h : Nat, p.ring[i]? = some h → (p.handles h).inRing = true ∧ (p.handles h).ringIx = i
  member : ∀ h, (p.handles h).inRing = true → h ∈ p.ring
  count : p.openCount = p.ring.length
  hand : p.hand ≤ p.ring.length

variable {p p' q : FdPool} {h v x : Nat} {vs ws : List Nat}

@[simp] theorem modifyHandle_self (p : FdPool) (h : Nat) (f : OpenFile → OpenFile) :
    (p.modifyHandle h f).handles h = f (p.handles h) := update_self ..

theorem modifyHandle_of_ne (p : FdPool) (f : OpenFile → OpenFile) (hne : x ≠ h) :
    (p.modifyHandle h f).handles x = p.handles x := update_of_ne hne ..

theorem modifyHandle_congr {β : Type} (g : OpenFile → β) {f : OpenFile → OpenFile}
    (hg : g (f (p.handles h)) = g (p.handles h)) (x : Nat) :
    g ((p.modifyHandle h f).handles x) = g (p.handles x) := by
  by_cases hx : x = h
  · subst hx
    rw [modifyHandle_self, hg]
  · rw [modifyHandle_of_ne _ _ hx]

theorem ringed_new (limit : Int) : (newFDPool limit).Ringed :=
  ⟨fun i h heq => (by cases heq), fun h heq => (by cases heq), rfl, Nat.le_refl _⟩

theorem Ringed.inRing_iff (hp : p.Ringed) : (p.handles h).inRing = true ↔ h ∈ p.ring := by
  refine ⟨hp.member h, fun hmem => ?_⟩
  obtain ⟨i, hi⟩ := mem_iff_getElem?.1 hmem
  exact (hp.slot i h hi).1

theorem Ringed.index_inj (hp : p.Ringed) {i j : Nat} (hi : p.ring[i]? = some h)
    (hj : p.ring[j]? = some h) : i = j := by
  have heq := (hp.slot i h hi).2.symm.trans (hp.slot j h hj).2
  omega

theorem Ringed.nodup (hp : p.Ringed) : p.ring.Nodup := by
  rw [List.nodup_iff_getElem?_ne_getElem?]
  intro i j hij hj heq
  rw [List.getElem?_eq_getElem hj] at heq
  have := hp.index_inj heq (List.getElem?_eq_getElem hj)
  omega

theorem Ringed.congr (hp : p.Ringed) (hring : p'.ring = p.ring) (hhand : p'.hand ≤ p.ring.length)
    (hcount : p'.openCount = p.openCount)
    (hsame : ∀ x, (p'.handles x).inRing = (p.handles x).inRing ∧
      (p'.handles x).ringIx = (p.handles x).ringIx) : p'.Ringed := by
  refine ⟨?_, ?_, ?_, ?_⟩
  · intro i h hi
    rw [(hsame h).1, (hsame h).2]
    exact hp.slot i h (hring ▸ hi)
  · intro h hh
    rw [(hsame h).1] at hh
    exact hring ▸ hp.member h hh
  · rw [hcount, hring, hp.count]
  · rw [hring]
    exact hhand

theorem Ringed.modifyHandle (hp : p.Ringed) {f : OpenFile → OpenFile}
    (hin : (f (p.handles h)).inRing = (p.handles h).inRing)
    (hix : (f (p.handles h)).ringIx = (p.handles h).ringIx) : (p.modifyHandle h f).Ringed :=
  hp.congr rfl hp.hand rfl fun x =>
    ⟨modifyHandle_congr OpenFile.inRing hin x, modifyHandle_congr OpenFile.ringIx hix x⟩

/-- What eviction reads of a handle and never changes. -/
def core (f : OpenFile) : Bool × Nat := (f.isOpen, f.inflight)

/-- Handles are taken out of the ring, none of them with a read in progress; they are not
closed yet. -/
structure Drops (p p' : FdPool) (vs : List Nat) : Prop where
  ringed : p'.Ringed
  limit : p'.limit = p.limit
  inRing : ∀ x, (p'.handles x).inRing = true ↔ (p.handles x).inRing = true ∧ x ∉ vs
  core : ∀ x, core (p'.handles x) = core (p.handles x)
  idle : ∀ v ∈ vs, (p.handles v).inRing = true ∧ (p.handles v).inflight = 0
  length : p'.ring.length + vs.length = p.ring.length

theorem Drops.refl (hp : p.Ringed) : Drops p p [] :=
  ⟨hp, rfl, fun x => by simp, fun _ => rfl, fun v hv => (by cases hv), rfl⟩

theorem Drops.isOpen (h : Drops p q vs) (x : Nat) :
    (q.handles x).isOpen = (p.handles x).isOpen := congrArg Prod.fst (h.core x)

theorem Drops.inflight (h : Drops p q vs) (x : Nat) :
    (q.handles x).inflight = (p.handles x).inflight := congrArg Prod.snd (h.core x)

theorem Drops.trans (h : Drops p q vs) (h' : Drops q p' ws) : Drops p p' (vs ++ ws) := by
  refine ⟨h'.ringed, h'.limit.trans h.limit, ?_, fun x => (h'.core x).trans (h.core x), ?_, ?_⟩
  · intro x
    rw [h'.inRing, h.inRing, mem_append]
    tauto
  · intro v hv
    rcases mem_append.1 hv with hv | hv
    · exact h.idle v hv
    · have hidle := h'.idle v hv
      exact ⟨((h.inRing v).1 hidle.1).1, (h.inflight v).symm.trans hidle.2⟩
  · have := h.length
    have := h'.length
    rw [length_append]
    omega

theorem removed_getElem? {ring : List Nat} {ix moved i : Nat} (hix : ix < ring.length)
    (hi : ((ring.set ix moved).take (ring.length - 1))[i]? = some x) :
    i < ring.length - 1 ∧ ((i = ix ∧ x = moved) ∨ (i ≠ ix ∧ ring[i]? = some x)) := by
  rw [List.getElem?_take] at hi
  split_ifs at hi with hlt
  refine ⟨hlt, ?_⟩
  rw [List.getElem?_set] at hi
  split_ifs at hi with heq
  · exact .inl ⟨heq.symm, (Option.some.inj hi).symm⟩
  · exact .inr ⟨Ne.symm heq, hi⟩

theorem removed_of_getElem? {ring : List Nat} {ix moved i : Nat} (hlt : i < ring.length - 1)
    (hi : ring[i]? = some x) (hne : i ≠ ix) :
    ((ring.set ix moved).take (ring.length - 1))[i]? = some x := by
  rw [List.getElem?_take, if_pos hlt, List.getElem?_set_ne (Ne.symm hne), hi]

theorem Ringed.removeLocked (hp : p.Ringed) (hin : (p.handles h).inRing = true)
    (hidle : (p.handles h).inflight = 0) :
    ∃ p', p.removeLocked h = some p' ∧ Drops p p' [h] := by
  obtain ⟨ix, hix⟩ := mem_iff_getElem?.1 (hp.member h hin)
  have hixlt := (List.getElem?_eq_some_iff.1 hix).1
  have hlast : p.ring.length - 1 < p.ring.length := by omega
  have hmoved := List.getElem?_eq_getElem hlast
  generalize p.ring[p.ring.length - 1] = moved at hmoved
  have hringIx : (p.handles h).ringIx = ix := (hp.slot ix h hix).2
  -- the moved member is `h` itself exactly if `h` is the last one
  have hmovedEq : moved = h → ix = p.ring.length - 1 := by
    rintro rfl
    exact hp.index_inj hix hmoved
  have hlastNe : ∀ {i : Nat}, p.ring[i]? = some moved → i = p.ring.length - 1 :=
    fun hi => hp.index_inj hi hmoved
  unfold FdPool.removeLocked
  dsimp only
  rw [hmoved, hringIx]
  dsimp only
  rw [if_pos ⟨by omega, by omega⟩, Int.toNat_natCast]
  generalize hafter : ((p.modifyHandle moved fun f =>
    { f with ringIx := (ix : Int) }).modifyHandle h
    fun f => { f with inRing := false, ringIx := -1 }) = r
  have hself : r.handles h = { (r.handles h) with inRing := false } := by
    rw [← hafter, modifyHandle_self]
  have hother : ∀ x, x ≠ h → x ≠ moved → r.handles x = p.handles x := by
    intro x hx hxm
    rw [← hafter, modifyHandle_of_ne _ _ hx, modifyHandle_of_ne _ _ hxm]
  have hmovedAt : moved ≠ h → r.handles moved = { (p.handles moved) with ringIx := (ix : Int) } :=
    by
    intro hne
    rw [← hafter, modifyHandle_of_ne _ _ hne, modifyHandle_self]
  have hflag : ∀ x, (r.handles x).inRing = true ↔ (p.handles x).inRing = true ∧ x ∉ [h] := by
    intro x
    rw [mem_singleton]
    by_cases hx : x = h
    · subst hx
      rw [hself]
      simp
    · by_cases hxm : x = moved
      · subst hxm
        rw [hmovedAt hx]
        simp [hx]
      · rw [hother x hx hxm]
        simp [hx]
  have hcore : ∀ x, core (r.handles x) = core (p.handles x) := by
    intro x
    rw [← hafter]
    exact (modifyHandle_congr core rfl x).trans (modifyHandle_congr core rfl x)
  have hlength : ((p.ring.set ix moved).take (p.ring.length - 1)).length = p.ring.length - 1 := by
    rw [length_take, length_set]
    omega
  refine ⟨_, rfl, ⟨⟨?_, ?_, ?_, ?_⟩, ?_, hflag, hcore, ?_, ?_⟩⟩
  · intro i x hi
    obtain ⟨hlt, ⟨rfl, rfl⟩ | ⟨hne, hi⟩⟩ := removed_getElem? hixlt hi
    · have hxh : x ≠ h := fun heq => by
        have := hmovedEq heq
        omega
      have hkept := (hp.slot _ x hmoved).1
      change (r.handles x).inRing = true ∧ (r.handles x).ringIx = _
      rw [hmovedAt hxh]
      exact ⟨hkept, rfl⟩
    · have hxh : x ≠ h := fun heq => hne (hp.index_inj hi (heq ▸ hix))
      have hxm : x ≠ moved := fun heq => by
        have := hlastNe (heq ▸ hi)
        omega
      change (r.handles x).inRing = true ∧ (r.handles x).ringIx = _
      rw [hother x hxh hxm]
      exact hp.slot i x hi
  · intro x hx
    obtain ⟨hxin, hxh⟩ := (hflag x).1 hx
    rw [mem_singleton] at hxh
    obtain ⟨i, hi⟩ := mem_iff_getElem?.1 (hp.member x hxin)
    have hilt := (List.getElem?_eq_some_iff.1 hi).1
    rw [mem_iff_getElem?]
    by_cases hil : i = p.ring.length - 1
    · -- the last member has moved to the freed slot
      subst hil
      cases hi.symm.trans hmoved
      have hixne : ix ≠ p.ring.length - 1 := by
        rintro rfl
        exact hxh (Option.some.inj (hi.symm.trans hix))
      refine ⟨ix, ?_⟩
      rw [List.getElem?_take, if_pos (by omega), List.getElem?_set_self hixlt]
    · refine ⟨i, removed_of_getElem? (by omega) hi ?_⟩
      rintro rfl
      exact hxh (Option.some.inj (hi.symm.trans hix))
  · change p.openCount - 1 = _
    rw [hp.count, hlength]
    omega
  · change (if p.ring.length - 1 < p.hand then 0 else p.hand) ≤ _
    rw [hlength]
    split <;> omega
  · rw [← hafter]
    rfl
  · intro v hv
    obtain rfl := mem_singleton.1 hv
    exact ⟨hin, hidle⟩
  · rw [hlength, length_singleton]
    omega

/-- Who the sweep passes over: the handle to keep, and those with a read in progress. -/
def skips (p : FdPool) (keep v : Nat) : Bool := decide (v = keep ∨ 0 < (p.handles v).inflight)

def marks (p : FdPool) (v : Nat) : Bool := (p.handles v).used

/-- The pool with the hand and the marks as a sweep leaves them. -/
def withMarks (p : FdPool) (hand : Nat) (used : Nat → Bool) : FdPool :=
  { p with hand := hand, handles := fun x => { p.handles x with used := used x } }

/-- What comes of a sweep: the one it picked is removed. -/
def swept (p : FdPool) (r : Option Nat × Nat × (Nat → Bool)) : Option (Option Nat × FdPool) :=
  match r.1 with
  | none => some (none, p.withMarks r.2.1 r.2.2)
  | some v => ((p.withMarks r.2.1 r.2.2).removeLocked v).map fun p' => (some v, p')

theorem unmark_handles (p : FdPool) (v x : Nat) :
    (p.unmark v).handles x =
      { p.handles x with used := Function.update p.marks v false x } := by
  by_cases hx : x = v
  · subst hx
    rw [unmark, modifyHandle_self, update_self]
  · rw [unmark, modifyHandle_of_ne _ _ hx, update_of_ne hx]
    rfl

theorem withMarks_unmark (p : FdPool) (v hand : Nat) (used : Nat → Bool) :
    (p.unmark v).withMarks hand used = p.withMarks hand used := by
  unfold withMarks
  congr 1
  funext x
  rw [unmark_handles]

theorem marks_unmark (p : FdPool) (v : Nat) :
    (p.unmark v).marks = Function.update p.marks v false := by
  funext x
  rw [marks, unmark_handles]

theorem skips_unmark (p : FdPool) (v keep : Nat) : (p.unmark v).skips keep = p.skips keep := by
  funext x
  rw [skips, unmark_handles]
  rfl

theorem wrapHand_eq (p : FdPool) : p.wrapHand = p.withHand (Clock.position p.ring p.hand) := by
  unfold wrapHand Clock.position
  split <;> rfl

theorem clockSweep_eq (keep steps : Nat) (hne : p.ring ≠ []) :
    clockSweep keep steps p = p.swept (Clock.sweep p.ring (p.skips keep) steps p.hand p.marks) := by
  induction steps generalizing p with
  | zero => rfl
  | succ steps ih =>
    have hpos := Clock.position_lt hne p.hand
    rw [clockSweep, Clock.sweep, wrapHand_eq]
    generalize Clock.position p.ring p.hand = hand at hpos ⊢
    have hat : (p.withHand hand).ring[(p.withHand hand).hand]? = some p.ring[hand] :=
      List.getElem?_eq_getElem hpos
    rw [hat, List.getElem?_eq_getElem hpos]
    generalize p.ring[hand] = v
    dsimp only
    by_cases hkeep : v = keep
    · rw [if_pos hkeep, if_pos (show p.skips keep v = true from decide_eq_true (.inl hkeep))]
      exact ih hne
    rw [if_neg hkeep]
    by_cases hbusy : 0 < ((p.withHand hand).handles v).inflight
    · rw [if_pos hbusy, if_pos (show p.skips keep v = true from decide_eq_true (.inr hbusy))]
      exact ih hne
    have hskips : ¬ p.skips keep v = true := fun h => (of_decide_eq_true h).elim hkeep hbusy
    rw [if_neg hbusy, if_neg hskips]
    by_cases hused : ((p.withHand hand).handles v).used = true
    · rw [if_pos hused, if_pos (show p.marks v = true from hused),
        ih (p := ((p.withHand hand).unmark v).advance) hne]
      change swept _ (Clock.sweep p.ring ((p.unmark v).skips keep) steps (hand + 1)
        (p.unmark v).marks) = _
      rw [marks_unmark, skips_unmark]
      have hsame : ∀ n used, ((p.withHand hand).unmark v).advance.withMarks n used =
          p.withMarks n used := fun n used => withMarks_unmark p v n used
      unfold swept
      simp only [hsame]
    · rw [if_neg hused, if_neg (show ¬ p.marks v = true from hused)]
      rfl

theorem Ringed.withMarks (hp : p.Ringed) {hand : Nat} (hhand : hand ≤ p.ring.length)
    (used : Nat → Bool) : Drops p (p.withMarks hand used) [] :=
  ⟨hp.congr rfl hhand rfl fun _ => ⟨rfl, rfl⟩, rfl,
    fun x => by simp only [FdPool.withMarks, not_mem_nil, not_false_eq_true, and_true],
    fun _ => rfl, fun v hv => (by cases hv), rfl⟩

theorem Ringed.clockEvict (hp : p.Ringed) (keep : Nat) :
    (∃ p', p.clockEvict keep = some (none, p') ∧ Drops p p' [] ∧
        ∀ v, (p.handles v).inRing = true → v ≠ keep → 0 < (p.handles v).inflight) ∨
      ∃ v p', p.clockEvict keep = some (some v, p') ∧ Drops p p' [v] ∧ v ≠ keep := by
  unfold FdPool.clockEvict
  by_cases hempty : p.ring.length = 0
  · refine .inl ⟨p, if_pos hempty, Drops.refl hp, fun v hv => ?_⟩
    have hmem := hp.member v hv
    rw [length_eq_zero_iff.1 hempty] at hmem
    cases hmem
  have hne : p.ring ≠ [] := fun heq => hempty (length_eq_zero_iff.2 heq)
  rw [if_neg hempty, clockSweep_eq keep _ hne]
  generalize hr : Clock.sweep p.ring (p.skips keep) (2 * p.ring.length) p.hand p.marks = r
  have hhand : r.2.1 ≤ p.ring.length := by
    rw [← hr]
    exact Clock.sweep_hand_le hp.hand
  have hmarks := hp.withMarks hhand r.2.2
  unfold swept
  cases hpick : r.1 with
  | none =>
    have hall := Clock.sweep_none hp.nodup (by rw [hr]; exact hpick)
    refine .inl ⟨_, rfl, hmarks, fun v hv hvk => ?_⟩
    exact (of_decide_eq_true (hall v (hp.member v hv))).resolve_left hvk
  | some v =>
    obtain ⟨hskip, hat⟩ := Clock.sweep_some (by rw [hr]; exact hpick)
    obtain ⟨hvk, hidle⟩ := not_or.1 (of_decide_eq_false hskip)
    have hin := hp.inRing_iff.2 (mem_of_getElem? hat)
    obtain ⟨p', hremove, hdrops⟩ :=
      hmarks.ringed.removeLocked ((hmarks.inRing v).2 ⟨hin, not_mem_nil⟩)
        (Nat.eq_zero_of_not_pos hidle)
    dsimp only
    rw [hremove]
    exact .inr ⟨v, p', rfl, hmarks.trans hdrops, hvk⟩

theorem closeVictim_handles (p : FdPool) (v x : Nat) :
    ((p.closeVictim v).handles x).isOpen =
        ((p.handles x).isOpen && ((p.handles x).inRing || decide (x ≠ v))) ∧
      ((p.closeVictim v).handles x).inRing = (p.handles x).inRing ∧
      ((p.closeVictim v).handles x).ringIx = (p.handles x).ringIx ∧
      ((p.closeVictim v).handles x).inflight = (p.handles x).inflight := by
  unfold closeVictim
  split
  · case isTrue hc =>
      by_cases hx : x = v
      · subst hx
        rw [modifyHandle_self]
        simp [hc.1]
      · rw [modifyHandle_of_ne _ _ hx]
        simp [hx]
  · case isFalse hc =>
      refine ⟨?_, rfl, rfl, rfl⟩
      by_cases hx : x = v
      · subst hx
        cases hring : (p.handles x).inRing <;> simp_all
      · simp [hx]

theorem closeVictim_pool (p : FdPool) (v : Nat) :
    (p.closeVictim v).ring = p.ring ∧ (p.closeVictim v).hand = p.hand ∧
      (p.closeVictim v).openCount = p.openCount ∧ (p.closeVictim v).limit = p.limit := by
  unfold closeVictim
  split <;> exact ⟨rfl, rfl, rfl, rfl⟩

theorem closeVictims_handles (p : FdPool) (vs : List Nat) (x : Nat) :
    ((p.closeVictims vs).handles x).isOpen =
        ((p.handles x).isOpen && ((p.handles x).inRing || decide (x ∉ vs))) ∧
      ((p.closeVictims vs).handles x).inRing = (p.handles x).inRing ∧
      ((p.closeVictims vs).handles x).ringIx = (p.handles x).ringIx ∧
      ((p.closeVictims vs).handles x).inflight = (p.handles x).inflight := by
  induction vs generalizing p with
  | nil => simp [closeVictims]
  | cons v vs ih =>
    obtain ⟨hopen, hin, hix, hfly⟩ := closeVictim_handles p v x
    obtain ⟨hopen', hin', hix', hfly'⟩ := ih (p.closeVictim v)
    change (((p.closeVictim v).closeVictims vs).handles x).isOpen = _ ∧ _
    refine ⟨?_, hin'.trans hin, hix'.trans hix, hfly'.trans hfly⟩
    rw [hopen', hopen, hin]
    cases (p.handles x).isOpen <;> cases (p.handles x).inRing <;> simp

theorem closeVictims_pool (p : FdPool) (vs : List Nat) :
    (p.closeVictims vs).ring = p.ring ∧ (p.closeVictims vs).hand = p.hand ∧
      (p.closeVictims vs).openCount = p.openCount ∧ (p.closeVictims vs).limit = p.limit := by
  induction vs generalizing p with
  | nil => exact ⟨rfl, rfl, rfl, rfl⟩
  | cons v vs ih =>
    obtain ⟨h₁, h₂, h₃, h₄⟩ := closeVictim_pool p v
    obtain ⟨h₁', h₂', h₃', h₄'⟩ := ih (p.closeVictim v)
    exact ⟨h₁'.trans h₁, h₂'.trans h₂, h₃'.trans h₃, h₄'.trans h₄⟩

/-- Between operations: exactly the open handles are in the ring, and a handle with a read in
progress is open. -/
structure Settled (p : FdPool) : Prop extends p.Ringed where
  opened : ∀ h, (p.handles h).isOpen = (p.handles h).inRing
  busy : ∀ h, 0 < (p.handles h).inflight → (p.handles h).isOpen = true

theorem settled_new (limit : Int) : (newFDPool limit).Settled :=
  ⟨ringed_new limit, fun _ => rfl, fun _ hpos => absurd hpos (Nat.lt_irrefl 0)⟩

theorem Settled.closeVictims (hp : p.Settled) (h : Drops p q vs) :
    (q.closeVictims vs).Settled ∧
      ∀ x, (p.handles x).isOpen = true → ((q.closeVictims vs).handles x).isOpen = false →
        x ∈ vs ∧ (p.handles x).inflight = 0 := by
  obtain ⟨hring, hhand, hcount, _⟩ := closeVictims_pool q vs
  have hopened : ∀ x, ((q.closeVictims vs).handles x).isOpen = (q.handles x).inRing := by
    intro x
    have hflag := h.inRing x
    rw [(closeVictims_handles q vs x).1, h.isOpen, hp.opened x]
    cases hq : (q.handles x).inRing
    · rw [hq] at hflag
      cases hpx : (p.handles x).inRing <;> simp_all
    · obtain ⟨hin, _⟩ := hflag.1 hq
      simp [hin]
  have hgone : ∀ x, (p.handles x).isOpen = true → (q.handles x).inRing = false → x ∈ vs := by
    intro x hx hq
    by_contra hmem
    rw [hp.opened x] at hx
    rw [(h.inRing x).2 ⟨hx, hmem⟩] at hq
    cases hq
  refine ⟨⟨?_, ?_, ?_⟩, ?_⟩
  · exact h.ringed.congr hring (hhand ▸ h.ringed.hand) hcount fun x =>
      ⟨(closeVictims_handles q vs x).2.1, (closeVictims_handles q vs x).2.2.1⟩
  · intro x
    rw [hopened x, (closeVictims_handles q vs x).2.1]
  · intro x hx
    rw [(closeVictims_handles q vs x).2.2.2, h.inflight] at hx
    have hbusy := hp.busy x hx
    rw [hopened x]
    by_contra hq
    have hidle := (h.idle x (hgone x hbusy (Bool.eq_false_iff.2 hq))).2
    omega
  · intro x hx hclosed
    rw [hopened x] at hclosed
    have hmem := hgone x hx hclosed
    exact ⟨hmem, (h.idle x hmem).2⟩

theorem Ringed.admitLoop (hp : p.Ringed) (keep : Nat) :
    ∃ p' vs, Loop.run (admitStep keep) (p.ring.length + 1) (p, []) = some (some (p', vs)) ∧
      Drops p p' vs ∧ keep ∉ vs ∧
      (p'.openCount ≤ p'.limit ∨
        ∀ v, (p'.handles v).inRing = true → v ≠ keep → 0 < (p'.handles v).inflight) := by
  have hround : ∀ s s' : FdPool × List Nat, (Drops p s.1 s.2 ∧ keep ∉ s.2) →
      admitStep keep s = .inr s' →
      (Drops p s'.1 s'.2 ∧ keep ∉ s'.2) ∧ s'.1.ring.length < s.1.ring.length := by
    intro s s' hs hstep
    unfold admitStep at hstep
    split at hstep
    · rcases hs.1.ringed.clockEvict keep with ⟨q, hevict, _, _⟩ | ⟨v, q, hevict, hdrops, hvk⟩
      · rw [hevict] at hstep
        cases hstep
      · rw [hevict] at hstep
        cases hstep
        have hlength := hdrops.length
        rw [length_singleton] at hlength
        refine ⟨⟨hs.1.trans hdrops, ?_⟩, by change q.ring.length < _; omega⟩
        rw [mem_append, mem_singleton, not_or]
        exact ⟨hs.2, Ne.symm hvk⟩
    · cases hstep
  obtain ⟨b, s, hrun, _, ⟨hdrops, hkeep⟩, hend⟩ :=
    Loop.run_within (fun s : FdPool × List Nat => s.1.ring.length) hround
      (s := (p, [])) ⟨Drops.refl hp, not_mem_nil⟩ (Nat.lt_succ_self _)
  unfold admitStep at hend
  split at hend
  · rcases hdrops.ringed.clockEvict keep with ⟨q, hevict, hnone, hbusy⟩ | ⟨v, q, hevict, _, _⟩
    · rw [hevict] at hend
      cases hend
      have htrans := hdrops.trans hnone
      rw [append_nil] at htrans
      refine ⟨q, s.2, hrun, htrans, hkeep, .inr fun v hv hvk => ?_⟩
      rw [hnone.inflight]
      exact hbusy v ((hnone.inRing v).1 hv).1 hvk
    · rw [hevict] at hend
      cases hend
  · case isFalse hle =>
      cases hend
      exact ⟨s.1, s.2, hrun, hdrops, hkeep, .inl (Int.not_lt.1 hle)⟩

theorem register_of_out (hout : (p.handles h).inRing = false) :
    p.register h =
      { p with
        handles := Function.update p.handles h
          { p.handles h with ringIx := p.ring.length, inRing := true }
        ring := p.ring ++ [h]
        openCount := p.openCount + 1 } :=
  if_neg (by rw [hout]; exact Bool.false_ne_true)

theorem Ringed.register (hp : p.Ringed) (hout : (p.handles h).inRing = false) :
    (p.register h).Ringed := by
  have hne : ∀ {x}, x ∈ p.ring → x ≠ h := by
    rintro x hx rfl
    rw [hp.inRing_iff.2 hx] at hout
    cases hout
  rw [register_of_out hout]
  refine ⟨?_, ?_, ?_, ?_⟩
  · intro i x hi
    dsimp only at hi ⊢
    rcases Nat.lt_or_ge i p.ring.length with hlt | hge
    · rw [List.getElem?_append_left hlt] at hi
      rw [update_of_ne (hne (mem_of_getElem? hi))]
      exact hp.slot i x hi
    · obtain ⟨hlt, _⟩ := List.getElem?_eq_some_iff.1 hi
      rw [length_append, length_singleton] at hlt
      obtain rfl : i = p.ring.length := by omega
      rw [List.getElem?_concat_length] at hi
      cases hi
      rw [update_self]
      exact ⟨rfl, rfl⟩
  · intro x hx
    dsimp only at hx ⊢
    by_cases hxh : x = h
    · exact mem_append_right _ (mem_singleton.2 hxh)
    · rw [update_of_ne hxh] at hx
      exact mem_append_left _ (hp.member x hx)
  · dsimp only
    rw [hp.count, length_append, length_singleton]
    omega
  · have := hp.hand
    dsimp only
    rw [length_append, length_singleton]
    omega

theorem Settled.modifyHandle (hp : p.Settled) {f : OpenFile → OpenFile}
    (hin : (f (p.handles h)).inRing = (p.handles h).inRing)
    (hix : (f (p.handles h)).ringIx = (p.handles h).ringIx)
    (hopen : (f (p.handles h)).isOpen = (p.handles h).isOpen)
    (hbusy : 0 < (f (p.handles h)).inflight → (p.handles h).isOpen = true) :
    (p.modifyHandle h f).Settled := by
  refine ⟨hp.toRinged.modifyHandle hin hix, fun x => ?_, fun x hx => ?_⟩
  · rw [modifyHandle_congr OpenFile.isOpen hopen, modifyHandle_congr OpenFile.inRing hin]
    exact hp.opened x
  · rw [modifyHandle_congr OpenFile.isOpen hopen]
    by_cases hxh : x = h
    · subst hxh
      rw [modifyHandle_self] at hx
      exact hbusy hx
    · rw [modifyHandle_of_ne _ _ hxh] at hx
      exact hp.busy x hx

theorem Settled.register (hp : p.Settled) (hclosed : (p.handles h).isOpen = false) (now : Int) :
    (((p.modifyHandle h fun f => { f with isOpen := true }).markUsed h now).register h).Settled ∧
      ∀ x, (((p.modifyHandle h fun f => { f with isOpen := true }).markUsed h now).register h
          |>.handles x).isOpen = ((p.handles x).isOpen || decide (x = h)) ∧
        (((p.modifyHandle h fun f => { f with isOpen := true }).markUsed h now).register h
          |>.handles x).inflight = (p.handles x).inflight := by
  have hout : (p.handles h).inRing = false := (hp.opened h).symm.trans hclosed
  generalize hq : (p.modifyHandle h fun f => { f with isOpen := true }).markUsed h now = q
  have hself : q.handles h = { p.handles h with isOpen := true, used := true, lastUsed := now } :=
    by
    rw [← hq, FdPool.markUsed, modifyHandle_self, modifyHandle_self]
  have hother : ∀ x, x ≠ h → q.handles x = p.handles x := by
    intro x hx
    rw [← hq, FdPool.markUsed, modifyHandle_of_ne _ _ hx, modifyHandle_of_ne _ _ hx]
  have hringed : q.Ringed := by
    rw [← hq]
    exact (hp.toRinged.modifyHandle rfl rfl).modifyHandle rfl rfl
  have houtq : (q.handles h).inRing = false := by
    rw [hself]
    exact hout
  have hhandles : ∀ x, (q.register h).handles x =
      if x = h then { q.handles h with ringIx := q.ring.length, inRing := true } else p.handles x :=
        by
    intro x
    rw [register_of_out houtq]
    dsimp only
    by_cases hx : x = h
    · subst hx
      rw [update_self, if_pos rfl]
    · rw [update_of_ne hx, if_neg hx, hother x hx]
  refine ⟨⟨hringed.register houtq, ?_, ?_⟩, ?_⟩
  · intro x
    rw [hhandles x]
    split
    · rw [hself]
    · exact hp.opened x
  · intro x hx
    rw [hhandles x] at hx ⊢
    split at hx
    · rw [if_pos ‹_›, hself]
    · rw [if_neg ‹_›]
      exact hp.busy x hx
  · intro x
    rw [hhandles x]
    by_cases hx : x = h
    · subst hx
      rw [if_pos rfl, hself]
      simp
    · rw [if_neg hx]
      simp [hx]

theorem Settled.ensureOpen (hp : p.Settled) (h : Nat) (now : Int) :
    ∃ p', p.ensureOpen h now true = some p' ∧ p'.Settled ∧ p'.limit = p.limit ∧
      (p'.handles h).isOpen = true ∧
      (0 < p.limit → (p.handles h).isOpen = false → p'.openCount ≤ p.limit ∨
        ∀ v, v ≠ h → (p'.handles v).isOpen = true → 0 < (p'.handles v).inflight) ∧
      ∀ v, (p.handles v).isOpen = true → (p'.handles v).isOpen = false →
        v ≠ h ∧ (p.handles v).inflight = 0 := by
  unfold FdPool.ensureOpen
  by_cases hopen : (p.handles h).isOpen = true
  · have hsame : ∀ x, ((p.markUsed h now).handles x).isOpen = (p.handles x).isOpen :=
      modifyHandle_congr OpenFile.isOpen rfl
    refine ⟨_, if_pos hopen, hp.modifyHandle rfl rfl rfl (hp.busy h), rfl,
      (hsame h).trans hopen, ?_, ?_⟩
    · intro _ hclosed
      rw [hopen] at hclosed
      cases hclosed
    · intro v hv hclosed
      rw [hsame v, hv] at hclosed
      cases hclosed
  rw [if_neg hopen, if_pos rfl]
  have hclosed := Bool.eq_false_iff.2 hopen
  obtain ⟨hregister, hhandles⟩ := hp.register hclosed now
  have hlimit : (((p.modifyHandle h fun f => { f with isOpen := true }).markUsed h now).register
      h).limit = p.limit := by
    unfold FdPool.register
    split <;> rfl
  unfold FdPool.admitHandle
  generalize (((p.modifyHandle h fun f => { f with isOpen := true }).markUsed h now).register h) = q
    at hregister hhandles hlimit
  have hopenq : (q.handles h).isOpen = true := by simp [(hhandles h).1]
  dsimp only
  by_cases hunbounded : q.limit ≤ 0
  · refine ⟨q, if_pos hunbounded, hregister, hlimit, hopenq, ?_, ?_⟩
    · intro hpos
      omega
    · intro v hv hvq
      rw [(hhandles v).1, hv] at hvq
      cases hvq
  obtain ⟨q', vs, hrun, hdrops, hkeep, hend⟩ := hregister.toRinged.admitLoop h
  obtain ⟨hsettled, hgone⟩ := hregister.closeVictims hdrops
  obtain ⟨_, _, hcount, hlimit'⟩ := closeVictims_pool q' vs
  have hlimitq := hdrops.limit.trans hlimit
  rw [if_neg hunbounded, hrun]
  refine ⟨_, rfl, hsettled, hlimit'.trans hlimitq, ?_, ?_, ?_⟩
  · by_contra hshut
    exact hkeep (hgone h hopenq (Bool.eq_false_iff.2 hshut)).1
  · intro _ _
    rw [hcount]
    refine hend.imp (fun hle => hlimitq ▸ hle) fun hbusy v hv hvopen => ?_
    rw [hsettled.opened v, (closeVictims_handles q' vs v).2.1] at hvopen
    rw [(closeVictims_handles q' vs v).2.2.2]
    exact hbusy v hvopen hv
  · intro v hv hvshut
    obtain ⟨hmem, hidle⟩ := hgone v (by rw [(hhandles v).1, hv, Bool.true_or]) hvshut
    exact ⟨fun heq => hkeep (heq ▸ hmem), (hhandles v).2.symm.trans hidle⟩

theorem Drops.reap (cutoff : Int) {l : List Nat} (hl : l.Nodup)
    (hin : ∀ v ∈ l, (p.handles v).inRing = true ∧ v ∉ vs) (h : Drops p q vs) :
    ∃ q' ws, l.foldlM (reapStep cutoff) (q, vs) = some (q', ws) ∧ Drops p q' ws := by
  induction l generalizing q vs with
  | nil => exact ⟨q, vs, rfl, h⟩
  | cons v l ih =>
    rw [nodup_cons] at hl
    rw [forall_mem_cons] at hin
    have hskip : ∃ q' ws, l.foldlM (reapStep cutoff) (q, vs) = some (q', ws) ∧ Drops p q' ws :=
      ih hl.2 hin.2 h
    rw [foldlM_cons, reapStep]
    dsimp only
    by_cases hbusy : 0 < (q.handles v).inflight
    · rw [if_pos hbusy]
      exact hskip
    by_cases hrecent : cutoff < (q.handles v).lastUsed
    · rw [if_neg hbusy, if_pos hrecent]
      exact hskip
    obtain ⟨q₁, hremove, hdrops⟩ :=
      h.ringed.removeLocked ((h.inRing v).2 hin.1) (Nat.eq_zero_of_not_pos hbusy)
    rw [if_neg hbusy, if_neg hrecent, hremove]
    refine ih hl.2 ?_ (h.trans hdrops)
    intro x hx
    refine ⟨(hin.2 x hx).1, ?_⟩
    rw [mem_append, mem_singleton, not_or]
    exact ⟨(hin.2 x hx).2, fun heq => hl.1 (heq ▸ hx)⟩

theorem Settled.reapIdle (hp : p.Settled) (now timeout : Int) :
    ∃ p' n, p.reapIdle now timeout = some (p', n) ∧ p'.Settled ∧ p'.limit = p.limit ∧
      ∀ v, (p.handles v).isOpen = true → (p'.handles v).isOpen = false →
        (p.handles v).inflight = 0 := by
  have hin : ∀ v ∈ p.ring, (p.handles v).inRing = true ∧ v ∉ ([] : List Nat) :=
    fun v hv => ⟨hp.inRing_iff.2 hv, not_mem_nil⟩
  obtain ⟨q, vs, hfold, hdrops⟩ := (Drops.refl hp.toRinged).reap (now - timeout) hp.nodup hin
  obtain ⟨hsettled, hgone⟩ := hp.closeVictims hdrops
  unfold FdPool.reapIdle
  rw [hfold]
  exact ⟨_, _, rfl, hsettled, (closeVictims_pool q vs).2.2.2.trans hdrops.limit,
    fun v hv hshut => (hgone v hv hshut).2⟩

theorem Settled.remove (hp : p.Settled) (hidle : (p.handles h).inflight = 0) :
    ∃ q vs, p.remove h = some q ∧ Drops p q vs ∧ (q.handles h).inRing = false ∧
      ∀ v ∈ vs, v = h := by
  unfold FdPool.remove
  by_cases hin : (p.handles h).inRing = true
  · obtain ⟨q, hq, hdrops⟩ := hp.toRinged.removeLocked hin hidle
    refine ⟨q, [h], by rw [if_pos hin, hq], hdrops, ?_, fun v => mem_singleton.1⟩
    exact Bool.eq_false_iff.2 fun hq => ((hdrops.inRing h).1 hq).2 mem_cons_self
  · exact ⟨p, [], if_neg hin, .refl hp.toRinged, Bool.eq_false_iff.2 hin, fun v hv => by cases hv⟩

theorem Settled.close (hp : p.Settled) (hidle : (p.handles h).inflight = 0) :
    ∃ p', p.close h = some p' ∧ p'.Settled ∧ p'.limit = p.limit := by
  obtain ⟨q, vs, hq, hdrops, hout, honly⟩ := hp.remove hidle
  unfold FdPool.close
  rw [hq]
  refine ⟨_, rfl, ⟨hdrops.ringed.modifyHandle rfl rfl, fun x => ?_, fun x hbusy => ?_⟩,
    hdrops.limit⟩
  · by_cases hx : x = h
    · subst hx
      rw [modifyHandle_self]
      exact hout.symm
    · rw [modifyHandle_of_ne _ _ hx, hdrops.isOpen, hp.opened x, Bool.eq_iff_iff, hdrops.inRing x]
      exact ⟨fun hin => ⟨hin, fun hv => hx (honly x hv)⟩, And.left⟩
  · rw [modifyHandle_congr OpenFile.inflight rfl, hdrops.inflight] at hbusy
    by_cases hx : x = h
    · subst hx
      omega
    · rw [modifyHandle_of_ne _ _ hx, hdrops.isOpen]
      exact hp.busy x hbusy

/-- Completed operations; a read is in flight between its beginning and its end. -/
inductive Op
  | ensureOpen (h : Nat) (now : Int) (opens : Bool)
  | beginRead (h : Nat)
  | endRead (h : Nat)
  | close (h : Nat)
  | reapIdle (now timeout : Int)
  | clockEvict (keep : Nat)

/-- A close waits for the reads in progress, so it does not complete before they end. -/
def step (p : FdPool) : Op → Option FdPool
  | .ensureOpen h now opens => p.ensureOpen h now opens
  | .beginRead h =>
    if (p.handles h).isOpen then
      some (p.modifyHandle h fun f => { f with inflight := (p.handles h).inflight + 1 })
    else none
  | .endRead h =>
    if 0 < (p.handles h).inflight then
      some (p.modifyHandle h fun f => { f with inflight := (p.handles h).inflight - 1 })
    else none
  | .close h => if 0 < (p.handles h).inflight then none else p.close h
  | .reapIdle now timeout => (p.reapIdle now timeout).map Prod.fst
  | .clockEvict keep => (p.clockEvict keep).map fun r => r.2.closeVictims r.1.toList

theorem Settled.clockEvict (hp : p.Settled) (keep : Nat) :
    ∃ r p', p.clockEvict keep = some (r, p') ∧ (p'.closeVictims r.toList).Settled ∧
      (p'.closeVictims r.toList).limit = p.limit ∧
      (∀ v, r = some v → v ≠ keep ∧ (p.handles v).isOpen = true ∧ (p.handles v).inflight = 0) ∧
      (r = none → ∀ v, v ≠ keep → (p.handles v).isOpen = true → 0 < (p.handles v).inflight) := by
  rcases hp.toRinged.clockEvict keep with ⟨q, hq, hdrops, hbusy⟩ | ⟨v, q, hq, hdrops, hvk⟩
  · refine ⟨none, q, hq, (hp.closeVictims hdrops).1, hdrops.limit, (fun v hv => by cases hv), ?_⟩
    intro _ v hvk hopen
    exact hbusy v (hp.opened v ▸ hopen) hvk
  · refine ⟨some v, q, hq, (hp.closeVictims hdrops).1,
      (closeVictims_pool q _).2.2.2.trans hdrops.limit,
      ?_, (fun hnone => by cases hnone)⟩
    intro w hw
    cases hw
    obtain ⟨hin, hidle⟩ := hdrops.idle v mem_cons_self
    exact ⟨hvk, (hp.opened v).trans hin, hidle⟩

theorem step_settled (hp : p.Settled) {op : Op} (hstep : p.step op = some p') :
    p'.Settled ∧ p'.limit = p.limit := by
  cases op with
  | ensureOpen h now opens =>
    change p.ensureOpen h now opens = some p' at hstep
    cases opens with
    | true =>
      obtain ⟨q, hq, hsettled, hlimit, _⟩ := hp.ensureOpen h now
      cases hq.symm.trans hstep
      exact ⟨hsettled, hlimit⟩
    | false =>
      unfold FdPool.ensureOpen at hstep
      split at hstep
      · cases hstep
        exact ⟨hp.modifyHandle rfl rfl rfl (hp.busy h), rfl⟩
      · cases hstep
        exact ⟨hp, rfl⟩
  | beginRead h =>
    rw [step] at hstep
    split at hstep
    · case isTrue hopen =>
        cases hstep
        exact ⟨hp.modifyHandle rfl rfl rfl fun _ => hopen, rfl⟩
    · cases hstep
  | endRead h =>
    rw [step] at hstep
    split at hstep
    · case isTrue hbusy =>
        cases hstep
        exact ⟨hp.modifyHandle rfl rfl rfl fun _ => hp.busy h hbusy, rfl⟩
    · cases hstep
  | close h =>
    rw [step] at hstep
    split at hstep
    · cases hstep
    · case isFalse hidle =>
        obtain ⟨q, hq, hsettled, hlimit⟩ := hp.close (Nat.eq_zero_of_not_pos hidle)
        cases hq.symm.trans hstep
        exact ⟨hsettled, hlimit⟩
  | reapIdle now timeout =>
    obtain ⟨q, n, hq, hsettled, hlimit, _⟩ := hp.reapIdle now timeout
    rw [step, hq] at hstep
    cases hstep
    exact ⟨hsettled, hlimit⟩
  | clockEvict keep =>
    obtain ⟨r, q, hq, hsettled, hlimit, _⟩ := hp.clockEvict keep
    rw [step, hq] at hstep
    cases hstep
    exact ⟨hsettled, hlimit⟩

/-- After any completed operations the open handles are the ring, each at its own index, the
count is its length and the hand is usable; opening another handle then ends within the limit
or with a read in flight on every other open handle; the sweep ends, and picks neither the
handle to keep nor one in flight. -/
theorem fdPool_within_limit {limit : Int} (hlimit : 0 < limit) {ops : List Op}
    (hrun : Transition.exec step (newFDPool limit) ops = some p) :
    p.Settled ∧ p.ring.Nodup ∧
      (∀ h now, ∃ p', p.step (.ensureOpen h now true) = some p' ∧ (p'.handles h).isOpen = true ∧
        ((p.handles h).isOpen = false → p'.openCount ≤ limit ∨
          ∀ v, v ≠ h → (p'.handles v).isOpen = true → 0 < (p'.handles v).inflight) ∧
        ∀ v, (p.handles v).isOpen = true → (p'.handles v).isOpen = false →
          v ≠ h ∧ (p.handles v).inflight = 0) ∧
      (∀ keep, ∃ r p', p.clockEvict keep = some (r, p') ∧
        (∀ v, r = some v → v ≠ keep ∧ (p.handles v).isOpen = true ∧ (p.handles v).inflight = 0) ∧
        (r = none → ∀ v, v ≠ keep → (p.handles v).isOpen = true → 0 < (p.handles v).inflight)) ∧
      ∀ now timeout, ∃ p' n, p.reapIdle now timeout = some (p', n) ∧
        ∀ v, (p.handles v).isOpen = true → (p'.handles v).isOpen = false →
          (p.handles v).inflight = 0 := by
  obtain ⟨hp, hlim⟩ : p.Settled ∧ p.limit = limit := by
    refine Transition.exec_invariant (P := fun p => p.Settled ∧ p.limit = limit) ?_ hrun
      ⟨settled_new limit, rfl⟩
    intro q op q' hq hstep
    obtain ⟨hsettled, hsame⟩ := step_settled hq.1 hstep
    exact ⟨hsettled, hsame.trans hq.2⟩
  refine ⟨hp, hp.nodup, ?_, ?_, ?_⟩
  · intro h now
    obtain ⟨p', hopen, _, _, hself, hbound, hgone⟩ := hp.ensureOpen h now
    rw [hlim] at hbound
    exact ⟨p', hopen, hself, hbound hlimit, hgone⟩
  · intro keep
    obtain ⟨r, p', hevict, _, _, hsome, hnone⟩ := hp.clockEvict keep
    exact ⟨r, p', hevict, hsome, hnone⟩
  · intro now timeout
    obtain ⟨p', n, hreap, _, _, hidle⟩ := hp.reapIdle now timeout
    exact ⟨p', n, hreap, hidle⟩

theorem fdPool_within_limit_busy :
    ∃ p, Transition.exec step (newFDPool 1) [.ensureOpen 7 0 true, .beginRead 7] = some p ∧
      p.Settled ∧ ∃ p', p.step (.ensureOpen 8 1 true) = some p' ∧
        (p'.openCount ≤ 1 ∨ ∀ v, v ≠ 8 → (p'.handles v).isOpen = true →
          0 < (p'.handles v).inflight) := by
  obtain ⟨p, hp, hclosed⟩ := Transition.exists_exec step (newFDPool 1)
    [.ensureOpen 7 0 true, .beginRead 7] (fun p => (p.handles 8).isOpen = false) (by decide)
  have hresult := fdPool_within_limit (show (0 : Int) < 1 by decide) hp
  obtain ⟨p', hopen, _, hbound, _⟩ := hresult.2.2.1 8 1
  exact ⟨p, hp, hresult.1, p', hopen, hbound hclosed⟩

end FdPool

end LevisDB
