import LevisDB.Db.Batch

/-!
# Deduplication

The duplicate test compares a put with the committed state only, while the other
operations of the same batch are still to be applied.
-/

namespace LevisDB

open List

namespace BatchOp

def Affects (key : Key) : BatchOp → Prop
  | put k _ _ => key = k
  | delete k => key = k
  | deleteRange start stop => start ≤ key ∧ key < stop

instance (key : Key) : (op : BatchOp) → Decidable (op.Affects key)
  | put k _ _ => inferInstanceAs (Decidable (key = k))
  | delete k => inferInstanceAs (Decidable (key = k))
  | deleteRange start stop => inferInstanceAs (Decidable (start ≤ key ∧ key < stop))

/-- What the operation leaves of a key it affects. -/
def result (now : Time) : BatchOp → Option (Bytes × Time)
  | put _ value expiresAt =>
    if expiresAt ≠ 0 ∧ expiresAt ≤ now then none else some (value, expiresAt)
  | _ => none

/-- The put stores what the view already shows for its key. -/
def Duplicate (view : Key → Option (Bytes × Time)) : BatchOp → Prop
  | put key value expiresAt => view key = some (value, expiresAt)
  | _ => False

instance (view : Key → Option (Bytes × Time)) : DecidablePred (Duplicate view)
  | put key value expiresAt => inferInstanceAs (Decidable (view key = some (value, expiresAt)))
  | delete _ => inferInstanceAs (Decidable False)
  | deleteRange _ _ => inferInstanceAs (Decidable False)

theorem effect_entry (now : Time) (key : Key) (before : Option (Bytes × Time)) (op : BatchOp) :
    op.entry.effect now key before = if op.Affects key then op.result now else before := by
  cases op with
  | delete k => rfl
  | deleteRange start stop => exact if_congr Iff.rfl rfl rfl
  | put k value expiresAt =>
    by_cases hzero : expiresAt = 0
    · simp [entry, WalEntry.effect, hzero, Affects, result]
    · simp [entry, WalEntry.effect, hzero, Affects, result]

end BatchOp

def affecting (key : Key) (ops : List BatchOp) : List BatchOp :=
  ops.filter fun op => decide (op.Affects key)

theorem mem_affecting {key : Key} {ops : List BatchOp} {op : BatchOp} :
    op ∈ affecting key ops ↔ op ∈ ops ∧ op.Affects key := by
  simp [affecting]

theorem foldl_effect_eq_last (now : Time) (key : Key) (ops : List BatchOp)
    (before : Option (Bytes × Time)) :
    (ops.map BatchOp.entry).foldl (WalEntry.effect now key) before =
      ((affecting key ops).getLast?.map (BatchOp.result now)).getD before := by
  induction ops generalizing before with
  | nil => rfl
  | cons op ops ih =>
    rw [map_cons, foldl_cons, ih, BatchOp.effect_entry]
    by_cases hop : op.Affects key
    · have hcons : affecting key (op :: ops) = op :: affecting key ops := by
        simp [affecting, hop]
      rw [hcons, if_pos hop, List.getLast?_cons]
      cases (affecting key ops).getLast? <;> rfl
    · have hcons : affecting key (op :: ops) = affecting key ops := by
        simp [affecting, hop]
      rw [hcons, if_neg hop]

/-- For every key whose last operation is a duplicate put, every operation on the
key is one. -/
def DedupSafe (view : Key → Option (Bytes × Time)) (ops : List BatchOp) : Prop :=
  ∀ key, ∀ last ∈ (affecting key ops).getLast?, last.Duplicate view →
    ∀ op ∈ affecting key ops, op.Duplicate view

def remaining (view : Key → Option (Bytes × Time)) (ops : List BatchOp) : List BatchOp :=
  ops.filter fun op => !decide (op.Duplicate view)

theorem affecting_remaining (view : Key → Option (Bytes × Time)) (key : Key)
    (ops : List BatchOp) :
    affecting key (remaining view ops) = remaining view (affecting key ops) := by
  unfold affecting remaining
  rw [List.filter_filter, List.filter_filter]
  exact filter_congr fun op _ => Bool.and_comm _ _

/-- Views at later times follow from one at `now`: a value lives until its deadline. -/
def AgesFrom (now : Time) (view : Time → Key → Option (Bytes × Time)) : Prop :=
  ∀ key value expiresAt, view now key = some (value, expiresAt) → ∀ t,
    view t key = if expiresAt ≠ 0 ∧ expiresAt ≤ t then none else some (value, expiresAt)

section Key

variable {now : Time} {view : Time → Key → Option (Bytes × Time)} {ops : List BatchOp}

theorem remaining_foldl_of_safe (hages : AgesFrom now view) (hsafe : DedupSafe (view now) ops)
    (t : Time) (key : Key) :
    ((remaining (view now) ops).map BatchOp.entry).foldl (WalEntry.effect t key) (view t key) =
      (ops.map BatchOp.entry).foldl (WalEntry.effect t key) (view t key) := by
  rw [foldl_effect_eq_last, foldl_effect_eq_last, affecting_remaining]
  rcases eq_nil_or_concat (affecting key ops) with hnil | ⟨init, last, hlast⟩
  · rw [hnil]
    rfl
  · rw [concat_eq_append] at hlast
    by_cases hdup : last.Duplicate (view now)
    · have hall := hsafe key last (by simp [hlast]) hdup
      have hempty : remaining (view now) (affecting key ops) = [] := by
        simpa [remaining] using hall
      have haff := (mem_affecting.1 (hlast ▸ mem_append_right init (mem_singleton_self last) :
        last ∈ affecting key ops)).2
      rw [hempty, hlast]
      cases last with
      | delete _ => exact hdup.elim
      | deleteRange _ _ => exact hdup.elim
      | put k value expiresAt =>
        obtain rfl : key = k := haff
        simp [BatchOp.result, hages key value expiresAt hdup t]
    · have hkept : remaining (view now) (init ++ [last]) = remaining (view now) init ++ [last] := by
        simp [remaining, hdup]
      rw [hlast, hkept]
      simp

theorem safe_of_remaining_foldl (hfuture : ∀ op ∈ ops, ∀ k v e, op = .put k v e → e = 0 ∨ now < e)
    (h : ∀ key,
      ((remaining (view now) ops).map BatchOp.entry).foldl (WalEntry.effect now key)
          (view now key) =
        (ops.map BatchOp.entry).foldl (WalEntry.effect now key) (view now key)) :
    DedupSafe (view now) ops := by
  intro key last hlast hdup op hop
  by_contra hnot
  have hmem : op ∈ remaining (view now) (affecting key ops) := by simp [remaining, hop, hnot]
  obtain ⟨init, last', hlast'⟩ : ∃ init last',
      remaining (view now) (affecting key ops) = init ++ [last'] := by
    rcases eq_nil_or_concat (remaining (view now) (affecting key ops)) with hnil | ⟨i, l, hl⟩
    · rw [hnil] at hmem
      cases hmem
    · exact ⟨i, l, by rw [hl, concat_eq_append]⟩
  have hkept : last' ∈ remaining (view now) (affecting key ops) := by simp [hlast']
  obtain ⟨haff', hnodup⟩ : last' ∈ affecting key ops ∧ ¬ last'.Duplicate (view now) := by
    simpa [remaining] using hkept
  have heq := h key
  rw [foldl_effect_eq_last, foldl_effect_eq_last, affecting_remaining, hlast', hlast] at heq
  have hresult : last'.result now = last.result now := by simpa using heq
  have hlastmem : last ∈ affecting key ops := mem_of_getLast? hlast
  obtain ⟨hin, haff⟩ := mem_affecting.1 hlastmem
  cases last with
  | delete _ => exact hdup
  | deleteRange _ _ => exact hdup
  | put k value expiresAt =>
    obtain rfl : key = k := haff
    have hlive : ∀ k' v' e', BatchOp.put k' v' e' ∈ ops →
        (BatchOp.put k' v' e').result now = some (v', e') := by
      intro k' v' e' hput
      refine if_neg ?_
      rintro ⟨hne, hle⟩
      rcases hfuture _ hput k' v' e' rfl with hzero | hlt
      · exact hne hzero
      · exact absurd hle (not_le_of_gt hlt)
    rw [hlive key value expiresAt hin] at hresult
    cases last' with
    | delete _ => cases hresult
    | deleteRange _ _ => cases hresult
    | put k' value' expiresAt' =>
      obtain ⟨hin', haff''⟩ := mem_affecting.1 haff'
      obtain rfl : key = k' := haff''
      rw [hlive key value' expiresAt' hin'] at hresult
      cases hresult
      exact hnodup hdup

theorem view_none_later (hages : ∀ t, AgesFrom t view) {key : Key} (h : view now key = none)
    {t : Time} (ht : now ≤ t) : view t key = none := by
  cases hview : view t key with
  | none => rfl
  | some cur =>
    obtain ⟨value, expiresAt⟩ := cur
    have hlater := hages t key value expiresAt hview t
    have hnow := hages t key value expiresAt hview now
    rw [hview] at hlater
    rw [h] at hnow
    split_ifs at hlater with hdead
    split_ifs at hnow with hdead'
    exact absurd ⟨hdead'.1, le_trans hdead'.2 ht⟩ hdead

theorem foldl_unchanged_iff (hages : ∀ t, AgesFrom t view) :
    (∀ t, now ≤ t → ∀ key,
      (ops.map BatchOp.entry).foldl (WalEntry.effect t key) (view t key) = view t key) ↔
      ∀ key, ∀ last ∈ (affecting key ops).getLast?, last.result now = view now key := by
  simp only [foldl_effect_eq_last]
  constructor
  · intro h key last hlast
    have hkey := h now (le_refl now) key
    rw [Option.mem_def.1 hlast] at hkey
    exact hkey
  · intro h t ht key
    cases hlast : (affecting key ops).getLast? with
    | none => rfl
    | some last =>
      have hkey := h key last hlast
      change last.result t = view t key
      by_cases hnone : last.result now = none
      · rw [view_none_later hages (hkey.symm.trans hnone) ht]
        cases last with
        | delete _ => rfl
        | deleteRange _ _ => rfl
        | put k value expiresAt =>
          simp only [BatchOp.result] at hnone ⊢
          split_ifs at hnone with hdead
          exact if_pos ⟨hdead.1, le_trans hdead.2 ht⟩
      · cases last with
        | delete _ => exact absurd rfl hnone
        | deleteRange _ _ => exact absurd rfl hnone
        | put k value expiresAt =>
          simp only [BatchOp.result] at hnone hkey ⊢
          split_ifs at hnone hkey with hdead
          · exact absurd rfl hnone
          · exact (hages now key value expiresAt hkey.symm t).symm

end Key

namespace Quiescent

variable {s : Quiescent} {now : Time} {ops : List BatchOp}

/-- The duplicate test of the operation meets no pointer the session has no path for. -/
def Fetches (s : Quiescent) (now : Time) : BatchOp → Prop
  | .put key _ _ => s.eng.Fetches s.readSeq now key
  | _ => True

theorem leavesOut_eq (hs : s.Consistent now) {op : BatchOp} (h : s.Fetches now op) :
    leavesOut s.eng s.readSeq true now op = .ok (decide (op.Duplicate (s.view now))) := by
  cases op with
  | delete _ => rfl
  | deleteRange _ _ => rfl
  | put key value expiresAt =>
    have hget := getWithExpiry_eq_reference hs.readable (hs.copies now (le_refl now))
      hs.blobsPresent h
    have hview : s.view now key = s.eng.reference s.readSeq now key := rfl
    rw [leavesOut, if_pos rfl, isDuplicatePut, hget]
    cases href : s.eng.reference s.readSeq now key with
    | none => simp [BatchOp.Duplicate, hview, href]
    | some cur =>
      obtain ⟨v, e⟩ := cur
      simp [BatchOp.Duplicate, hview, href, and_comm]

theorem leavesOut_eq_nilBlobPath (hs : s.Consistent now) {op : BatchOp} (h : ¬ s.Fetches now op) :
    leavesOut s.eng s.readSeq true now op = .error .nilBlobPath := by
  cases op with
  | delete _ => exact absurd trivial h
  | deleteRange _ _ => exact absurd trivial h
  | put key value expiresAt =>
    rw [leavesOut, if_pos rfl, isDuplicatePut,
      getWithExpiry_eq_nilBlobPath hs.readable (hs.copies now (le_refl now)) h]

/-- The operations that reach the duplicate test. -/
def tested (now : Time) (ops : List BatchOp) : List BatchOp :=
  if ∃ op ∈ ops, op.key = [] then [] else checked now 0 ops

def Testable (s : Quiescent) (now : Time) (ops : List BatchOp) : Prop :=
  ∀ op ∈ tested now ops, s.Fetches now op

theorem Settled.testable (hs : s.Settled now) (ops : List BatchOp) : s.Testable now ops := by
  intro op _
  cases op with
  | delete _ => trivial
  | deleteRange _ _ => trivial
  | put key _ _ => exact hs.resolvesBlobs.fetches hs.readable

def logged (s : Quiescent) (dedup : Bool) (now : Time) (ops : List BatchOp) : List BatchOp :=
  if dedup then remaining (s.view now) ops else ops

theorem logged_sublist (s : Quiescent) (dedup : Bool) (now : Time) (ops : List BatchOp) :
    (s.logged dedup now ops).Sublist ops := by
  cases dedup with
  | true => exact filter_sublist
  | false => exact List.Sublist.refl _

def logging (s : Quiescent) (kept : List BatchOp) : Quiescent :=
  if kept = [] then s
  else s.applyCommitted (assignSeqs (s.walSeq + 1) (kept.map BatchOp.entry))

def checkBatch (now : Time) (ops : List BatchOp) : Except Err Unit :=
  if ops = [] then .ok ()
  else if ∃ op ∈ ops, op.key = [] then .error .emptyKey
  else validateOps now 0 ops

theorem checkBatch_eq_ok (hnow : 0 ≤ now) (h : checkBatch now ops = .ok ()) :
    ∀ op ∈ ops, op.Accepted := by
  unfold checkBatch at h
  split_ifs at h with hnil
  · simp [hnil]
  · exact validateOps_eq_ok hnow h

theorem checkBatch_future {k : Key} {v : Bytes} {e : Time} (h : checkBatch now ops = .ok ())
    (hop : .put k v e ∈ ops) (hne : e ≠ 0) : now < e := by
  unfold checkBatch at h
  split_ifs at h with hnil
  · rw [hnil] at hop
    cases hop
  · exact validateOps_future h hop hne

/-- Logs operations that passed their checks, if there are sequences left for them. -/
def append (s : Quiescent) (kept : List BatchOp) : Except Err Quiescent :=
  if kept ≠ [] ∧ maxIKeySeq < s.walSeq + kept.length then .error .sequenceExhausted
  else .ok (s.logging kept)

theorem append_of_room {kept : List BatchOp} (hroom : s.walSeq + kept.length ≤ maxIKeySeq) :
    s.append kept = .ok (s.logging kept) :=
  if_neg fun h => absurd h.2 (Nat.not_lt.2 hroom)

theorem write_eq (hs : s.Consistent now) (dedup : Bool)
    (htest : dedup = true → s.Testable now ops) :
    s.write dedup now ops =
      checkBatch now ops >>= fun _ => s.append (s.logged dedup now ops) := by
  unfold write checkBatch
  split_ifs with hnil hempty
  · subst hnil
    have : s.logged dedup now [] = [] := sublist_nil.1 (s.logged_sublist dedup now [])
    simp [append, logging, this]
  · rfl
  · have hentries : batchEntries s.eng s.readSeq dedup now 0 ops =
        (validateOps now 0 ops).map fun _ => (s.logged dedup now ops).map BatchOp.entry := by
      cases dedup with
      | true =>
        refine batchEntries_eq _ 0 fun op hop => leavesOut_eq hs (htest rfl op ?_)
        rw [tested, if_neg hempty]
        exact hop
      | false =>
        rw [batchEntries_eq (fun _ => false) 0 (fun op _ => rfl)]
        simp [logged]
    rw [hentries]
    cases validateOps now 0 ops with
    | error err => rfl
    | ok u =>
      simp only [Except.map, Except.ok_bind, append, logging, map_eq_nil_iff]
      by_cases hkept : s.logged dedup now ops = []
      · rw [if_pos hkept, if_neg (fun h => h.1 hkept), if_pos hkept]
        rfl
      · have hpos := length_pos_iff.2 hkept
        rw [if_neg hkept, if_neg hkept, reserveSeq, length_map]
        split_ifs with hfull hroom hroom
        · rfl
        · exact absurd ⟨hkept, by omega⟩ hroom
        · exact absurd hroom.2 (by omega)
        · rfl

theorem write_eq_nilBlobPath (hs : s.Consistent now) (h : ¬ s.Testable now ops) :
    s.write true now ops = .error .nilBlobPath := by
  unfold Testable tested at h
  push Not at h
  obtain ⟨op, hop, hfetch⟩ := h
  split_ifs at hop with hempty
  · cases hop
  · have hnil : ops ≠ [] := by
      rintro rfl
      simp [checked] at hop
    have hentries : batchEntries s.eng s.readSeq true now 0 ops = .error .nilBlobPath := by
      refine batchEntries_error (fun o => ?_) ⟨op, hop, leavesOut_eq_nilBlobPath hs hfetch⟩
      by_cases ho : s.Fetches now o
      · exact Or.inl ⟨_, leavesOut_eq hs ho⟩
      · exact Or.inr (leavesOut_eq_nilBlobPath hs ho)
    rw [write, if_neg hnil, if_neg hempty, hentries]
    rfl

theorem validateOp_ne_nilBlobPath (now : Time) (total : Nat) (op : BatchOp) :
    validateOp now total op ≠ .error .nilBlobPath := by
  intro h
  cases op <;> simp only [validateOp, chargeEntry, validateExpiresAt] at h <;> split_ifs at h <;>
    cases h

theorem checkBatch_ne_nilBlobPath (now : Time) (ops : List BatchOp) :
    checkBatch now ops ≠ .error .nilBlobPath := by
  have hops : ∀ total, validateOps now total ops ≠ .error .nilBlobPath := by
    induction ops with
    | nil => exact fun _ => nofun
    | cons op ops ih =>
      intro total h
      rw [validateOps] at h
      cases hop : validateOp now total op with
      | error err =>
        rw [hop] at h
        cases h
        exact validateOp_ne_nilBlobPath now total op hop
      | ok total' =>
        rw [hop] at h
        exact ih total' h
  unfold checkBatch
  split_ifs
  · nofun
  · nofun
  · exact hops 0

theorem write_of_room (hs : s.Consistent now) (hroom : s.walSeq + ops.length ≤ maxIKeySeq)
    (dedup : Bool) (htest : dedup = true → s.Testable now ops) :
    s.write dedup now ops =
      (checkBatch now ops).map fun _ => s.logging (s.logged dedup now ops) := by
  have hlen := (s.logged_sublist dedup now ops).length_le
  rw [write_eq hs dedup htest, append_of_room (by omega)]
  cases checkBatch now ops <;> rfl

theorem follows_logged {kept : List BatchOp} (hacc : ∀ op ∈ kept, op.Accepted)
    (hroom : s.walSeq + kept.length ≤ maxIKeySeq) :
    s.Follows (assignSeqs (s.walSeq + 1) (kept.map BatchOp.entry)) where
  valid := assignSeqs_valid hacc hroom
  ascending := assignSeqs_ascending _ _
  newer e he := (mem_assignSeqs he).1
  last e he := by
    have := (mem_assignSeqs he).2.1
    rw [assignSeqs_length]
    omega

theorem logging_consistent {kept : List BatchOp} (hs : s.Consistent now)
    (hacc : ∀ op ∈ kept, op.Accepted) (hroom : s.walSeq + kept.length ≤ maxIKeySeq) :
    (s.logging kept).Consistent now := by
  unfold logging
  split_ifs
  · exact hs
  · exact applyCommitted_consistent hs (follows_logged hacc hroom)

theorem logging_settled {kept : List BatchOp} (hs : s.Settled now)
    (hacc : ∀ op ∈ kept, op.Accepted) (hroom : s.walSeq + kept.length ≤ maxIKeySeq) :
    (s.logging kept).Settled now := by
  refine ⟨logging_consistent hs.toConsistent hacc hroom, ?_⟩
  unfold logging
  split_ifs
  · exact hs.resolvesBlobs
  · exact hs.resolvesBlobs

theorem logging_view {kept : List BatchOp} (hs : s.Consistent now) (hacc : ∀ op ∈ kept, op.Accepted)
    (hroom : s.walSeq + kept.length ≤ maxIKeySeq) {t : Time} (ht : now ≤ t) (key : Key) :
    (s.logging kept).view t key =
      (kept.map BatchOp.entry).foldl (WalEntry.effect t key) (s.view t key) := by
  unfold logging
  split_ifs with hnil
  · rw [hnil]
    rfl
  · rw [applyCommitted_view hs (follows_logged hacc hroom) ht, foldl_effect_assignSeqs]

theorem logging_walSeq (s : Quiescent) (kept : List BatchOp) :
    (s.logging kept).walSeq = s.walSeq + kept.length := by
  unfold logging
  split_ifs with hnil
  · simp [hnil]
  · simp [applyCommitted, assignSeqs_length]

theorem view_ages (s : Quiescent) (now : Time) : AgesFrom now s.view :=
  fun _ _ _ h t => Engine.reference_ages h t

theorem logging_view_eq_iff (hnow : 0 ≤ now) (hs : s.Consistent now)
    (hroom : s.walSeq + ops.length ≤ maxIKeySeq) (hcheck : checkBatch now ops = .ok ()) :
    (∀ t, now ≤ t → ∀ key, (s.logging (remaining (s.view now) ops)).view t key =
      (s.logging ops).view t key) ↔ DedupSafe (s.view now) ops := by
  have hacc := checkBatch_eq_ok hnow hcheck
  have hsub : (remaining (s.view now) ops).Sublist ops := filter_sublist
  have hacc' : ∀ op ∈ remaining (s.view now) ops, op.Accepted :=
    fun op hop => hacc op (hsub.subset hop)
  have hroom' : s.walSeq + (remaining (s.view now) ops).length ≤ maxIKeySeq := by
    have := hsub.length_le
    omega
  constructor
  · intro h
    refine safe_of_remaining_foldl ?_ fun key => ?_
    · rintro op hop k v e rfl
      by_cases hzero : e = 0
      · exact Or.inl hzero
      · exact Or.inr (checkBatch_future hcheck hop hzero)
    · rw [← logging_view hs hacc' hroom' (le_refl now) key, h now (le_refl now) key,
        logging_view hs hacc hroom (le_refl now) key]
  · intro hsafe t ht key
    rw [logging_view hs hacc' hroom' ht, logging_view hs hacc hroom ht,
      remaining_foldl_of_safe (s.view_ages now) hsafe t key]

/-- The state after a write, which a rejected batch does not change. -/
def afterWrite (s : Quiescent) (dedup : Bool) (now : Time) (ops : List BatchOp) : Quiescent :=
  match s.write dedup now ops with
  | .ok s' => s'
  | .error _ => s

theorem afterWrite_of_ok (hs : s.Consistent now) (hroom : s.walSeq + ops.length ≤ maxIKeySeq)
    (hcheck : checkBatch now ops = .ok ()) (dedup : Bool)
    (htest : dedup = true → s.Testable now ops) :
    s.afterWrite dedup now ops = s.logging (s.logged dedup now ops) := by
  rw [afterWrite, write_of_room hs hroom dedup htest, hcheck]
  rfl

theorem afterWrite_of_error (hs : s.Consistent now) {err : Err}
    (hcheck : checkBatch now ops = .error err) (dedup : Bool)
    (htest : dedup = true → s.Testable now ops) : s.afterWrite dedup now ops = s := by
  rw [afterWrite, write_eq hs dedup htest, hcheck]
  rfl

/-- With deduplication on the write does not panic, and it leaves the view the write
without leaves. -/
def SameView (s : Quiescent) (now : Time) (ops : List BatchOp) : Prop :=
  s.write true now ops ≠ .error .nilBlobPath ∧ ∀ t, now ≤ t → ∀ key,
    (s.afterWrite true now ops).view t key = (s.afterWrite false now ops).view t key

/-- Leaving puts out is safe. -/
def DropsNothing (s : Quiescent) (now : Time) (ops : List BatchOp) : Prop :=
  if s.walSeq + ops.length ≤ maxIKeySeq then DedupSafe (s.view now) ops
  else s.walSeq + (remaining (s.view now) ops).length ≤ maxIKeySeq →
    ∀ key, ∀ last ∈ (affecting key (remaining (s.view now) ops)).getLast?,
      last.result now = s.view now key

theorem accepted_view_eq_iff (hnow : 0 ≤ now) (hs : s.Consistent now)
    (htest : s.Testable now ops) (hcheck : checkBatch now ops = .ok ()) :
    (∀ t, now ≤ t → ∀ key, (s.afterWrite true now ops).view t key =
      (s.afterWrite false now ops).view t key) ↔ s.DropsNothing now ops := by
  unfold DropsNothing
  split_ifs with hroom
  · rw [afterWrite_of_ok hs hroom hcheck true fun _ => htest,
      afterWrite_of_ok hs hroom hcheck false nofun]
    exact logging_view_eq_iff hnow hs hroom hcheck
  · -- the plain write is refused, so the view is compared with the one before
    have hoff : ∀ t key, (s.afterWrite false now ops).view t key = s.view t key := by
      intro t key
      rw [afterWrite, write_eq hs false nofun, hcheck]
      change (match s.append ops with | .ok s' => s' | .error _ => s).view t key = _
      rw [append]
      by_cases hnil : ops = []
      · rw [if_neg fun h => h.1 hnil, logging, if_pos hnil]
      · rw [if_pos ⟨hnil, Nat.lt_of_not_le hroom⟩]
    simp only [hoff]
    rw [afterWrite, write_eq hs true fun _ => htest, hcheck]
    change (∀ t, now ≤ t → ∀ key, (match s.append (remaining (s.view now) ops) with
      | .ok s' => s' | .error _ => s).view t key = s.view t key) ↔ _
    have hacc : ∀ op ∈ remaining (s.view now) ops, op.Accepted := fun op hop =>
      checkBatch_eq_ok hnow hcheck op (filter_sublist.subset hop)
    by_cases hkept : s.walSeq + (remaining (s.view now) ops).length ≤ maxIKeySeq
    · rw [append_of_room hkept, ← foldl_unchanged_iff s.view_ages]
      constructor
      · intro h _ t ht key
        rw [← logging_view hs hacc hkept ht, h t ht key]
      · intro h t ht key
        rw [logging_view hs hacc hkept ht, h hkept t ht key]
    · refine iff_of_true (fun t _ key => ?_) fun h => absurd h hkept
      rw [append]
      split_ifs with hfull
      · rfl
      · obtain hnil : remaining (s.view now) ops = [] := by
          by_contra hne
          exact hfull ⟨hne, Nat.lt_of_not_le hkept⟩
        rw [logging, if_pos hnil]

theorem sameView_iff (hnow : 0 ≤ now) (hs : s.Consistent now) :
    s.SameView now ops ↔
      s.Testable now ops ∧ (checkBatch now ops = .ok () → s.DropsNothing now ops) := by
  by_cases htest : s.Testable now ops
  · have hsafe : s.write true now ops ≠ .error .nilBlobPath := by
      rw [write_eq hs true fun _ => htest]
      cases hcheck : checkBatch now ops with
      | error err =>
        intro h
        cases h
        exact checkBatch_ne_nilBlobPath now ops hcheck
      | ok u =>
        rw [Except.ok_bind, append]
        split_ifs <;> nofun
    simp only [SameView, hsafe, htest, ne_eq, not_false_eq_true, true_and]
    cases hcheck : checkBatch now ops with
    | error err =>
      rw [afterWrite_of_error hs hcheck true fun _ => htest,
        afterWrite_of_error hs hcheck false nofun]
      exact iff_of_true (fun _ _ _ => rfl) nofun
    | ok u => exact (accepted_view_eq_iff hnow hs htest hcheck).trans ⟨fun h _ => h, fun h => h rfl⟩
  · exact iff_of_false (fun h => h.1 (write_eq_nilBlobPath hs htest)) fun h => htest h.1

def afterWrites (dedup : Bool) : Quiescent → List (Time × List BatchOp) → Quiescent
  | s, [] => s
  | s, (now, ops) :: batches => afterWrites dedup (s.afterWrite dedup now ops) batches

/-- Every batch of the run can be tested and is safe for the view it meets, at
non-decreasing times. -/
def SafeRun : Time → Quiescent → List (Time × List BatchOp) → Prop
  | _, _, [] => True
  | T₀, s, (now, ops) :: batches =>
    T₀ ≤ now ∧ s.Testable now ops ∧ (checkBatch now ops = .ok () → DedupSafe (s.view now) ops) ∧
      SafeRun now (s.afterWrite true now ops) batches

theorem afterWrites_view_eq {T₀ : Time} (hT₀ : 0 ≤ T₀) {on off : Quiescent}
    (hon : on.Consistent T₀) (hoff : off.Consistent T₀)
    (hsame : ∀ t, T₀ ≤ t → ∀ key, on.view t key = off.view t key)
    {batches : List (Time × List BatchOp)}
    (hroomOn : on.walSeq + (batches.map (·.2.length)).sum ≤ maxIKeySeq)
    (hroomOff : off.walSeq + (batches.map (·.2.length)).sum ≤ maxIKeySeq)
    (hrun : SafeRun T₀ on batches) {t : Time} (ht : T₀ ≤ t) (hlast : ∀ b ∈ batches, b.1 ≤ t)
    (key : Key) :
    (afterWrites true on batches).view t key = (afterWrites false off batches).view t key := by
  induction batches generalizing T₀ on off with
  | nil => exact hsame t ht key
  | cons batch batches ih =>
    obtain ⟨now, ops⟩ := batch
    obtain ⟨hle, htest, hsafe, hrest⟩ := hrun
    simp only [map_cons, sum_cons] at hroomOn hroomOff
    have hnow : 0 ≤ now := le_trans hT₀ hle
    have hnowt : now ≤ t := hlast (now, ops) (by simp)
    have hlast' : ∀ b ∈ batches, b.1 ≤ t := fun b hb => hlast b (by simp [hb])
    have hon' := hon.later hle
    have hoff' := hoff.later hle
    have hopsOn : on.walSeq + ops.length ≤ maxIKeySeq := by omega
    have hopsOff : off.walSeq + ops.length ≤ maxIKeySeq := by omega
    have hviews : ∀ t, now ≤ t → ∀ key, on.view t key = off.view t key :=
      fun t ht => hsame t (le_trans hle ht)
    unfold afterWrites
    cases hcheck : checkBatch now ops with
    | error err =>
      rw [afterWrite_of_error hon' hcheck true fun _ => htest] at hrest ⊢
      rw [afterWrite_of_error hoff' hcheck false nofun]
      exact ih hnow hon' hoff' hviews (by omega) (by omega) hrest hnowt hlast'
    | ok u =>
      rw [afterWrite_of_ok hon' hopsOn hcheck true fun _ => htest] at hrest ⊢
      rw [afterWrite_of_ok hoff' hopsOff hcheck false nofun]
      have hacc := checkBatch_eq_ok hnow hcheck
      have hsub := on.logged_sublist true now ops
      have hlen := hsub.length_le
      refine ih hnow
        (logging_consistent hon' (fun op hop => hacc op (hsub.subset hop)) (by omega))
        (logging_consistent hoff' hacc hopsOff) ?_ ?_ ?_ hrest hnowt hlast'
      · intro t ht key
        have hboth := (logging_view_eq_iff hnow hon' hopsOn hcheck).2 (hsafe hcheck) t ht key
        refine hboth.trans ?_
        rw [logging_view hon' hacc hopsOn ht, hviews t ht key]
        exact (logging_view hoff' hacc hopsOff ht key).symm
      · rw [logging_walSeq]
        omega
      · rw [logging_walSeq]
        change off.walSeq + ops.length + _ ≤ _
        omega

/-- From any consistent state a batch leaves one view in both modes exactly when the
session can read what its puts are compared with and an accepted batch loses nothing
by what is left out. With sequences left both modes then accept and refuse alike, and
a run of such batches leaves one view. -/
theorem dedup_invisible_iff_safe (hnow : 0 ≤ now) (hs : s.Consistent now) :
    (∀ ops, s.SameView now ops ↔
      s.Testable now ops ∧ (checkBatch now ops = .ok () → s.DropsNothing now ops)) ∧
    (∀ ops, s.walSeq + ops.length ≤ maxIKeySeq → s.Testable now ops →
      (∃ err, s.write true now ops = .error err ∧ s.write false now ops = .error err) ∨
      ∃ on off, s.write true now ops = .ok on ∧ s.write false now ops = .ok off) ∧
    ∀ batches, s.walSeq + (batches.map (·.2.length)).sum ≤ maxIKeySeq → SafeRun now s batches →
      ∀ t, now ≤ t → (∀ b ∈ batches, b.1 ≤ t) → ∀ key,
        (afterWrites true s batches).view t key = (afterWrites false s batches).view t key := by
  refine ⟨fun ops => sameView_iff hnow hs, fun ops hroom htest => ?_,
    fun batches hroom hrun t ht hlast key => ?_⟩
  · rw [write_of_room hs hroom true fun _ => htest, write_of_room hs hroom false nofun]
    cases checkBatch now ops with
    | error err => exact Or.inl ⟨err, rfl, rfl⟩
    | ok u => exact Or.inr ⟨_, _, rfl, rfl⟩
  · exact afterWrites_view_eq hnow hs hs (fun _ _ _ => rfl) hroom hroom hrun ht hlast key

end Quiescent

def singleKeyDb : Quiescent where
  eng :=
    { cfg := ⟨4096, 10, 7, 0, 0, false⟩
      alloc := 1
      mem := newMemtable.put 1 [107] [0]
      imm := none
      recoveryMems := []
      tables := []
      blobs := []
      lastCompactionDone := false }
  walSeq := 1
  readSeq := 1

theorem singleKeyDb_consistent : singleKeyDb.Consistent 1 where
  readable := ⟨by decide, by decide, by simp [singleKeyDb], by simp [singleKeyDb]⟩
  blobsPresent := by simp [Engine.BlobsPresent, singleKeyDb]
  copies t _ := CopiesIdentical.agreeAt (by decide) t
  points := by decide
  rangeDels := by decide
  published := by decide

theorem singleKeyDb_testable (ops : List BatchOp) : singleKeyDb.Testable 1 ops :=
  Quiescent.Settled.testable ⟨singleKeyDb_consistent, Or.inr (by simp [singleKeyDb])⟩ ops

/-- A put of another value is seen alike in both modes; behind it, a put of the
committed one is not. -/
theorem dedup_invisible_iff_safe_singleKeyDb :
    singleKeyDb.SameView 1 [.put [107] [1] 0] ∧
      ¬ singleKeyDb.SameView 1 [.put [107] [1] 0, .put [107] [0] 0] := by
  have hiff := (Quiescent.dedup_invisible_iff_safe (by decide) singleKeyDb_consistent).1
  constructor
  · refine (hiff _).2 ⟨singleKeyDb_testable _, fun _ => ?_⟩
    rw [Quiescent.DropsNothing, if_pos (by decide)]
    intro key last hlast hdup
    have hmem := (mem_affecting.1 (mem_of_getLast? hlast)).1
    obtain rfl := mem_singleton.1 hmem
    exact absurd hdup (by decide)
  · intro h
    have hsafe := ((hiff _).1 h).2 (by decide)
    rw [Quiescent.DropsNothing, if_pos (by decide)] at hsafe
    exact absurd (hsafe [107] (.put [107] [0] 0) (by decide) (by decide) (.put [107] [1] 0)
      (by decide)) (by decide)

/-- `k ↦ 1` and then `k ↦ 0` again: the second put repeats the committed value and
is left out, so the first one wins. -/
theorem dedup_drops_last_put :
    singleKeyDb.Consistent 1 ∧
      (singleKeyDb.write true 1 [.put [107] [1] 0, .put [107] [0] 0]).map
        (fun s => s.view 1 [107]) = .ok (some ([1], 0)) ∧
      (singleKeyDb.write false 1 [.put [107] [1] 0, .put [107] [0] 0]).map
        (fun s => s.view 1 [107]) = .ok (some ([0], 0)) := by
  refine ⟨singleKeyDb_consistent, ?_, ?_⟩
  · decide +kernel
  · decide +kernel

end LevisDB
