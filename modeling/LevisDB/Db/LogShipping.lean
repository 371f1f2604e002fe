import LevisDB.Db.Dedup
import LevisDB.Db.Holdings
import LevisDB.Db.ReplicationRuns

/-!
# Shipping the log to a follower

A follower that shows what the leader showed at some sequence applies the
updates past it as batches of its own, regrouped as it likes, each checked
against its own clock.
-/

namespace LevisDB

open List LevisDB.Except

namespace Replication

variable {ops : List BatchOp} {es : List WalEntry} {total : Nat} {f : Quiescent} {now : Time}

namespace Update

def op (u : Update) : BatchOp :=
  match u.kind with
  | .put => .put u.key u.value u.expiresAt
  | .delete => .delete u.key
  | .deleteRange => .deleteRange u.key u.value

/-- The bytes the update counts toward the limit of a batch. -/
def size (u : Update) : Nat := u.op.entry.size

end Update

structure Logged (e : WalEntry) : Prop where
  op : ∃ op : BatchOp, op.Accepted ∧ e = { op.entry with seq := e.seq }
  seqPos : 0 < e.seq
  seqMax : e.seq ≤ maxIKeySeq

section Logged

variable {e : WalEntry}

theorem Logged.valid (h : Logged e) : e.Valid := by
  obtain ⟨op, hacc, heq⟩ := h.op
  have hpos := h.seqPos
  have hmax := h.seqMax
  rw [heq]
  exact ⟨hacc.key, hacc.range, hacc.ttl, hacc.size, hpos, hmax⟩

theorem op_publicEntry (h : Logged e) :
    (publicEntry e).op.Accepted ∧ (publicEntry e).op.entry = { e with seq := 0 } := by
  obtain ⟨op, hacc, heq⟩ := h.op
  have hop : (publicEntry e).op = op := by
    rw [heq]
    cases op with
    | put key value expiresAt =>
      by_cases hzero : expiresAt = 0 <;> simp [publicEntry, Update.op, BatchOp.entry, publicKind,
        hzero]
    | delete key => rfl
    | deleteRange start stop => rfl
  rw [hop]
  refine ⟨hacc, ?_⟩
  rw [heq]
  cases op <;> rfl

theorem effect_publicEntry (h : Logged e) (t : Time) (key : Key) (before : Option (Bytes × Time)) :
    WalEntry.effect t key before (publicEntry e).op.entry = WalEntry.effect t key before e := by
  rw [(op_publicEntry h).2]
  rfl

theorem foldl_effect_publicEntry {es : List WalEntry} (h : ∀ e ∈ es, Logged e) (t : Time)
    (key : Key)
    (before : Option (Bytes × Time)) :
    ((es.map publicEntry).map fun u => u.op.entry).foldl (WalEntry.effect t key) before =
      es.foldl (WalEntry.effect t key) before := by
  induction es generalizing before with
  | nil => rfl
  | cons e es ih =>
    rw [map_cons, map_cons, foldl_cons, foldl_cons,
      effect_publicEntry (h e (by simp)), ih fun e' he' => h e' (by simp [he'])]

end Logged

theorem validateOp_of_accepted {op : BatchOp} (hacc : op.Accepted)
    (hfuture : op.entry.expiresAt ≠ 0 → now < op.entry.expiresAt)
    (hfits : total + op.entry.size ≤ maxEntrySize) :
    validateOp now total op = .ok (total + op.entry.size) := by
  have hcharge : chargeEntry total op.entry.size = .ok (total + op.entry.size) := by
    rw [chargeEntry, if_neg (Nat.not_lt.2 hacc.size), if_neg (Nat.not_lt.2 hfits)]
  cases op with
  | delete key =>
    have hkey : key ≠ [] := hacc.key
    rw [validateOp, if_neg hkey]
    simpa [BatchOp.entry, WalEntry.size] using hcharge
  | deleteRange start stop =>
    have hkey : start ≠ [] := hacc.key
    have hrange := hacc.range rfl
    have hbad : ¬ (stop = [] ∨ stop ≤ start) := by
      rintro (hnil | hle)
      · exact hrange.1 hnil
      · exact absurd hrange.2 (not_lt.2 hle)
    rw [validateOp, if_neg hkey, if_neg hbad]
    simpa [BatchOp.entry, WalEntry.size] using hcharge
  | put key value expiresAt =>
    have hkey : key ≠ [] := hacc.key
    have hexp : validateExpiresAt now expiresAt = .ok () := by
      unfold validateExpiresAt
      split_ifs with hzero hle
      · rfl
      · exact absurd (hfuture hzero) (not_lt.2 hle)
      · rfl
    have hsize : key.length + value.length + (if expiresAt ≠ 0 then expiryPrefixLen else 0) =
        (BatchOp.put key value expiresAt).entry.size := by
      by_cases hzero : expiresAt = 0 <;> simp [BatchOp.entry, WalEntry.size, hzero]
    rw [validateOp, if_neg hkey, hsize, hcharge, ok_bind, hexp]
    rfl

theorem validateOp_size {total' : Nat} {op : BatchOp}
    (h : validateOp now total op = .ok total') : total' = total + op.entry.size ∧ total' ≤
    maxEntrySize := by
  cases op with
  | delete key | deleteRange start stop =>
    rw [validateOp] at h
    split_ifs at h
    obtain ⟨_, rfl, hle⟩ := chargeEntry_eq_ok h
    exact ⟨by simp [BatchOp.entry, WalEntry.size], hle⟩
  | put key value expiresAt =>
    rw [validateOp] at h
    by_cases hkey : key = []
    · rw [if_pos hkey] at h
      cases h
    · rw [if_neg hkey] at h
      obtain ⟨total₁, hcharge, h⟩ := bind_eq_ok.1 h
      obtain ⟨_, _, h⟩ := bind_eq_ok.1 h
      cases h
      obtain ⟨_, rfl, hle⟩ := chargeEntry_eq_ok hcharge
      refine ⟨?_, hle⟩
      by_cases hzero : expiresAt = 0 <;> simp [BatchOp.entry, WalEntry.size, hzero]

theorem validateOps_iff (hacc : ∀ op ∈ ops, op.Accepted)
    (htotal : total ≤ maxEntrySize) :
    validateOps now total ops = .ok () ↔
      (∀ op ∈ ops, op.entry.expiresAt ≠ 0 → now < op.entry.expiresAt) ∧
        total + (ops.map fun op => op.entry.size).sum ≤ maxEntrySize := by
  induction ops generalizing total with
  | nil => simpa [validateOps] using htotal
  | cons op ops ih =>
    have hop := hacc op (by simp)
    have hrest : ∀ o ∈ ops, o.Accepted := fun o ho => hacc o (by simp [ho])
    rw [map_cons, sum_cons]
    constructor
    · intro h
      obtain ⟨total', hcheck, h⟩ := bind_eq_ok.1 h
      obtain ⟨rfl, hle⟩ := validateOp_size hcheck
      obtain ⟨hfuture, hsum⟩ := (ih hrest hle).1 h
      refine ⟨fun o ho hne => ?_, by omega⟩
      rcases mem_cons.1 ho with rfl | ho
      · cases o with
        | put key value expiresAt => exact validateOp_put_future hcheck hne
        | delete key | deleteRange start stop => exact absurd rfl hne
      · exact hfuture o ho hne
    · rintro ⟨hfuture, hsum⟩
      have hcheck : validateOp now total op = .ok (total + op.entry.size) :=
        validateOp_of_accepted hop (hfuture op (by simp)) (by omega)
      rw [validateOps, hcheck, ok_bind]
      exact (ih hrest (by omega)).2 ⟨fun o ho => hfuture o (by simp [ho]), by omega⟩

theorem checkBatch_iff (hacc : ∀ op ∈ ops, op.Accepted) :
    Quiescent.checkBatch now ops = .ok () ↔
      (∀ op ∈ ops, op.entry.expiresAt ≠ 0 → now < op.entry.expiresAt) ∧
        (ops.map fun op => op.entry.size).sum ≤ maxEntrySize := by
  unfold Quiescent.checkBatch
  split_ifs with hnil hempty
  · simp [hnil]
  · obtain ⟨op, hop, hkey⟩ := hempty
    refine absurd ?_ (hacc op hop).key
    cases op <;> exact hkey
  · rw [validateOps_iff hacc (Nat.zero_le _), Nat.zero_add]

/-- What a read of the leader at sequence `n` sees of its log. -/
def leaderView (committed : List WalEntry) (n : Nat) (t : Time) (key : Key) : Option
    (Bytes × Time) :=
  (History.empty.log committed).get n t key

theorem copies_logPoints (hasc : Ascending es) : CopiesIdentical (logPoints es) := by
  intro p hp q hq _ hseq
  obtain ⟨x, hx, hxp⟩ := mem_logPoints.1 hp
  obtain ⟨y, hy, hyq⟩ := mem_logPoints.1 hq
  have hxy : x = y := hasc.eq_of_seq hx hy (by
    rw [← WalEntry.seq_of_point? hxp, ← WalEntry.seq_of_point? hyq, hseq])
  subst hxy
  exact Option.some.inj (hxp.symm.trans hyq)

theorem leaderView_eq (hlogged : ∀ e ∈ es, Logged e) (hasc : Ascending es)
    (n : Nat) (t : Time) (key : Key) : leaderView es n t key = logView t (between 0 n es) key := by
  have hsub : (between 0 n es).Sublist es := filter_sublist
  have hpoints : ∀ p, p.seq ≤ n → (p ∈ logPoints es ↔ p ∈ logPoints (between 0 n es)) := by
    intro p hp
    simp only [mem_logPoints]
    refine exists_congr fun e => ⟨fun ⟨he, hpe⟩ => ⟨mem_filter.2 ⟨he, ?_⟩, hpe⟩,
      fun ⟨he, hpe⟩ => ⟨hsub.subset he, hpe⟩⟩
    have hseq := WalEntry.seq_of_point? hpe
    have hpos := (hlogged e he).seqPos
    simp only [decide_eq_true_eq]
    omega
  have hspans : ∀ rt : RangeTombstone, rt.seq ≤ n →
      (rt ∈ logRangeDels es ↔ rt ∈ logRangeDels (between 0 n es)) := by
    intro rt hrt
    simp only [mem_logRangeDels]
    refine exists_congr fun e => ⟨fun ⟨he, hre⟩ => ⟨mem_filter.2 ⟨he, ?_⟩, hre⟩,
      fun ⟨he, hre⟩ => ⟨hsub.subset he, hre⟩⟩
    have hseq := WalEntry.seq_of_span? hre
    have hpos := (hlogged e he).seqPos
    simp only [decide_eq_true_eq]
    omega
  have hagree : History.AgreeBelow n (History.empty.log es) (History.empty.log (between 0 n es)) :=
    ⟨hpoints, hspans⟩
  have hascN : Ascending (between 0 n es) := hasc.sublist hsub
  rw [leaderView, hagree.get_eq (copies_logPoints hasc) (copies_logPoints hascN)]
  apply Option.ext
  intro x
  rw [History.get_eq_some_iff (copies_logPoints hascN)]
  exact sees_logStore_iff (fun e he => (hlogged e (hsub.subset he)).valid) hascN
    (fun e he => by
      have hin : 0 < e.seq ∧ e.seq ≤ n := by simpa [between] using (mem_filter.1 he).2
      exact hin.2) x

def lastOf (since : Nat) (us : List Update) : Nat := (us.getLast?.map (·.seq)).getD since

section Stretch

variable {committed : List WalEntry} {since cutoff : Nat} {pre post : List WalEntry}

theorem between_lastOf (hasc : Ascending committed)
    (hstretch : between since cutoff committed = pre ++ post) :
    since ≤ lastOf since (pre.map publicEntry) ∧
      between since (lastOf since (pre.map publicEntry)) committed = pre ∧
      between (lastOf since (pre.map publicEntry)) cutoff committed = post := by
  rcases eq_nil_or_concat pre with rfl | ⟨init, e, rfl⟩
  · exact ⟨le_refl _, between_empty (le_refl _) _, hstretch⟩
  · rw [concat_eq_append] at hstretch ⊢
    have hlast : lastOf since ((init ++ [e]).map publicEntry) = e.seq := by
      simp [lastOf, publicEntry]
    have hin : since < e.seq ∧ e.seq ≤ cutoff := by
      have hmem : e ∈ between since cutoff committed := by rw [hstretch]; simp
      simpa [between] using (mem_filter.1 hmem).2
    have hsorted : Ascending (between since cutoff committed) := hasc.sublist filter_sublist
    have hsplit := between_split hasc (le_of_lt hin.1) hin.2
    have hcut : between since e.seq committed = init ++ [e] := by
      have hfilter : between since e.seq committed =
          (between since cutoff committed).filter fun x => decide (x.seq ≤ e.seq) := by
        unfold between
        rw [filter_filter]
        refine filter_congr fun x _ => ?_
        rw [← Bool.decide_and, decide_eq_decide]
        omega
      rw [hstretch] at hsorted
      obtain ⟨hpre, _, hcross⟩ := pairwise_append.1 hsorted
      have hkeep : (init ++ [e]).filter (fun x => decide (x.seq ≤ e.seq)) = init ++ [e] := by
        refine filter_eq_self.2 fun x hx => decide_eq_true ?_
        rcases mem_append.1 hx with hx | hx
        · exact le_of_lt ((pairwise_append.1 hpre).2.2 x hx e (by simp))
        · rw [mem_singleton.1 hx]
      have hdrop : post.filter (fun x => decide (x.seq ≤ e.seq)) = [] := by
        refine filter_eq_nil_iff.2 fun x hx => ?_
        have := hcross e (by simp) x hx
        simp only [decide_eq_true_eq]
        omega
      rw [hfilter, hstretch, filter_append, hkeep, hdrop, append_nil]
    rw [hlast]
    refine ⟨le_of_lt hin.1, hcut, ?_⟩
    rw [hcut, hstretch] at hsplit
    exact (append_cancel_left hsplit).symm

theorem leaderView_stretch (hlogged : ∀ e ∈ committed, Logged e) (hasc : Ascending committed)
    (hstretch : between since cutoff committed = pre ++ post) (t : Time) (key : Key) :
    leaderView committed (lastOf since (pre.map publicEntry)) t key =
      pre.foldl (WalEntry.effect t key) (leaderView committed since t key) := by
  obtain ⟨hle, hpre, _⟩ := between_lastOf hasc hstretch
  rw [leaderView_eq hlogged hasc, leaderView_eq hlogged hasc,
    between_split hasc (Nat.zero_le since) hle, hpre, logView, foldl_append]
  rfl

end Stretch

/-- Group by group: the write succeeds, and from then on the follower shows what the
leader shows at the last sequence applied. -/
def Tracks (view : Nat → Time → Key → Option (Bytes × Time)) (dedup : Bool) :
    Nat → Quiescent → List (Time × List Update) → Prop
  | _, _, [] => True
  | since, f, (now, us) :: groups =>
    ∃ f', f.write dedup now (us.map Update.op) = .ok f' ∧
      (∀ t, now ≤ t → ∀ key, f'.view t key = view (lastOf since us) t key) ∧
      Tracks view dedup (lastOf since us) f' groups

/-- Group by group: no deadline has passed, the group fits in a batch, and with
deduplication on leaving puts out is safe. -/
def Shippable (view : Nat → Time → Key → Option (Bytes × Time)) (dedup : Bool) :
    Nat → List (Time × List Update) → Prop
  | _, [] => True
  | since, (now, us) :: groups =>
    (∀ u ∈ us, u.op.entry.expiresAt ≠ 0 → now < u.op.entry.expiresAt) ∧
      (us.map Update.size).sum ≤ maxEntrySize ∧
      (dedup = true → DedupSafe (view since now) (us.map Update.op)) ∧
      Shippable view dedup (lastOf since us) groups

/-- The clock of the follower does not go back. -/
def ClockFrom : Time → List (Time × List Update) → Prop
  | _, [] => True
  | T, (now, _) :: groups => T ≤ now ∧ ClockFrom now groups

theorem write_tracks_iff (dedup : Bool) (hnow : 0 ≤ now) (hf : f.Settled now)
    (hlogged : ∀ e ∈ es, Logged e)
    (hroom : f.walSeq + es.length ≤ maxIKeySeq) :
    (∃ f', f.write dedup now ((es.map publicEntry).map Update.op) = .ok f' ∧
        ∀ t, now ≤ t → ∀ key,
          f'.view t key = es.foldl (WalEntry.effect t key) (f.view t key)) ↔
      (∀ u ∈ es.map publicEntry, u.op.entry.expiresAt ≠ 0 → now < u.op.entry.expiresAt) ∧
        ((es.map publicEntry).map Update.size).sum ≤ maxEntrySize ∧
        (dedup = true → DedupSafe (f.view now) ((es.map publicEntry).map Update.op)) := by
  set ops := (es.map publicEntry).map Update.op with hops
  have hacc : ∀ op ∈ ops, op.Accepted := by
    intro op hop
    obtain ⟨u, hu, rfl⟩ := mem_map.1 hop
    obtain ⟨e, he, rfl⟩ := mem_map.1 hu
    exact (op_publicEntry (hlogged e he)).1
  have hlen : ops.length = es.length := by simp [hops]
  rw [← hlen] at hroom
  have hentries : ops.map BatchOp.entry = (es.map publicEntry).map fun u => u.op.entry := by
    rw [hops, map_map]
    rfl
  have hplain : ∀ t, now ≤ t → ∀ key,
      (f.logging ops).view t key = es.foldl (WalEntry.effect t key) (f.view t key) := by
    intro t ht key
    rw [Quiescent.logging_view hf.toConsistent hacc hroom ht, hentries,
      foldl_effect_publicEntry hlogged]
  have hcheck : Quiescent.checkBatch now ops = .ok () ↔
      (∀ u ∈ es.map publicEntry, u.op.entry.expiresAt ≠ 0 → now < u.op.entry.expiresAt) ∧
        ((es.map publicEntry).map Update.size).sum ≤ maxEntrySize := by
    have hsum : (ops.map fun op => op.entry.size) = (es.map publicEntry).map Update.size := by
      rw [hops, map_map]
      rfl
    rw [checkBatch_iff hacc, hsum, hops]
    simp only [forall_mem_map]
  rw [Quiescent.write_of_room hf.toConsistent hroom dedup fun _ => hf.testable _]
  constructor
  · rintro ⟨f', hwrite, hview⟩
    cases hbatch : Quiescent.checkBatch now ops with
    | error err =>
      rw [hbatch] at hwrite
      cases hwrite
    | ok u =>
      rw [hbatch] at hwrite
      cases hwrite
      refine ⟨(hcheck.1 hbatch).1, (hcheck.1 hbatch).2, ?_⟩
      rintro rfl
      refine (Quiescent.logging_view_eq_iff hnow hf.toConsistent hroom hbatch).1 fun t ht key => ?_
      rw [hplain t ht key]
      exact hview t ht key
  · rintro ⟨hfuture, hfits, hsafe⟩
    have hbatch := hcheck.2 ⟨hfuture, hfits⟩
    rw [hbatch]
    refine ⟨_, rfl, fun t ht key => ?_⟩
    cases dedup with
    | false => exact hplain t ht key
    | true =>
      rw [← hplain t ht key]
      exact (Quiescent.logging_view_eq_iff hnow hf.toConsistent hroom hbatch).2 (hsafe rfl) t ht key

theorem write_settled {f' : Quiescent} (hnow : 0 ≤ now) (hf : f.Settled now)
    {dedup : Bool} (hroom : f.walSeq + ops.length ≤ maxIKeySeq)
    (h : f.write dedup now ops = .ok f') :
    f'.Settled now ∧ f'.walSeq ≤ f.walSeq + ops.length := by
  rw [Quiescent.write_of_room hf.toConsistent hroom dedup fun _ => hf.testable _] at h
  cases hbatch : Quiescent.checkBatch now ops with
  | error err =>
    rw [hbatch] at h
    cases h
  | ok u =>
    rw [hbatch] at h
    cases h
    have hacc := Quiescent.checkBatch_eq_ok hnow hbatch
    have hsub := f.logged_sublist dedup now ops
    have hlen := hsub.length_le
    refine ⟨Quiescent.logging_settled hf (fun op hop => hacc op (hsub.subset hop)) (by omega), ?_⟩
    rw [Quiescent.logging_walSeq]
    omega

theorem tracks_iff_shippable {committed : List WalEntry} (hlogged : ∀ e ∈ committed, Logged e)
    (hasc : Ascending committed) {dedup : Bool} {groups : List (Time × List Update)}
    {since cutoff : Nat} (hstretch : between since cutoff committed = es)
    (hgroups : (groups.map Prod.snd).flatten <+: es.map publicEntry) {T : Time} (hT : 0 ≤ T)
    (hf : f.Settled T)
    (hsame : ∀ t, T ≤ t → ∀ key, f.view t key = leaderView committed since t key)
    (hclock : ClockFrom T groups)
    (hroom : f.walSeq + (groups.map fun g => g.2.length).sum ≤ maxIKeySeq) :
    Tracks (leaderView committed) dedup since f groups ↔
      Shippable (leaderView committed) dedup since groups := by
  induction groups generalizing since es T f with
  | nil => exact Iff.rfl
  | cons g groups ih =>
    obtain ⟨now, us⟩ := g
    obtain ⟨hle, hclock⟩ := hclock
    have hnow : 0 ≤ now := le_trans hT hle
    have hf' := hf.later hle
    simp only [map_cons, sum_cons] at hroom
    -- the group is the stretch up to its last update
    obtain ⟨pre, post, rfl, rfl⟩ : ∃ pre post, es = pre ++ post ∧ us = pre.map publicEntry := by
      have hus : us <+: es.map publicEntry :=
        (prefix_append us (groups.map Prod.snd).flatten).trans (by simpa using hgroups)
      refine ⟨es.take us.length, es.drop us.length, (take_append_drop _ _).symm, ?_⟩
      rw [map_take]
      exact prefix_iff_eq_take.1 hus
    obtain ⟨_, _, hpost⟩ := between_lastOf hasc hstretch
    have hpre : ∀ e ∈ pre, Logged e := fun e he =>
      hlogged e (filter_sublist.subset (hstretch ▸ mem_append_left post he))
    have hrest : (groups.map Prod.snd).flatten <+: post.map publicEntry := by
      rw [map_cons, flatten_cons, map_append] at hgroups
      exact (prefix_append_right_inj _).1 hgroups
    have hnext : ∀ t, now ≤ t → ∀ key, pre.foldl (WalEntry.effect t key) (f.view t key) =
        leaderView committed (lastOf since (pre.map publicEntry)) t key := by
      intro t ht key
      rw [hsame t (le_trans hle ht) key, leaderView_stretch hlogged hasc hstretch]
    have hmeets : f.view now = leaderView committed since now := funext (hsame now hle)
    have hlen : ((pre.map publicEntry).map Update.op).length = pre.length := by simp
    rw [length_map] at hroom
    have hone := write_tracks_iff dedup hnow hf' hpre (by omega)
    rw [hmeets] at hone
    constructor
    · rintro ⟨f', hwrite, hview, htracks⟩
      obtain ⟨hset, hseq⟩ := write_settled hnow hf' (by omega) hwrite
      obtain ⟨hfuture, hfits, hsafe⟩ := hone.1
        ⟨f', hwrite, fun t ht key => (hview t ht key).trans (hnext t ht key).symm⟩
      exact ⟨hfuture, hfits, hsafe,
        (ih hpost hrest hnow hset hview hclock (by omega)).1 htracks⟩
    · rintro ⟨hfuture, hfits, hsafe, hship⟩
      obtain ⟨f', hwrite, hview⟩ := hone.2 ⟨hfuture, hfits, hsafe⟩
      obtain ⟨hset, hseq⟩ := write_settled hnow hf' (by omega) hwrite
      have hview' : ∀ t, now ≤ t → ∀ key, f'.view t key =
          leaderView committed (lastOf since (pre.map publicEntry)) t key :=
        fun t ht key => (hview t ht key).trans (hnext t ht key)
      exact ⟨f', hwrite, hview', (ih hpost hrest hnow hset hview' hclock (by omega)).2 hship⟩

/-- A follower that starts from the leader's view at the sequence it asked from and
applies what the call delivered, in order, regrouped as it likes and as late as it
likes: every write succeeds and it shows, from then on, what the leader shows at the
last sequence applied, exactly when every group can be shipped. -/
theorem shipped_log_converges_iff {sync retain : Bool} {startSeq num : Nat}
    (hstart : startSeq ≤ maxIKeySeq) {earlier : List WalEntry}
    (hearlier : ∀ e ∈ earlier, e.seq ≤ startSeq) (hasc : Ascending earlier) {as : List Action}
    {s : State} (hrun : Steps (State.start sync retain startSeq num earlier) as s)
    (hlogged : ∀ e ∈ s.committed, Logged e) {r : Reply} (hr : r ∈ s.replies)
    {out : List (List Update)} (hout : r.result = .ok out) {T : Time} (hT : 0 ≤ T) {f : Quiescent}
    (hf : f.Settled T)
    (hsame : ∀ t, T ≤ t → ∀ key, f.view t key = leaderView s.committed r.since t key)
    {groups : List (Time × List Update)} (hgroups : (groups.map Prod.snd).flatten <+: out.flatten)
    (hclock : ClockFrom T groups)
    (hroom : f.walSeq + (groups.map fun g => g.2.length).sum ≤ maxIKeySeq) (dedup : Bool) :
    Tracks (leaderView s.committed) dedup r.since f groups ↔
      Shippable (leaderView s.committed) dedup r.since groups := by
  have hinv := inv_of_run hrun (.start hstart sync retain num hearlier hasc)
  have hdelivered := ((hinv.replies r hr).2.2 out hout).1
  rw [hdelivered] at hgroups
  exact tracks_iff_shippable hlogged hinv.ascending_committed rfl hgroups hT hf hsame hclock hroom

def overwriteUntilTen : List Action :=
  let commit (e : WalEntry) : List Action :=
    [GroupCommit.Action.enqueue [e], .drain, .writeRecord, .flush, .fsync, .applyEntry, .publish,
      .applied, .observe false, .release, .next, .drain].map .commit
  commit ⟨0, .put, [107], [0], 0⟩ ++ commit ⟨0, .putTTL, [107], [1], 10⟩ ++
    [.updatesBegin 1, .updatesRead true]

def overwritten : List WalEntry := [⟨1, .put, [107], [0], 0⟩, ⟨2, .putTTL, [107], [1], 10⟩]

def untilTen : Update := ⟨2, .put, [107], [1], 10⟩

theorem overwritten_logged : ∀ e ∈ overwritten, Logged e := by
  intro e he
  simp only [overwritten, mem_cons, not_mem_nil, or_false] at he
  rcases he with rfl | rfl
  · exact ⟨⟨.put [107] [0] 0, ⟨by decide, by decide, by decide, by decide⟩, rfl⟩,
    by decide, by decide⟩
  · exact ⟨⟨.put [107] [1] 10, ⟨by decide, by decide, by decide, by decide⟩, rfl⟩,
    by decide, by decide⟩

theorem overwritten_ascending : Ascending overwritten := by
  simp [Ascending, overwritten]

def emptyDb : Quiescent where
  eng :=
    { cfg := ⟨4096, 10, 7, 0, 0, false⟩
      alloc := 1
      mem := newMemtable
      imm := none
      recoveryMems := []
      tables := []
      blobs := []
      lastCompactionDone := false }
  walSeq := 0
  readSeq := 0

theorem emptyDb_settled : emptyDb.Settled 1 where
  readable := ⟨by decide, by decide, by simp [emptyDb], by simp [emptyDb]⟩
  blobsPresent := by simp [Engine.BlobsPresent, emptyDb]
  resolvesBlobs := Or.inr (by simp [emptyDb])
  copies t _ := CopiesIdentical.agreeAt (by decide) t
  points := by decide
  rangeDels := by decide
  published := by decide

def follower : Quiescent := emptyDb.logging [.put [107] [0] 0]

theorem follower_accepted : ∀ op ∈ [BatchOp.put [107] [0] 0], op.Accepted := by
  intro op hop
  obtain rfl := mem_singleton.1 hop
  exact ⟨by decide, by decide, by decide, by decide⟩

theorem follower_settled : follower.Settled 1 :=
  Quiescent.logging_settled emptyDb_settled follower_accepted (by decide)

theorem follower_view (t : Time) (ht : 1 ≤ t) (key : Key) :
    follower.view t key = leaderView overwritten 1 t key := by
  rw [leaderView_eq overwritten_logged overwritten_ascending, follower,
    Quiescent.logging_view emptyDb_settled.toConsistent follower_accepted (by decide) ht]
  rfl

theorem shipped_log_converges_iff_inTime :
    ∃ s, Transition.exec State.step (State.start true true 0 1 []) overwriteUntilTen = some s ∧
      s.replies.map (·.result) = [.ok [[untilTen]]] ∧
      Tracks (leaderView s.committed) false 1 follower [(5, [untilTen])] := by
  have hclock : ClockFrom 1 [(5, [untilTen])] := ⟨by decide, trivial⟩
  refine ⟨_, rfl, rfl, ?_⟩
  refine (shipped_log_converges_iff (by decide) (by simp) List.Pairwise.nil
    (Transition.run_of_exec (fun _ _ => trivial) (show Transition.exec State.step
      (State.start true true 0 1 []) overwriteUntilTen = some _ from rfl))
    overwritten_logged (mem_singleton_self (⟨1, 2, .ok [[untilTen]]⟩ : Reply)) rfl (by decide)
    follower_settled follower_view (by simp) hclock (by decide) false).2 ?_
  exact ⟨by decide, by decide, by simp, trivial⟩

/-- At 20 the second put has expired. The follower refuses it and keeps showing the
value that the leader has replaced. -/
theorem expired_in_transit_refused :
    ∃ s, Transition.exec State.step (State.start true true 0 1 []) overwriteUntilTen = some s ∧
      s.replies.map (·.result) = [.ok [[untilTen]]] ∧
      (∀ t, 1 ≤ t → ∀ key, follower.view t key = leaderView s.committed 1 t key) ∧
      (follower.write false 20 [untilTen.op]).map (fun _ => ()) = .error .invalidTTL ∧
      follower.view 20 [107] = some ([0], 0) ∧ leaderView s.committed 2 20 [107] = none := by
  refine ⟨_, rfl, rfl, fun t ht key => follower_view t ht key, ?_, ?_, ?_⟩
  · decide +kernel
  · decide +kernel
  · change leaderView overwritten 2 20 [107] = none
    decide +kernel

end Replication

end LevisDB
