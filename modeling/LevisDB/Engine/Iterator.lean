import LevisDB.Engine.PointReads

/-!
# Range scans

A range iterator merges every memtable and every table whose bounds meet the
range, skips versions newer than its sequence, lets the first remaining version of
each user key decide it, and resolves that version against the range tombstones of
all its sources. Draining it yields what point reads find, in key order, and a
source that fails in front of the end bound is never taken for a clean end.
-/

namespace LevisDB

open List Option

/-- What `Next` makes of the version that decides a key: a value and deadline to
yield, or nothing when the key is absent. -/
def nextVersion (s : Engine) (rts : List RangeTombstone) (seq : Nat) (now : Time) (e : Entry) :
    Except Err (Option (Bytes × Time)) :=
  if e.kind = .delete then .ok none
  else if rangeDeleted rts e.user e.seq seq then .ok none
  else
    match e.kind with
    | .blobRef =>
      match decodeBlobPointer e.value with
      | .error err => .error (.wrapped "iterator" err)
      | .ok ptr =>
        if ptr.expiresAt ≠ 0 ∧ ptr.expiresAt ≤ now then .ok none
        else
          match resolveBlob s ptr with
          | .ok value => .ok (some (value, ptr.expiresAt))
          | .error .nilBlobPath => .error .nilBlobPath
          | .error err => .error (.wrapped "iterator" err)
    | .setTTL =>
      match decodeExpiringValue e.value with
      | .error err => .error (.wrapped "iterator" err)
      | .ok (value, expiresAt) =>
        if expiresAt ≤ now then .ok none else .ok (some (value, expiresAt))
    | _ => .ok (some (e.value, 0))

/-- Below the inclusive lower bound. -/
def BelowStart (start : Option Key) (user : Key) : Prop := ∃ k ∈ start, user < k

/-- At or above the exclusive upper bound. -/
def PastEnd (stop : Option Key) (user : Key) : Prop := ∃ k ∈ stop, k ≤ user

instance (start : Option Key) (user : Key) : Decidable (BelowStart start user) :=
  match start with
  | none => isFalse (by simp [BelowStart])
  | some k => decidable_of_iff (user < k) (by simp [BelowStart])

instance (stop : Option Key) (user : Key) : Decidable (PastEnd stop user) :=
  match stop with
  | none => isFalse (by simp [PastEnd])
  | some k => decidable_of_iff (k ≤ user) (by simp [PastEnd])

def InRange (start stop : Option Key) (user : Key) : Prop :=
  ¬ BelowStart start user ∧ ¬ PastEnd stop user

section Iterate

variable (s : Engine) (rts : List RangeTombstone) (seq : Nat) (now : Time) (start stop : Option Key)

/-- Calls `Next` until it reports the end: everything yielded, and the error the
iterator ends with. `lastKey` is the key decided last. -/
def iterate (mergeErr : Option Err) :
    Option Key → List Entry → List (Key × Bytes × Time) × Option Err
  | _, [] => ([], mergeErr)
  | lastKey, e :: es =>
    if BelowStart start e.user then iterate mergeErr lastKey es
    else if PastEnd stop e.user then ([], none)
    else if lastKey = some e.user then iterate mergeErr lastKey es
    else if seq < e.seq then iterate mergeErr lastKey es
    else
      match nextVersion s rts seq now e with
      | .error err => ([], some err)
      | .ok none => iterate mergeErr (some e.user) es
      | .ok (some (value, expiresAt)) =>
        let rest := iterate mergeErr (some e.user) es
        ((e.user, value, expiresAt) :: rest.1, rest.2)

def rangeTables : List TableMeta := s.tables.filter fun t => t.overlapsRange start stop

def rangeSources : List (KMerge.Source Entry Err) :=
  s.memtables.map (fun m => ⟨m.points, none⟩) ++
    (rangeTables s start stop).map (·.reader.newIterator)

/-- The range tombstones of every source; the last failure to read some of them. -/
def rangeTombstonesOf (rts : List RangeTombstone) (tables : List TableMeta) :
    List RangeTombstone × Option Err :=
  tables.foldl (fun acc t =>
    match t.reader.rangeTombstones with
    | .ok trts => (acc.1 ++ trts, acc.2)
    | .error err => (acc.1, some err)) (rts, none)

/-- Drains `newRangeIteratorAt`. -/
def scanRange : List (Key × Bytes × Time) × Option Err :=
  let gathered := rangeTombstonesOf (memRangeDels s.memtables) (rangeTables s start stop)
  match gathered.2 with
  | some err => ([], some err)
  | none =>
    let merged := KMerge.merge IKeyOrder (rangeSources s start stop)
    iterate s gathered.1 seq now start stop merged.2 none merged.1

end Iterate

section Loop

variable {s : Engine} {rts : List RangeTombstone} {seq : Nat} {now : Time} {start stop : Option Key}
  {mergeErr : Option Err} {lastKey : Option Key} {es : List Entry}
variable {d e : Entry} {value : Entry → Option (Bytes × Time)}

theorem newestVersion_cons_of_ne {key : Key} (h : e.user ≠ key) :
    newestVersion key seq (e :: es) = newestVersion key seq es :=
  List.find?_cons_of_neg (by simp [h])

theorem newestVersion_cons_of_newer {key : Key} (h : seq < e.seq) :
    newestVersion key seq (e :: es) = newestVersion key seq es :=
  List.find?_cons_of_neg (by simp [Nat.not_le.2 h])

theorem newestVersion_eq_none_of_lt {key : Key} (h : ∀ e ∈ es, key < e.user) :
    newestVersion key seq es = none :=
  newestVersion_eq_none fun e he huser => absurd huser.symm (ne_of_lt (h e he))

/-- One key is still to be decided, by its newest visible version. -/
def Undecided (seq : Nat) (start stop : Option Key) (lastKey : Option Key) (es : List Entry)
    (key : Key) (e : Entry) : Prop :=
  InRange start stop key ∧ lastKey ≠ some key ∧ newestVersion key seq es = some e

theorem undecided_skip {key : Key}
    (hskip : BelowStart start e.user ∨ lastKey = some e.user ∨ seq < e.seq) :
    Undecided seq start stop lastKey (e :: es) key d ↔
      Undecided seq start stop lastKey es key d := by
  unfold Undecided
  refine and_congr_right fun hrange => and_congr_right fun hlast => ?_
  rcases hskip with hbelow | hdone | hnewer
  · rw [newestVersion_cons_of_ne (by rintro rfl; exact hrange.1 hbelow)]
  · rw [newestVersion_cons_of_ne (by rintro rfl; exact hlast hdone)]
  · rw [newestVersion_cons_of_newer hnewer]

section

variable (hsorted : (e :: es).Pairwise IKeyOrder)
include hsorted

theorem not_undecided_of_pastEnd {key : Key}
    (hpast : PastEnd stop e.user) :
    ¬ Undecided seq start stop lastKey (e :: es) key d := by
  rintro ⟨hrange, _, hnew⟩
  obtain ⟨k, hk, hle⟩ := hpast
  have hlt : key < k := lt_of_not_ge fun h => hrange.2 ⟨k, hk, h⟩
  have hall : ∀ x ∈ e :: es, key < x.user := by
    intro x hx
    rcases mem_cons.1 hx with rfl | hx
    · exact lt_of_lt_of_le hlt hle
    · exact lt_of_lt_of_le hlt (le_trans hle ((pairwise_cons.1 hsorted).1 x hx).user_le)
  rw [newestVersion_eq_none_of_lt hall] at hnew
  cases hnew

theorem undecided_cons {key : Key}
    (hafter : ∀ k ∈ lastKey, ∀ x ∈ e :: es, k ≤ x.user)
    (hbelow : ¬ BelowStart start e.user) (hpast : ¬ PastEnd stop e.user)
    (hlast : lastKey ≠ some e.user) (hseq : e.seq ≤ seq) :
    Undecided seq start stop lastKey (e :: es) key d ↔
      (key = e.user ∧ d = e) ∨ Undecided seq start stop (some e.user) es key d := by
  have hfirst : newestVersion e.user seq (e :: es) = some e :=
    List.find?_cons_of_pos (by simp [hseq])
  unfold Undecided
  by_cases hkey : key = e.user
  · subst hkey
    simp [InRange, hbelow, hpast, hlast, hfirst, eq_comm]
  · rw [newestVersion_cons_of_ne (Ne.symm hkey)]
    constructor
    · rintro ⟨hrange, _, hnew⟩
      exact Or.inr ⟨hrange, by simpa using Ne.symm hkey, hnew⟩
    · rintro (⟨h, _⟩ | ⟨hrange, _, hnew⟩)
      · exact absurd h hkey
      · refine ⟨hrange, ?_, hnew⟩
        -- A key decided before `e` is smaller than everything behind it.
        intro hdone
        have hle := hafter key hdone e (by simp)
        have hall : ∀ x ∈ es, key < x.user := fun x hx =>
          lt_of_lt_of_le (lt_of_le_of_ne hle hkey)
            ((pairwise_cons.1 hsorted).1 x hx).user_le
        rw [newestVersion_eq_none_of_lt hall] at hnew
        cases hnew

theorem after_cons :
    ∀ k ∈ some e.user, ∀ x ∈ es, k ≤ x.user := by
  intro k hk x hx
  cases hk
  exact ((pairwise_cons.1 hsorted).1 x hx).user_le

end

/-- The loop ended cleanly behind `lastKey`: it yielded in ascending order exactly
the undecided keys whose version has a value. -/
structure Yields (undecided : Key → Entry → Prop) (value : Entry → Option (Bytes × Time))
    (lastKey : Option Key) (out : List (Key × Bytes × Time) × Option Err) : Prop where
  clean : out.2 = none
  ascending : out.1.Pairwise fun a b => a.1 < b.1
  after : ∀ y ∈ out.1, ∀ k ∈ lastKey, k < y.1
  mem : ∀ key v x, (key, v, x) ∈ out.1 ↔ ∃ e, undecided key e ∧ value e = some (v, x)

theorem Yields.congr {U U' : Key → Entry → Prop}
    {out : List (Key × Bytes × Time) × Option Err} (h : Yields U value lastKey out)
    (hU : ∀ key e, U' key e ↔ U key e) : Yields U' value lastKey out :=
  ⟨h.clean, h.ascending, h.after, fun key v x => by simp only [h.mem, hU]⟩

theorem yielded_key {user : Key} {r : Option (Bytes × Time)} {y : Key × Bytes × Time}
    (hy : y ∈ (r.map fun r => (user, r.1, r.2)).toList) : y.1 = user := by
  cases r with
  | none => cases hy
  | some r =>
    rw [mem_singleton.1 hy]

theorem Yields.cons {U U' : Key → Entry → Prop}
    {out : List (Key × Bytes × Time) × Option Err} (h : Yields U value (some e.user) out)
    (hle : ∀ k ∈ lastKey, k < e.user)
    (hU : ∀ key d, U' key d ↔ (key = e.user ∧ d = e) ∨ U key d) :
    Yields U' value lastKey
      (((value e).map fun r => (e.user, r.1, r.2)).toList ++ out.1, out.2) where
  clean := h.clean
  ascending := by
    refine pairwise_append.2 ⟨?_, h.ascending, ?_⟩
    · cases value e <;> simp
    · intro y hy z hz
      rw [yielded_key hy]
      exact h.after z hz _ rfl
  after := by
    intro y hy k hk
    rcases mem_append.1 hy with hy | hy
    · rw [yielded_key hy]
      exact hle k hk
    · exact lt_trans (hle k hk) (h.after y hy _ rfl)
  mem := by
    intro key v x
    rw [mem_append, h.mem]
    have hself : (key, v, x) ∈ ((value e).map fun r => (e.user, r.1, r.2)).toList ↔
        key = e.user ∧ value e = some (v, x) := by
      cases value e with
      | none => simp
      | some r =>
        obtain ⟨v₀, x₀⟩ := r
        simp only [map_some, toList_some, mem_singleton, Prod.mk.injEq,
          Option.some.injEq]
        tauto
    rw [hself]
    constructor
    · rintro (⟨hkey, hv⟩ | ⟨d, hd, hv⟩)
      · exact ⟨e, (hU key e).2 (Or.inl ⟨hkey, rfl⟩), hv⟩
      · exact ⟨d, (hU key d).2 (Or.inr hd), hv⟩
    · rintro ⟨d, hd, hv⟩
      rcases (hU key d).1 hd with ⟨hkey, rfl⟩ | hd
      · exact Or.inl ⟨hkey, hv⟩
      · exact Or.inr ⟨d, hd, hv⟩

theorem iterate_yields (hsorted : es.Pairwise IKeyOrder)
    (hafter : ∀ k ∈ lastKey, ∀ e ∈ es, k ≤ e.user)
    (hvalue : ∀ key e, Undecided seq start stop lastKey es key e →
      nextVersion s rts seq now e = .ok (value e)) :
    Yields (Undecided seq start stop lastKey es) value lastKey
      (iterate s rts seq now start stop none lastKey es) := by
  induction es generalizing lastKey with
  | nil =>
    exact ⟨rfl, List.Pairwise.nil, by simp [iterate],
      by simp [iterate, Undecided, newestVersion]⟩
  | cons e es ih =>
    have htail := (pairwise_cons.1 hsorted).2
    have hskip : (BelowStart start e.user ∨ lastKey = some e.user ∨ seq < e.seq) →
        Yields (Undecided seq start stop lastKey (e :: es)) value lastKey
          (iterate s rts seq now start stop none lastKey es) := by
      intro h
      exact (ih htail (fun k hk x hx => hafter k hk x (by simp [hx]))
        (fun key d hd => hvalue key d ((undecided_skip h).2 hd))).congr
        fun key d => undecided_skip h
    unfold iterate
    split_ifs with hbelow hpast hlast hseq
    · exact hskip (Or.inl hbelow)
    · exact ⟨rfl, List.Pairwise.nil, by simp,
        by simp [not_undecided_of_pastEnd hsorted hpast]⟩
    · exact hskip (Or.inr (Or.inl hlast))
    · exact hskip (Or.inr (Or.inr hseq))
    · have hcons : ∀ key d, Undecided seq start stop lastKey (e :: es) key d ↔
          (key = e.user ∧ d = e) ∨ Undecided seq start stop (some e.user) es key d :=
        fun _ _ => undecided_cons hsorted hafter hbelow hpast hlast (Nat.not_lt.1 hseq)
      have hval := hvalue e.user e ((hcons e.user e).2 (Or.inl ⟨rfl, rfl⟩))
      have hle : ∀ k ∈ lastKey, k < e.user := fun k hk =>
        lt_of_le_of_ne (hafter k hk e (by simp)) (by rintro rfl; exact hlast hk)
      have hrest := (ih htail (after_cons hsorted)
        (fun key d hd => hvalue key d ((hcons key d).2 (Or.inr hd)))).cons hle hcons
      rw [hval]
      cases hv : value e with
      | none => simpa [hv] using hrest
      | some r => simpa [hv] using hrest

theorem iterate_err_of_undecided (hsorted : es.Pairwise IKeyOrder)
    (hafter : ∀ k ∈ lastKey, ∀ e ∈ es, k ≤ e.user) {key : Key}
    (hd : Undecided seq start stop lastKey es key d) {err : Err}
    (herr : nextVersion s rts seq now d = .error err) :
    (iterate s rts seq now start stop mergeErr lastKey es).2 ≠ none := by
  induction es generalizing lastKey with
  | nil => simp [Undecided, newestVersion] at hd
  | cons e es ih =>
    have hafter' : ∀ k ∈ lastKey, ∀ x ∈ es, k ≤ x.user :=
      fun k hk x hx => hafter k hk x (by simp [hx])
    have htail := (pairwise_cons.1 hsorted).2
    unfold iterate
    split_ifs with hbelow hpast hlast hseq
    · exact ih htail hafter' ((undecided_skip (Or.inl hbelow)).1 hd)
    · exact absurd hd (not_undecided_of_pastEnd hsorted hpast)
    · exact ih htail hafter' ((undecided_skip (Or.inr (Or.inl hlast))).1 hd)
    · exact ih htail hafter' ((undecided_skip (Or.inr (Or.inr hseq))).1 hd)
    · cases hval : nextVersion s rts seq now e with
      | error _ => simp
      | ok r =>
        have hrest : Undecided seq start stop (some e.user) es key d := by
          rcases (undecided_cons hsorted hafter hbelow hpast hlast (Nat.not_lt.1 hseq)).1 hd with
            ⟨_, rfl⟩ | hd
          · rw [herr] at hval
            cases hval
          · exact hd
        have hgoal := ih htail (after_cons hsorted) hrest
        cases r with
        | none => exact hgoal
        | some vx => exact hgoal

theorem iterate_err_of_mergeErr (hmerge : mergeErr ≠ none) (hes : ∀ e ∈ es, ¬ PastEnd stop e.user) :
    (iterate s rts seq now start stop mergeErr lastKey es).2 ≠ none := by
  induction es generalizing lastKey with
  | nil => exact hmerge
  | cons e es ih =>
    have hrest : ∀ last, (iterate s rts seq now start stop mergeErr last es).2 ≠ none :=
      fun last => ih fun x hx => hes x (by simp [hx])
    unfold iterate
    split_ifs with hbelow hpast hlast hseq
    · exact hrest _
    · exact absurd hpast (hes e (by simp))
    · exact hrest _
    · exact hrest _
    · cases nextVersion s rts seq now e with
      | error _ => simp
      | ok r =>
        cases r with
        | none => exact hrest _
        | some vx => exact hrest _

end Loop

section Sources

variable {s : Engine} {seq : Nat} {now : Time} {start stop : Option Key} {key : Key}

theorem overlapsRange_of_mayContain {t : TableMeta} (ht : t.mayContain key = true)
    (hrange : InRange start stop key) : t.overlapsRange start stop = true := by
  obtain ⟨hmin, hmax⟩ := boundsContain_iff.1 ht
  obtain ⟨hbelow, hpast⟩ := hrange
  unfold TableMeta.overlapsRange
  rw [Bool.and_eq_true]
  constructor
  · cases stop with
    | none => rfl
    | some e =>
      have hlt : key < e := lt_of_not_ge fun h => hpast ⟨e, rfl, h⟩
      cases hk : t.minKey with
      | none => rfl
      | some k => exact decide_eq_true (le_of_lt (lt_of_le_of_lt (hmin k hk) hlt))
  · cases start with
    | none => rfl
    | some b =>
      have hle : b ≤ key := le_of_not_gt fun h => hbelow ⟨b, rfl, h⟩
      cases hk : t.maxKey with
      | none => rfl
      | some k => exact decide_eq_true (le_trans hle (hmax k hk))

theorem rangeTombstonesOf_of_healthy {tables : List TableMeta}
    (h : ∀ t ∈ tables, t.reader.fault = none) (rts : List RangeTombstone) :
    rangeTombstonesOf rts tables = (rts ++ tableRangeDels tables, none) := by
  unfold rangeTombstonesOf
  induction tables generalizing rts with
  | nil => simp [tableRangeDels]
  | cons t tables ih =>
    rw [foldl_cons, TableReader.rangeTombstones_eq (h t (by simp))]
    dsimp only
    rw [ih (fun u hu => h u (by simp [hu]))]
    simp [tableRangeDels, TableMeta.rangeDels]

theorem rangeTombstonesOf_err {tables : List TableMeta} {rts : List RangeTombstone}
    {t : TableMeta} (ht : t ∈ tables) {err : Err} (herr : t.reader.rangeTombstones = .error err) :
    (rangeTombstonesOf rts tables).2 ≠ none := by
  have hkeep : ∀ (tables : List TableMeta) (acc : List RangeTombstone × Option Err),
      acc.2 ≠ none → (tables.foldl (fun acc t =>
        match t.reader.rangeTombstones with
        | .ok trts => (acc.1 ++ trts, acc.2)
        | .error err => (acc.1, some err)) acc).2 ≠ none := by
    intro tables
    induction tables with
    | nil => exact fun acc h => h
    | cons u tables ih =>
      intro acc h
      rw [foldl_cons]
      refine ih _ ?_
      cases u.reader.rangeTombstones with
      | ok _ => exact h
      | error _ => simp
  obtain ⟨before, after, rfl⟩ := append_of_mem ht
  unfold rangeTombstonesOf
  rw [foldl_append, foldl_cons, herr]
  exact hkeep after _ (by simp)

theorem rangeSources_sorted (s : Engine) (start stop : Option Key) :
    ∀ src ∈ rangeSources s start stop, src.items.Pairwise IKeyOrder := by
  intro src hsrc
  rcases mem_append.1 hsrc with h | h
  · obtain ⟨m, _, rfl⟩ := mem_map.1 h
    exact m.sorted
  · obtain ⟨t, _, rfl⟩ := mem_map.1 h
    exact t.reader.newIterator_sorted

theorem merge_rangeSources (hhealthy : ∀ t ∈ s.tables, t.reader.fault = none)
    (start stop : Option Key) :
    (KMerge.merge IKeyOrder (rangeSources s start stop)).2 = none ∧
      (KMerge.merge IKeyOrder (rangeSources s start stop)).1.Pairwise IKeyOrder ∧
      (KMerge.merge IKeyOrder (rangeSources s start stop)).1.Perm
        (memPoints s.memtables ++ tablePoints (rangeTables s start stop)) := by
  have hnone : ∀ t ∈ rangeTables s start stop, t.reader.newIterator.err = none := by
    intro t ht
    simp [TableReader.newIterator, hhealthy t (mem_filter.1 ht).1]
  have herr : (KMerge.merge IKeyOrder (rangeSources s start stop)).2 = none := by
    by_contra hne
    obtain ⟨src, hsrc, hfail⟩ := (KMerge.merge_err_iff _).1 hne
    rcases mem_append.1 hsrc with h | h
    · obtain ⟨m, _, rfl⟩ := mem_map.1 h
      exact hfail rfl
    · obtain ⟨t, ht, rfl⟩ := mem_map.1 h
      exact hfail (hnone t ht)
  obtain ⟨hsorted, _, hperm⟩ := KMerge.merge_spec (rangeSources_sorted s start stop)
  refine ⟨herr, hsorted, (hperm herr).trans (List.Perm.of_eq ?_)⟩
  unfold rangeSources memPoints tablePoints
  rw [flatMap_append, flatMap_map, flatMap_map]
  congr 1
  exact flatMap_congr fun t ht => TableReader.newIterator_items (hnone t ht)

theorem mem_opened_iff (hbounded : ∀ t ∈ s.tables, t.Bounded) {e : Entry}
    (hrange : InRange start stop e.user) :
    e ∈ memPoints s.memtables ++ tablePoints (rangeTables s start stop) ↔ e ∈ s.entries := by
  unfold Engine.entries
  rw [mem_append, mem_append]
  refine or_congr_right ?_
  rw [mem_tablePoints, mem_tablePoints]
  constructor
  · rintro ⟨t, ht, he⟩
    exact ⟨t, (mem_filter.1 ht).1, he⟩
  · rintro ⟨t, ht, he⟩
    refine ⟨t, mem_filter.2 ⟨ht, ?_⟩, he⟩
    exact overlapsRange_of_mayContain ((hbounded t ht).points e he) hrange

theorem rangeDeleted_opened (hbounded : ∀ t ∈ s.tables, t.Bounded)
    (hrange : InRange start stop key) (version : Nat) :
    rangeDeleted (memRangeDels s.memtables ++ tableRangeDels (rangeTables s start stop)) key
      version seq = rangeDeleted s.rangeDels key version seq := by
  rw [Bool.eq_iff_iff, rangeDeleted_iff, rangeDeleted_iff]
  unfold Engine.rangeDels
  constructor
  · rintro ⟨rt, hrt, hcov⟩
    refine ⟨rt, ?_, hcov⟩
    rcases mem_append.1 hrt with h | h
    · exact mem_append_left _ h
    · obtain ⟨t, ht, hmem⟩ := mem_tableRangeDels.1 h
      exact mem_append_right _ (mem_tableRangeDels.2 ⟨t, (mem_filter.1 ht).1, hmem⟩)
  · rintro ⟨rt, hrt, hcov⟩
    refine ⟨rt, ?_, hcov⟩
    rcases mem_append.1 hrt with h | h
    · exact mem_append_left _ h
    · obtain ⟨t, ht, hmem⟩ := mem_tableRangeDels.1 h
      have hov := overlapsRange_of_mayContain ((hbounded t ht).rangeDels rt hmem key hcov.1) hrange
      exact mem_append_right _ (mem_tableRangeDels.2 ⟨t, mem_filter.2 ⟨ht, hov⟩, hmem⟩)

def versionValue (s : Engine) (seq : Nat) (now : Time) (e : Entry) : Option (Bytes × Time) :=
  if rangeDeleted s.rangeDels e.user e.seq seq then none else e.payload.bytesAt s.blobs now

theorem reference_eq_versionValue (hcopies : CopiesAgreeAt now s.entries) {best : Option Entry}
    (hbest : IsNewestIn key seq s.entries best) :
    s.reference seq now key = best.bind (versionValue s seq now) := by
  unfold Engine.reference Engine.view
  rw [visibleAt_eq hcopies hbest]
  cases best with
  | none => rfl
  | some e =>
    obtain rfl : e.user = key := hbest.2.1
    simp only [bind_some, versionValue, Payload.bytesAt]
    split_ifs <;> rfl

theorem nextVersion_eq {rts : List RangeTombstone} {e : Entry} (hdec : e.payload.Decodes)
    (hrts : rangeDeleted rts e.user e.seq seq = rangeDeleted s.rangeDels e.user e.seq seq)
    (hblob : ∀ ptr, e.kind = .blobRef → decodeBlobPointer e.value = .ok ptr →
      s.cfg.blobPath = true ∧ ∃ value, blobBytes s.blobs ptr = some value) :
    nextVersion s rts seq now e = .ok (versionValue s seq now e) := by
  unfold nextVersion versionValue
  rw [hrts]
  by_cases hdel : rangeDeleted s.rangeDels e.user e.seq seq = true
  · rw [if_pos hdel, if_pos hdel]
    split_ifs <;> rfl
  rw [if_neg hdel, if_neg hdel]
  cases hk : e.kind with
  | delete => simp [Payload.bytesAt, Payload.liveAt, Entry.payload, hk]
  | set => simp [Payload.bytesAt, Payload.liveAt, Entry.payload, hk, liveReference]
  | setTTL =>
    obtain ⟨⟨value, expiresAt⟩, hr⟩ : ∃ r, decodeExpiringValue e.value = .ok r := by
      simpa [Payload.Decodes, Entry.payload, hk] using hdec
    simp only [Payload.bytesAt, Payload.liveAt, Entry.payload, hk, hr, reduceCtorEq, if_false]
    split_ifs <;> rfl
  | blobRef =>
    obtain ⟨ptr, hptr, _⟩ : ∃ ptr, decodeBlobPointer e.value = .ok ptr ∧ 0 ≤ ptr.expiresAt := by
      simpa [Payload.Decodes, Entry.payload, hk] using hdec
    obtain ⟨hpath, value, hvalue⟩ := hblob ptr hk hptr
    simp only [Payload.bytesAt, Payload.liveAt, Entry.payload, hk, hptr, resolveBlob, hpath,
      hvalue, reduceCtorEq, if_false]
    split_ifs
    · rfl
    · simp [liveReference, hvalue]

/-- Every memtable entry decodes under its kind. -/
def Engine.MemDecodes (s : Engine) : Prop := ∀ m ∈ s.memtables, ∀ e ∈ m.points, e.payload.Decodes

/-- A drained scan ends without an error and yields, in ascending order, exactly
the keys of the range that point reads find live, with their value and deadline. -/
def Engine.ScanAgrees (s : Engine) (seq : Nat) (now : Time) (start stop : Option Key) : Prop :=
  (scanRange s seq now start stop).2 = none ∧
    (scanRange s seq now start stop).1.Pairwise (fun a b => a.1 < b.1) ∧
    ∀ key v x, (key, v, x) ∈ (scanRange s seq now start stop).1 ↔
      InRange start stop key ∧ getAtTime s seq key now = .ok (v, ⟨true, false⟩) ∧
        getWithExpiry s seq key now = .ok (some (v, x))

section

variable (hr : s.Readable)
include hr

theorem Engine.Readable.decodes_entries (hmem : s.MemDecodes) {e : Entry}
    (he : e ∈ s.entries) : e.payload.Decodes := by
  rcases mem_append.1 he with he | he
  · obtain ⟨m, hm, hem⟩ := mem_memPoints.1 he
    exact hmem m hm e hem
  · obtain ⟨t, ht, het⟩ := mem_tablePoints.1 he
    exact hr.decodes t ht e het

theorem Engine.Readable.blob_entries (hblobs : s.BlobsPresent)
    (hres : s.ResolvesBlobs) {e : Entry} (he : e ∈ s.entries) (ptr : BlobPointer)
    (hkind : e.kind = .blobRef) (hdec : decodeBlobPointer e.value = .ok ptr) :
    s.cfg.blobPath = true ∧ ∃ value, blobBytes s.blobs ptr = some value := by
  rcases mem_append.1 he with he | he
  · obtain ⟨m, hm, hem⟩ := mem_memPoints.1 he
    exact absurd hkind (hr.memKinds m hm e hem)
  · obtain ⟨t, ht, het⟩ := mem_tablePoints.1 he
    refine ⟨?_, hblobs t ht e het ptr hkind hdec⟩
    rcases hres with hpath | hnone
    · exact hpath
    · exact absurd hkind (hnone t ht e het)

theorem isNewestIn_of_undecided {e : Entry}
    (h : Undecided seq start stop none (KMerge.merge IKeyOrder (rangeSources s start stop)).1 key e)
    :
    InRange start stop key ∧ IsNewestIn key seq s.entries (some e) := by
  obtain ⟨hrange, _, hnew⟩ := h
  obtain ⟨_, hsorted, hperm⟩ := merge_rangeSources hr.healthy start stop
  refine ⟨hrange, ?_⟩
  have hbest := newestVersion_isNewestIn hsorted key seq
  rw [hnew] at hbest
  refine hbest.congr fun x hx => ?_
  rw [hperm.mem_iff, mem_opened_iff hr.bounded (hx ▸ hrange)]

theorem scanRange_eq :
    scanRange s seq now start stop =
      iterate s (memRangeDels s.memtables ++ tableRangeDels (rangeTables s start stop)) seq now
        start stop none none (KMerge.merge IKeyOrder (rangeSources s start stop)).1 := by
  have hopened : ∀ t ∈ rangeTables s start stop, t.reader.fault = none :=
    fun t ht => hr.healthy t (mem_filter.1 ht).1
  unfold scanRange
  simp only [rangeTombstonesOf_of_healthy hopened, (merge_rangeSources hr.healthy start stop).1]

theorem scanAgrees_of_resolvesBlobs (hmem : s.MemDecodes)
    (hcopies : CopiesAgreeAt now s.entries) (hblobs : s.BlobsPresent) (hres : s.ResolvesBlobs)
    (seq : Nat) (start stop : Option Key) : s.ScanAgrees seq now start stop := by
  obtain ⟨_, hsorted, hperm⟩ := merge_rangeSources hr.healthy start stop
  have hdecide : ∀ key e, Undecided seq start stop none
      (KMerge.merge IKeyOrder (rangeSources s start stop)).1 key e →
      nextVersion s (memRangeDels s.memtables ++ tableRangeDels (rangeTables s start stop)) seq
        now e = .ok (versionValue s seq now e) := by
    intro key e hund
    obtain ⟨hrange, hnew⟩ := isNewestIn_of_undecided hr hund
    obtain rfl := hnew.2.1
    exact nextVersion_eq (hr.decodes_entries hmem hnew.1)
      (rangeDeleted_opened hr.bounded hrange e.seq) (hr.blob_entries hblobs hres hnew.1)
  have hyields := iterate_yields hsorted (by simp) hdecide
  unfold Engine.ScanAgrees
  rw [scanRange_eq hr]
  refine ⟨hyields.clean, hyields.ascending, fun key v x => ?_⟩
  rw [hyields.mem]
  obtain ⟨hget, _, p, hp, _, hat⟩ := readsAgree_of_resolvesBlobs hr hcopies hblobs hres seq key
  have hreads : getAtTime s seq key now = .ok (v, ⟨true, false⟩) ∧
      getWithExpiry s seq key now = .ok (some (v, x)) ↔ s.reference seq now key = some (v, x) := by
    rw [hget, hat]
    constructor
    · rintro ⟨_, h⟩
      exact Except.ok.inj h
    · intro h
      rw [h] at hp ⊢
      obtain ⟨found, deleted⟩ := p
      cases found <;> cases deleted <;> first | exact ⟨rfl, rfl⟩ | cases hp
  rw [hreads]
  constructor
  · rintro ⟨e, hund, hv⟩
    obtain ⟨hrange, hnew⟩ := isNewestIn_of_undecided hr hund
    exact ⟨hrange, by rw [reference_eq_versionValue hcopies hnew, bind_some, hv]⟩
  · rintro ⟨hrange, href⟩
    have hbest := newestVersion_isNewestIn hsorted key seq
    have hbest' : IsNewestIn key seq s.entries _ := hbest.congr fun e he => by
      rw [hperm.mem_iff, mem_opened_iff hr.bounded (he ▸ hrange)]
    rw [reference_eq_versionValue hcopies hbest'] at href
    obtain ⟨e, he, hv⟩ := bind_eq_some_iff.1 href
    exact ⟨e, ⟨hrange, by simp, he⟩, hv⟩

end

end Sources

section Main

variable {s : Engine}

theorem scanRange_err_of_blobRef (hr : s.Readable) (hcopies : CopiesIdentical s.entries)
    (hpath : s.cfg.blobPath = false) {t : TableMeta} (ht : t ∈ s.tables) {e : Entry}
    (he : e ∈ t.points) (hkind : e.kind = .blobRef) : (scanRange s e.seq 0 none none).2 ≠ none := by
  obtain ⟨_, hsorted, hperm⟩ := merge_rangeSources hr.healthy none none
  obtain ⟨ptr, hdec, hexp⟩ : ∃ ptr, decodeBlobPointer e.value = .ok ptr ∧ 0 ≤ ptr.expiresAt := by
    simpa [Payload.Decodes, Entry.payload, hkind] using hr.decodes t ht e he
  have hrange : ∀ k, InRange none none k := by simp [InRange, BelowStart, PastEnd]
  have hmerged : ∀ x, x ∈ (KMerge.merge IKeyOrder (rangeSources s none none)).1 ↔
      x ∈ s.entries := fun x => by
    rw [hperm.mem_iff, mem_opened_iff hr.bounded (hrange x.user)]
  have hstored : e ∈ s.entries := tablePoints_subset ht he
  have hbest := newestVersion_isNewestIn hsorted e.user e.seq
  have hnew : newestVersion e.user e.seq
      (KMerge.merge IKeyOrder (rangeSources s none none)).1 = some e := by
    cases hfound : newestVersion e.user e.seq
        (KMerge.merge IKeyOrder (rangeSources s none none)).1 with
    | none =>
      rw [hfound] at hbest
      exact absurd (Nat.le_refl _) (hbest e ((hmerged e).2 hstored) rfl)
    | some b =>
      rw [hfound] at hbest
      obtain ⟨hmem, huser, hle, hmax⟩ := hbest
      have hge := hmax e ((hmerged e).2 hstored) rfl (Nat.le_refl _)
      rw [hcopies b ((hmerged b).1 hmem) e hstored huser (Nat.le_antisymm hle hge)]
  have hfail : nextVersion s
      (memRangeDels s.memtables ++ tableRangeDels (rangeTables s none none)) e.seq 0 e =
        .error .nilBlobPath := by
    have hlive : ¬ (ptr.expiresAt ≠ 0 ∧ ptr.expiresAt ≤ 0) := by
      rintro ⟨hne, hle⟩
      exact hne (le_antisymm hle hexp)
    have hnodel : rangeDeleted
        (memRangeDels s.memtables ++ tableRangeDels (rangeTables s none none)) e.user e.seq e.seq =
          false := by
      rw [Bool.eq_false_iff, ne_eq, rangeDeleted_iff]
      rintro ⟨rt, _, _, hlt, hle⟩
      omega
    unfold nextVersion
    simp [hkind, hnodel, hdec, hlive, resolveBlob, hpath]
  rw [scanRange_eq hr]
  exact iterate_err_of_undecided hsorted (by simp) ⟨hrange _, by simp, hnew⟩ hfail

theorem scanRange_reports_failure {seq : Nat} {now : Time} {start stop : Option Key} {t : TableMeta}
    (ht : t ∈ s.tables) (hov : t.overlapsRange start stop = true)
    (h : (∃ e ∈ t.points, e ∉ t.reader.newIterator.items ∧ ¬ PastEnd stop e.user) ∨
      ∃ err, t.reader.rangeTombstones = .error err) :
    (scanRange s seq now start stop).2 ≠ none := by
  have hopen : t ∈ rangeTables s start stop := mem_filter.2 ⟨ht, hov⟩
  unfold scanRange
  dsimp only
  cases hrt : (rangeTombstonesOf (memRangeDels s.memtables) (rangeTables s start stop)).2 with
  | some err => simp
  | none =>
    rcases h with ⟨e, he, hhidden, hpast⟩ | ⟨err, herr⟩
    · have hfail : t.reader.newIterator.err ≠ none := by
        intro hok
        rw [TableReader.newIterator_items hok] at hhidden
        exact hhidden he
      have hsrc : t.reader.newIterator ∈ rangeSources s start stop :=
        mem_append_right _ (mem_map.2 ⟨t, hopen, rfl⟩)
      refine iterate_err_of_mergeErr ((KMerge.merge_err_iff _).2 ⟨_, hsrc, hfail⟩) ?_
      -- Everything emitted lies before an entry that is still readable, so before `e`.
      intro x hx hend
      obtain ⟨b, hb, hxb⟩ :=
        KMerge.merge_le_failing (rangeSources_sorted s start stop) hsrc hfail x hx
      have hbe := t.reader.newIterator_items_before hb he hhidden
      obtain ⟨k, hk, hle⟩ := hend
      exact hpast ⟨k, hk, le_trans hle (le_trans hxb.user_le hbe)⟩
    · exact absurd hrt (rangeTombstonesOf_err hopen herr)

/-- Scans agree with point reads at every sequence, time and range exactly when
the session has a path for blob files or no live table holds a pointer; and a
source that fails in front of the end bound is always reported. -/
theorem scans_agree_iff_resolvesBlobs :
    (s.Readable → s.MemDecodes → CopiesIdentical s.entries → s.BlobsPresent →
      ((∀ seq now start stop, s.ScanAgrees seq now start stop) ↔ s.ResolvesBlobs)) ∧
    ∀ seq now start stop, ∀ t ∈ s.tables, t.overlapsRange start stop = true →
      ((∃ e ∈ t.points, e ∉ t.reader.newIterator.items ∧ ¬ PastEnd stop e.user) ∨
        ∃ err, t.reader.rangeTombstones = .error err) →
      (scanRange s seq now start stop).2 ≠ none := by
  refine ⟨fun hr hmem hcopies hblobs => ⟨fun hall => ?_, fun hres seq now start stop => ?_⟩,
    fun seq now start stop t ht hov h => scanRange_reports_failure ht hov h⟩
  · by_contra hres
    unfold Engine.ResolvesBlobs at hres
    push Not at hres
    obtain ⟨hpath, t, ht, e, he, hkind⟩ := hres
    exact scanRange_err_of_blobRef hr hcopies (by simpa using hpath) ht he hkind
      (hall e.seq 0 none none).1
  · exact scanAgrees_of_resolvesBlobs hr hmem (hcopies.agreeAt now) hblobs hres seq start stop

end Main

def mixedStore (blobPath : Bool) : Engine where
  cfg := ⟨4096, 10, 7, 0, 0, blobPath⟩
  alloc := 2
  mem := newMemtable
  imm := none
  recoveryMems := []
  tables := [finishTable ⟨fun _ _ => 0, fun _ => 0⟩ 10 1 0
    ⟨[⟨⟨[107], 1, .blobRef⟩, encodeBlobPointer ⟨2, 0, 3, 0⟩⟩, ⟨⟨[122], 2, .set⟩, [119]⟩],
      by decide⟩ []]
  blobs := [(2, [118, 97, 108])]
  lastCompactionDone := false

theorem mixedStore_readable (blobPath : Bool) : (mixedStore blobPath).Readable where
  memKinds := by
    intro m hm e he
    obtain rfl : m = newMemtable := by simpa [Engine.memtables, mixedStore] using hm
    simp [newMemtable] at he
  healthy := by
    intro t ht
    obtain rfl := mem_singleton.1 ht
    rfl
  decodes := by
    intro t ht e he
    obtain rfl := mem_singleton.1 ht
    rcases mem_pair.1 he with rfl | rfl
    · exact ⟨⟨2, 0, 3, 0⟩, decodeBlobPointer_encode _, le_refl _⟩
    · trivial
  bounded := by
    intro t ht
    obtain rfl := mem_singleton.1 ht
    exact finishTable_bounded _ _ _ _ _ _

theorem mixedStore_memDecodes (blobPath : Bool) : (mixedStore blobPath).MemDecodes := by
  intro m hm e he
  obtain rfl : m = newMemtable := by simpa [Engine.memtables, mixedStore] using hm
  simp [newMemtable] at he

theorem mixedStore_copies (blobPath : Bool) : CopiesIdentical (mixedStore blobPath).entries := by
  cases blobPath <;> decide

theorem mixedStore_blobsPresent (blobPath : Bool) : (mixedStore blobPath).BlobsPresent := by
  intro t ht e he ptr hkind hdec
  obtain rfl := mem_singleton.1 ht
  rcases mem_pair.1 he with rfl | rfl
  · rw [decodeBlobPointer_encode] at hdec
    cases hdec
    exact ⟨[118, 97, 108], rfl⟩
  · cases hkind

theorem scans_agree_iff_resolvesBlobs_mixedStore :
    ∀ seq now start stop, (mixedStore true).ScanAgrees seq now start stop :=
  (scans_agree_iff_resolvesBlobs.1 (mixedStore_readable true) (mixedStore_memDecodes true)
    (mixedStore_copies true) (mixedStore_blobsPresent true)).2 (Or.inl rfl)

/-- Without a blob path the scan panics at `k` and never reaches `z`, which a point
read finds. -/
theorem scanRange_mixedStore_nilBlobPath :
    (mixedStore false).Readable ∧ (mixedStore false).MemDecodes ∧
      CopiesIdentical (mixedStore false).entries ∧ (mixedStore false).BlobsPresent ∧
      scanRange (mixedStore false) 2 0 none none = ([], some .nilBlobPath) ∧
      getAtTime (mixedStore false) 2 [122] 0 = .ok ([119], ⟨true, false⟩) := by
  refine ⟨mixedStore_readable false, mixedStore_memDecodes false, mixedStore_copies false,
    mixedStore_blobsPresent false, ?_, ?_⟩
  · decide +kernel
  · decide +kernel

end LevisDB
