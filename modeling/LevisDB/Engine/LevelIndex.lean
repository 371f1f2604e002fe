import LevisDB.Lib.Search
import LevisDB.Storage.Table

/-!
# Level index

Point lookups do not scan every table: fresh tables are tried one by one, and
each deeper tier is kept sorted by its lower bound, so that a tier whose tables
do not overlap is reduced to one candidate by binary search. A tier with
overlapping or unknown bounds is scanned whole.
-/

namespace LevisDB

open List

/-- `compareOptionalMin` as an order: an unknown lower bound comes first. -/
def MinKeyOrder (a b : TableMeta) : Prop :=
  match a.minKey, b.minKey with
  | none, _ => True
  | some _, none => False
  | some x, some y => x ≤ y

instance : DecidableRel MinKeyOrder := fun a b =>
  match h : a.minKey, h' : b.minKey with
  | none, _ => isTrue (by simp [MinKeyOrder, h])
  | some _, none => isFalse (by simp [MinKeyOrder, h, h'])
  | some x, some y => decidable_of_iff (x ≤ y) (by simp [MinKeyOrder, h, h'])

instance : Std.Total MinKeyOrder where
  total a b := by
    unfold MinKeyOrder
    cases a.minKey <;> cases b.minKey <;> simp [le_total]

instance : IsTrans TableMeta MinKeyOrder where
  trans a b c := by
    unfold MinKeyOrder
    cases a.minKey <;> cases b.minKey <;> cases c.minKey <;> simp
    exact fun h₁ h₂ => le_trans h₁ h₂

/-- No two key ranges of a tier sorted by lower bound touch, and none is unknown. -/
def levelIsDisjoint (lvl : List TableMeta) : Bool := go none lvl
where
  /-- `prevMax` is the upper bound of the table in front, if there is one. -/
  go (prevMax : Option Key) : List TableMeta → Bool
    | [] => true
    | t :: ts =>
      match t.minKey, t.maxKey with
      | some minKey, some maxKey =>
        (match prevMax with
          | some k => decide (k < minKey)
          | none => true) && go (some maxKey) ts
      | _, _ => false

structure Level where
  tables : List TableMeta
  disjoint : Bool

structure LevelIndex where
  l0 : List TableMeta
  levels : List Level

def maxDepthOf (tables : List TableMeta) : Nat := (tables.map (·.depth)).foldl max 0

def buildLevel (tables : List TableMeta) (depth : Nat) : Level :=
  let lvl := (tables.filter fun t => t.depth = depth).insertionSort MinKeyOrder
  ⟨lvl, levelIsDisjoint lvl⟩

def buildLevelIndex (tables : List TableMeta) : LevelIndex where
  l0 := tables.filter fun t => t.depth = 0
  levels := (List.range (maxDepthOf tables)).map fun d => buildLevel tables (d + 1)

section Candidates

variable {σ : Type} (key : Key) (visit : σ → TableMeta → Except Err σ)

def visitMatching (s : σ) (ts : List TableMeta) : Except Err σ :=
  ts.foldlM (fun s t => if t.mayContain key then visit s t else pure s) s

/-- The first table of the tier that starts above `key`. -/
def Level.cutoff (lvl : Level) : Nat :=
  Search.search lvl.tables.length fun i =>
    match lvl.tables[i]? with
    | some t => match t.minKey with
      | some k => decide (key < k)
      | none => false
    | none => true

def Level.candidates (lvl : Level) (s : σ) : Except Err σ :=
  if lvl.disjoint = false then visitMatching key visit s lvl.tables
  else
    match lvl.cutoff key with
    | 0 => pure s
    | i + 1 => visitMatching key visit s (lvl.tables[i]?).toList

/-- Calls `visit` for the tables whose recorded range may contain `key`, stopping
at the first error. -/
def LevelIndex.candidates (idx : LevelIndex) (s : σ) : Except Err σ := do
  let s ← visitMatching key visit s idx.l0
  idx.levels.foldlM (fun s lvl => lvl.candidates key visit s) s

end Candidates

section Visited

variable {σ : Type} {key : Key} {visit : σ → TableMeta → Except Err σ}

theorem visitMatching_eq (s : σ) (ts : List TableMeta) :
    visitMatching key visit s ts = (ts.filter fun t => t.mayContain key).foldlM visit s := by
  unfold visitMatching
  induction ts generalizing s with
  | nil => rfl
  | cons t ts ih =>
    by_cases h : t.mayContain key = true
    · simp only [foldlM_cons, h, if_true, filter_cons_of_pos, ih]
    · simp only [foldlM_cons, h, if_false, pure_bind, ih, filter_cons, Bool.false_eq_true]

theorem minKey_le_of_sorted {a b : TableMeta} (h : MinKeyOrder a b) {ka kb : Key}
    (ha : a.minKey = some ka) (hb : b.minKey = some kb) : ka ≤ kb := by
  simpa [MinKeyOrder, ha, hb] using h

theorem pairwise_of_levelIsDisjoint {prevMax : Option Key} {ts : List TableMeta}
    (hsorted : ts.Pairwise MinKeyOrder) (h : levelIsDisjoint.go prevMax ts = true) :
    (∀ t ∈ ts, ∃ lo, t.minKey = some lo ∧ ∀ m, prevMax = some m → m < lo) ∧
      ts.Pairwise fun t u => ∀ lo, u.minKey = some lo → ∃ hi, t.maxKey = some hi ∧ hi < lo := by
  induction ts generalizing prevMax with
  | nil => simp
  | cons a ts ih =>
    rw [pairwise_cons] at hsorted ⊢
    unfold levelIsDisjoint.go at h
    split at h
    · next minKey maxKey hmin hmax =>
        rw [Bool.and_eq_true] at h
        obtain ⟨hrest, hpair⟩ := ih hsorted.2 h.2
        have hprev : ∀ m, prevMax = some m → m < minKey := by
          rintro m rfl
          simpa using h.1
        refine ⟨?_, ?_, hpair⟩
        · intro t ht
          rcases mem_cons.1 ht with rfl | ht
          · exact ⟨minKey, hmin, hprev⟩
          · obtain ⟨lo, hlo, _⟩ := hrest t ht
            refine ⟨lo, hlo, fun m hm => ?_⟩
            exact lt_of_lt_of_le (hprev m hm) (minKey_le_of_sorted (hsorted.1 t ht) hmin hlo)
        · intro u hu lo hlo
          obtain ⟨lo', hlo', hlt⟩ := hrest u hu
          obtain rfl : lo' = lo := Option.some.inj (hlo'.symm.trans hlo)
          exact ⟨maxKey, hmax, hlt maxKey rfl⟩
    · cases h

theorem Level.cutoff_spec (key : Key) {lvl : Level} (hsorted : lvl.tables.Pairwise MinKeyOrder)
    (hmin : ∀ t ∈ lvl.tables, ∃ lo, t.minKey = some lo) :
    lvl.cutoff key ≤ lvl.tables.length ∧
      ∀ i (hi : i < lvl.tables.length) lo, lvl.tables[i].minKey = some lo →
        (i < lvl.cutoff key ↔ lo ≤ key) := by
  have hspec := Search.search_spec (n := lvl.tables.length) (f := fun i =>
    match lvl.tables[i]? with
    | some t => match t.minKey with
      | some k => decide (key < k)
      | none => false
    | none => true) (by
      intro a b hab hb ha
      obtain ⟨ka, hka⟩ := hmin _ (getElem_mem (show a < lvl.tables.length by omega))
      obtain ⟨kb, hkb⟩ := hmin _ (getElem_mem hb)
      have hle : ka ≤ kb := by
        rcases Nat.eq_or_lt_of_le hab with rfl | hlt
        · exact le_of_eq (Option.some.inj (hka.symm.trans hkb))
        · exact minKey_le_of_sorted (pairwise_iff_getElem.1 hsorted a b _ hb hlt) hka hkb
      simp only [List.getElem?_eq_getElem (show a < lvl.tables.length by omega), hka,
        decide_eq_true_eq] at ha
      simp only [List.getElem?_eq_getElem hb, hkb, decide_eq_true_eq]
      exact lt_of_lt_of_le ha hle)
  refine ⟨hspec.1, ?_⟩
  intro i hi lo hlo
  constructor
  · intro hlt
    have := hspec.2.1 i hlt
    simpa [List.getElem?_eq_getElem hi, hlo] using this
  · intro hle
    by_contra hge
    have := hspec.2.2 i (Nat.not_lt.1 hge) hi
    simp only [List.getElem?_eq_getElem hi, hlo, decide_eq_true_eq] at this
    exact absurd this (not_lt.2 hle)

theorem filter_mayContain_nil {ts : List TableMeta}
    (h : ∀ t ∈ ts, t.mayContain key = false) : ts.filter (fun t => t.mayContain key) = [] := by
  rw [filter_eq_nil_iff]
  intro t ht
  simp [h t ht]

theorem not_mayContain_of_lt_minKey {t : TableMeta} {lo : Key} (hlo : t.minKey = some lo)
    (h : key < lo) : t.mayContain key = false := by
  rw [Bool.eq_false_iff]
  intro hmay
  exact absurd ((boundsContain_iff.1 hmay).1 lo hlo) (not_le.2 h)

theorem not_mayContain_of_maxKey_lt {t : TableMeta} {hi : Key} (hhi : t.maxKey = some hi)
    (h : hi < key) : t.mayContain key = false := by
  rw [Bool.eq_false_iff]
  intro hmay
  exact absurd ((boundsContain_iff.1 hmay).2 hi hhi) (not_le.2 h)

theorem Level.candidates_eq {lvl : Level} (hsorted : lvl.tables.Pairwise MinKeyOrder)
    (hdisj : lvl.disjoint = levelIsDisjoint lvl.tables) (s : σ) :
    lvl.candidates key visit s =
      (lvl.tables.filter fun t => t.mayContain key).foldlM visit s := by
  unfold Level.candidates
  split_ifs with hflag
  · exact visitMatching_eq s _
  · have hgo : levelIsDisjoint.go none lvl.tables = true := by
      rw [← levelIsDisjoint, ← hdisj]
      simpa using hflag
    obtain ⟨hmin, hpair⟩ := pairwise_of_levelIsDisjoint hsorted hgo
    obtain ⟨hcut, hside⟩ := Level.cutoff_spec key hsorted
      (fun t ht => (hmin t ht).imp fun _ h => h.1)
    have habove : ∀ t ∈ lvl.tables.drop (lvl.cutoff key), t.mayContain key = false := by
      intro t ht
      obtain ⟨i, hi, rfl⟩ := getElem_of_mem ht
      rw [length_drop] at hi
      rw [getElem_drop]
      obtain ⟨lo, hlo, _⟩ := hmin _ (getElem_mem (show
        lvl.cutoff key + i < lvl.tables.length by omega))
      refine not_mayContain_of_lt_minKey hlo (not_le.1 fun hle => ?_)
      have := (hside _ (by omega) lo hlo).2 hle
      omega
    cases hc : lvl.cutoff key with
    | zero =>
      rw [hc, drop_zero] at habove
      rw [filter_mayContain_nil habove]
      rfl
    | succ i =>
      have hi : i < lvl.tables.length := by omega
      obtain ⟨lo, hlo, _⟩ := hmin _ (getElem_mem hi)
      have hlokey : lo ≤ key := (hside i hi lo hlo).1 (by omega)
      have hbelow : ∀ t ∈ lvl.tables.take i, t.mayContain key = false := by
        intro t ht
        obtain ⟨j, hj, rfl⟩ := getElem_of_mem ht
        rw [length_take] at hj
        rw [getElem_take]
        obtain ⟨top, htop, hlt⟩ :=
          pairwise_iff_getElem.1 hpair j i (by omega) hi (by omega) lo hlo
        exact not_mayContain_of_maxKey_lt htop (lt_of_lt_of_le hlt hlokey)
      have hsplit : lvl.tables =
          lvl.tables.take i ++ (lvl.tables[i] :: lvl.tables.drop (i + 1)) := by
        rw [← drop_eq_getElem_cons hi, take_append_drop]
      change visitMatching key visit s lvl.tables[i]?.toList = _
      rw [visitMatching_eq, List.getElem?_eq_getElem hi]
      conv_rhs => rw [hsplit]
      rw [hc] at habove
      rw [filter_append, filter_mayContain_nil hbelow, nil_append, filter_cons,
        filter_mayContain_nil habove, Option.toList_some, filter_cons, filter_nil]

/-- The tables a lookup of `key` visits, in order. -/
def visitedTables (tables : List TableMeta) (key : Key) : List TableMeta :=
  ((buildLevelIndex tables).l0.filter fun t => t.mayContain key) ++
    (buildLevelIndex tables).levels.flatMap fun lvl => lvl.tables.filter fun t => t.mayContain key

/-- A level as any sort by lower bound can leave it: `sort.Slice` fixes no order
among equal bounds. -/
structure Level.Holds (lvl : Level) (tables : List TableMeta) (depth : Nat) : Prop where
  perm : lvl.tables.Perm (tables.filter fun t => t.depth = depth)
  sorted : lvl.tables.Pairwise MinKeyOrder
  flag : lvl.disjoint = levelIsDisjoint lvl.tables

/-- An index of the tables, whatever the sorts did with ties. -/
structure LevelIndex.Indexes (idx : LevelIndex) (tables : List TableMeta) : Prop where
  fresh : idx.l0 = tables.filter fun t => t.depth = 0
  levels : List.Forall₂ (fun lvl d => lvl.Holds tables (d + 1)) idx.levels
    (List.range (maxDepthOf tables))

theorem buildLevel_sorted (tables : List TableMeta) (depth : Nat) :
    (buildLevel tables depth).tables.Pairwise MinKeyOrder :=
  pairwise_insertionSort _ _

theorem foldlM_levels_eq {lvls : List Level}
    (h : ∀ lvl ∈ lvls, ∀ s : σ, lvl.candidates key visit s =
      (lvl.tables.filter fun t => t.mayContain key).foldlM visit s) (s : σ) :
    lvls.foldlM (fun s lvl => lvl.candidates key visit s) s =
      (lvls.flatMap fun lvl => lvl.tables.filter fun t => t.mayContain key).foldlM visit s := by
  induction lvls generalizing s with
  | nil => rfl
  | cons lvl lvls ih =>
    rw [foldlM_cons, flatMap_cons, foldlM_append, h lvl (by simp)]
    congr 1
    funext s
    exact ih (fun lvl hlvl => h lvl (by simp [hlvl])) s

theorem buildLevelIndex_indexes (tables : List TableMeta) :
    (buildLevelIndex tables).Indexes tables where
  fresh := rfl
  levels := by
    refine forall₂_map_left_iff.2 (forall₂_same.2 fun d _ => ?_)
    exact ⟨perm_insertionSort _ _, buildLevel_sorted tables (d + 1), rfl⟩

theorem LevelIndex.Indexes.candidates_eq {idx : LevelIndex} {tables : List TableMeta}
    (h : idx.Indexes tables) (s : σ) :
    idx.candidates key visit s =
      ((idx.l0.filter fun t => t.mayContain key) ++
        idx.levels.flatMap fun lvl => lvl.tables.filter fun t => t.mayContain key).foldlM visit s :=
          by
  unfold LevelIndex.candidates
  rw [foldlM_append, visitMatching_eq]
  congr 1
  funext s
  refine foldlM_levels_eq ?_ s
  intro lvl hlvl s
  obtain ⟨i, hi, rfl⟩ := getElem_of_mem hlvl
  have hholds := h.levels.get hi (h.levels.length_eq ▸ hi)
  exact Level.candidates_eq hholds.sorted hholds.flag s

theorem candidates_eq (tables : List TableMeta) (s : σ) :
    (buildLevelIndex tables).candidates key visit s =
      (visitedTables tables key).foldlM visit s :=
  (buildLevelIndex_indexes tables).candidates_eq s

theorem le_foldl_max {ns : List Nat} {a n : Nat} (h : n = a ∨ n ∈ ns) : n ≤ ns.foldl max a := by
  induction ns generalizing a n with
  | nil => simpa using h.elim Nat.le_of_eq (absurd · not_mem_nil)
  | cons x ns ih =>
    rcases h with rfl | h
    · exact le_trans (le_max_left _ _) (ih (Or.inl rfl))
    · rcases mem_cons.1 h with rfl | h
      · exact le_trans (le_max_right _ _) (ih (Or.inl rfl))
      · exact ih (Or.inr h)

theorem le_maxDepthOf {tables : List TableMeta} {t : TableMeta} (ht : t ∈ tables) :
    t.depth ≤ maxDepthOf tables :=
  le_foldl_max (Or.inr (List.mem_map.2 ⟨t, ht, rfl⟩))

theorem mem_visitedTables {tables : List TableMeta} {t : TableMeta} :
    t ∈ visitedTables tables key ↔ t ∈ tables ∧ t.mayContain key = true := by
  have hlevel : ∀ d, t ∈ (buildLevel tables d).tables ↔ t ∈ tables ∧ t.depth = d := by
    intro d
    simp [buildLevel, mem_insertionSort]
  simp only [visitedTables, buildLevelIndex, mem_append, mem_filter, mem_flatMap,
    List.mem_map, mem_range, decide_eq_true_eq]
  constructor
  · rintro (⟨⟨ht, _⟩, hmay⟩ | ⟨_, ⟨d, _, rfl⟩, ht, hmay⟩)
    · exact ⟨ht, hmay⟩
    · exact ⟨((hlevel _).1 ht).1, hmay⟩
  · rintro ⟨ht, hmay⟩
    cases hd : t.depth with
    | zero => exact Or.inl ⟨⟨ht, rfl⟩, hmay⟩
    | succ d =>
      have hle := le_maxDepthOf ht
      exact Or.inr ⟨_, ⟨d, by omega, rfl⟩, (hlevel _).2 ⟨ht, by omega⟩, hmay⟩

theorem flatMap_filter_depth_perm (tables : List TableMeta) (n : Nat) :
    ((List.range n).flatMap fun d => tables.filter fun t => t.depth = d).Perm
      (tables.filter fun t => t.depth < n) := by
  induction n with
  | zero => simp
  | succ n ih =>
    have hsplit := List.filter_append_perm (fun t : TableMeta => decide (t.depth < n))
      (tables.filter fun t => t.depth < n + 1)
    have hbelow : (tables.filter fun t => t.depth < n + 1).filter
        (fun t => decide (t.depth < n)) = tables.filter fun t => t.depth < n := by
      rw [List.filter_filter]
      exact filter_congr fun t _ => by simp; omega
    have hat : (tables.filter fun t => t.depth < n + 1).filter
        (fun t => !decide (t.depth < n)) = tables.filter fun t => t.depth = n := by
      rw [List.filter_filter]
      exact filter_congr fun t _ => by
        rw [Bool.eq_iff_iff]
        simp
        omega
    rw [hbelow, hat] at hsplit
    rw [range_succ, flatMap_append, flatMap_singleton]
    exact (ih.append_right _).trans hsplit

theorem LevelIndex.Indexes.perm {idx : LevelIndex} {tables : List TableMeta}
    (h : idx.Indexes tables) :
    (idx.l0 ++ idx.levels.flatMap Level.tables).Perm tables := by
  have hlevels : ∀ (lvls : List Level) (ds : List Nat),
      List.Forall₂ (fun lvl d => lvl.Holds tables (d + 1)) lvls ds →
      (lvls.flatMap Level.tables).Perm
        (ds.flatMap fun d => tables.filter fun t => t.depth = d + 1) := by
    intro lvls ds hfor
    induction hfor with
    | nil => rfl
    | cons hhead _ ih => exact hhead.perm.append ih
  have hall := flatMap_filter_depth_perm tables (maxDepthOf tables + 1)
  have htrue : (tables.filter fun t => t.depth < maxDepthOf tables + 1) = tables := by
    rw [filter_eq_self]
    intro t ht
    have := le_maxDepthOf ht
    simp
    omega
  rw [htrue, range_succ_eq_map, flatMap_cons, flatMap_map] at hall
  rw [h.fresh]
  exact ((hlevels _ _ h.levels).append_left _).trans hall

/-- A lookup visits each table whose recorded range may hold the key once, visits no
other table, and returns the first error of a visit. -/
theorem candidates_visit_once {idx : LevelIndex} {tables : List TableMeta}
    (h : idx.Indexes tables) (key : Key) :
    ∃ order : List TableMeta, order.Perm (tables.filter fun t => t.mayContain key) ∧
      ∀ (σ : Type) (visit : σ → TableMeta → Except Err σ) (s : σ),
        idx.candidates key visit s = order.foldlM visit s ∧
        ∀ before t after s' err, order = before ++ t :: after →
          before.foldlM visit s = .ok s' → visit s' t = .error err →
          idx.candidates key visit s = .error err := by
  refine ⟨_, ?_, fun σ visit s => ⟨h.candidates_eq s, ?_⟩⟩
  · have hperm := h.perm.filter fun t => t.mayContain key
    rwa [filter_append, filter_flatMap] at hperm
  · intro before t after s' err horder hbefore hvisit
    rw [h.candidates_eq s, horder, foldlM_append, hbefore]
    simp [hvisit, bind, Except.bind]

def rangeTable (num depth size : Nat) (minKey maxKey : Option Key) : TableMeta :=
  ⟨num, depth, TableWriter.new.finish 0 [], size, minKey, maxKey, 0, 0⟩

/-- Two disjoint tables of one tier: the visit of the one that may hold the key fails,
and the lookup returns its error. -/
theorem candidates_visit_once_disjoint :
    (buildLevelIndex [rangeTable 2 1 8 (some [5]) (some [7]),
      rangeTable 1 1 8 (some [1]) (some [3])]).candidates [2]
        (fun (_ : Unit) _ => .error .emptyKey) () = .error .emptyKey := by
  obtain ⟨order, hperm, hvisit⟩ := candidates_visit_once (buildLevelIndex_indexes
    [rangeTable 2 1 8 (some [5]) (some [7]), rangeTable 1 1 8 (some [1]) (some [3])]) [2]
  have hone : order = [rangeTable 1 1 8 (some [1]) (some [3])] := perm_singleton.1 hperm
  exact (hvisit Unit _ ()).2 [] _ [] () .emptyKey hone rfl rfl

end Visited

end LevisDB
