import LevisDB.Storage.Block

/-!
# Data blocks read back

The entries of a data block fall into groups: a group starts at a restart point
with a whole key, and every other entry of it holds what its key adds to the key
before.
-/

namespace LevisDB

open List LevisDB.Except Checked

namespace DataBlockBuilder

variable {b : DataBlockBuilder} {cur : List (Bytes × Bytes)} {done : List (List (Bytes × Bytes))}
  {interval : Nat}

theorem sharedLen_le (a b : Bytes) : sharedLen a b ≤ a.length ∧ sharedLen a b ≤ b.length := by
  induction a generalizing b with
  | nil => exact ⟨Nat.le_refl _, Nat.zero_le _⟩
  | cons x a ih =>
    cases b with
    | nil => exact ⟨Nat.zero_le _, Nat.le_refl _⟩
    | cons y b =>
      have hrest := ih b
      simp only [sharedLen, length_cons]
      split_ifs <;> omega

theorem take_sharedLen (a b : Bytes) : a.take (sharedLen a b) = b.take (sharedLen a b) := by
  induction a generalizing b with
  | nil => simp [sharedLen]
  | cons x a ih =>
    cases b with
    | nil => rfl
    | cons y b =>
      simp only [sharedLen]
      split_ifs with h
      · rw [take_succ_cons, take_succ_cons, ih, h]
      · rfl

theorem take_append_drop_sharedLen (a b : Bytes) :
    a.take (sharedLen a b) ++ b.drop (sharedLen a b) = b := by
  rw [take_sharedLen, take_append_drop]

@[simp] theorem sharedLen_nil (key : Bytes) : sharedLen [] key = 0 := rfl

def lastKeyOf (prev : Bytes) (es : List (Bytes × Bytes)) : Bytes := es.foldl (fun _ e => e.1) prev

/-- Entries behind a key, none of them a restart point. -/
def encodeRun : Bytes → List (Bytes × Bytes) → Bytes
  | _, [] => []
  | prev, (key, value) :: es => encodeEntry (sharedLen prev key) key value ++ encodeRun key es

/-- Groups that each start with a whole key. -/
def encodeGroups (gs : List (List (Bytes × Bytes))) : Bytes := gs.flatMap (encodeRun [])

def starts (gs : List (List (Bytes × Bytes))) : List Nat :=
  (List.range gs.length).map fun i => (encodeGroups (gs.take i)).length

theorem encodeRun_append (prev : Bytes) (es fs : List (Bytes × Bytes)) :
    encodeRun prev (es ++ fs) = encodeRun prev es ++ encodeRun (lastKeyOf prev es) fs := by
  induction es generalizing prev with
  | nil => rfl
  | cons e es ih =>
    rw [cons_append, encodeRun, encodeRun, ih, append_assoc]
    rfl

theorem encodeGroups_append (gs hs : List (List (Bytes × Bytes))) :
    encodeGroups (gs ++ hs) = encodeGroups gs ++ encodeGroups hs := flatMap_append

theorem encodeGroups_singleton (g : List (Bytes × Bytes)) : encodeGroups [g] = encodeRun [] g := by
  simp [encodeGroups]

theorem starts_append (gs : List (List (Bytes × Bytes))) (g : List (Bytes × Bytes)) :
    starts (gs ++ [g]) = starts gs ++ [(encodeGroups gs).length] := by
  rw [starts, length_append, length_singleton, range_succ, map_append,
    map_singleton, take_left' rfl, starts]
  congr 1
  refine map_congr_left fun i hi => ?_
  rw [take_append_of_le_length (Nat.le_of_lt (mem_range.1 hi))]

theorem encodeEntry_length_pos (shared : Nat) (key value : Bytes) :
    0 < (encodeEntry shared key value).length := by
  have hne := length_pos_iff.2 (Varint.put_ne_nil shared)
  rw [encodeEntry, length_append]
  omega

theorem encodeRun_length_pos {es : List (Bytes × Bytes)} (h : es ≠ []) (prev : Bytes) :
    0 < (encodeRun prev es).length := by
  cases es with
  | nil => exact absurd rfl h
  | cons e es =>
    have hpos := encodeEntry_length_pos (sharedLen prev e.1) e.1 e.2
    rw [encodeRun, length_append]
    omega

theorem length_le_encodeRun (prev : Bytes) (es : List (Bytes × Bytes)) :
    es.length ≤ (encodeRun prev es).length := by
  induction es generalizing prev with
  | nil => exact Nat.le_refl _
  | cons e es ih =>
    have hpos := encodeEntry_length_pos (sharedLen prev e.1) e.1 e.2
    have hrest := ih e.1
    rw [encodeRun, length_append, length_cons]
    omega

theorem length_le_encodeGroups (gs : List (List (Bytes × Bytes))) :
    gs.flatten.length ≤ (encodeGroups gs).length := by
  induction gs with
  | nil => exact Nat.le_refl _
  | cons g gs ih =>
    have hg := length_le_encodeRun [] g
    rw [flatten_cons, length_append, encodeGroups, flatMap_cons, length_append]
    exact Nat.add_le_add hg ih

theorem key_length_le (prev : Bytes) {es : List (Bytes × Bytes)} {e : Bytes × Bytes} (he : e ∈ es) :
    e.1.length ≤ prev.length + (encodeRun prev es).length := by
  induction es generalizing prev with
  | nil => cases he
  | cons a es ih =>
    have hshared := sharedLen_le prev a.1
    have ha : a.1.length ≤ prev.length +
        (encodeEntry (sharedLen prev a.1) a.1 a.2).length := by
      simp only [encodeEntry, length_append, length_drop]
      omega
    rw [encodeRun, length_append]
    rcases mem_cons.1 he with rfl | he
    · omega
    · have hrest := ih a.1 he
      omega

def addAll (b : DataBlockBuilder) (es : List (Bytes × Bytes)) : DataBlockBuilder :=
  es.foldl (fun b e => b.add e.1 e.2) b

/-- The builder of these groups, of which the last one is still growing. -/
structure Building (b : DataBlockBuilder) (interval : Nat) (done : List (List (Bytes × Bytes)))
    (cur : List (Bytes × Bytes)) : Prop where
  interval : b.restartInterval = interval
  buf : b.buf = encodeGroups (done ++ [cur])
  restarts : 0 :: b.restarts = (starts (done ++ [cur])).map UInt32.ofNat
  entries : b.entries = (done ++ [cur]).flatten.length
  counter : b.counter = cur.length
  lastKey : b.lastKey = lastKeyOf [] cur
  first : cur = [] → done = []
  full : ∀ g ∈ done, g ≠ [] ∧ g.length ≤ b.restartEvery
  short : cur.length ≤ b.restartEvery

theorem restartEvery_pos (b : DataBlockBuilder) : 0 < b.restartEvery := by
  unfold restartEvery
  split_ifs with h
  · exact h
  · decide

theorem building_new (interval : Nat) : Building (new interval) interval [] [] :=
  ⟨rfl, rfl, rfl, rfl, rfl, rfl, fun _ => rfl, (fun _ h => absurd h not_mem_nil), Nat.zero_le _⟩

theorem Building.add (h : Building b interval done cur) (key value : Bytes) :
    ∃ done' cur', Building (b.add key value) interval done' cur' ∧
      (done' ++ [cur']).flatten = (done ++ [cur]).flatten ++ [(key, value)] := by
  unfold DataBlockBuilder.add
  split_ifs with hroom
  · refine ⟨done, cur ++ [(key, value)], ⟨h.interval, ?_, ?_, ?_, ?_, ?_, ?_, h.full, ?_⟩, by simp⟩
    · dsimp only
      rw [h.buf, h.lastKey, encodeGroups_append, encodeGroups_append, encodeGroups_singleton,
        encodeGroups_singleton, encodeRun_append, append_assoc, encodeRun, encodeRun,
        append_nil]
    · dsimp only
      rw [h.restarts, starts_append, starts_append]
    · dsimp only
      rw [h.entries]
      simp only [flatten_append, length_append, flatten_singleton,
        length_singleton]
      omega
    · dsimp only
      rw [h.counter, length_append, length_singleton]
    · simp [lastKeyOf]
    · intro hnil
      simp at hnil
    · have hcounter := h.counter
      rw [length_append, length_singleton]
      change cur.length + 1 ≤ b.restartEvery
      omega
  · have hcur : cur ≠ [] := by
      intro hnil
      have hcounter := h.counter
      rw [hnil, length_nil] at hcounter
      exact hroom (by rw [hcounter]; exact b.restartEvery_pos)
    refine ⟨done ++ [cur], [(key, value)],
      ⟨h.interval, ?_, ?_, ?_, rfl, rfl, fun hnil => absurd hnil (cons_ne_nil _ _), ?_,
        b.restartEvery_pos⟩, by simp⟩
    · dsimp only
      rw [h.buf, encodeGroups_append (done ++ [cur]), encodeGroups_singleton, encodeRun, encodeRun,
        append_nil, sharedLen_nil]
    · dsimp only
      rw [starts_append (done ++ [cur]), map_append, ← h.restarts, ← h.buf]
      rfl
    · dsimp only
      rw [h.entries]
      simp only [flatten_append, length_append, flatten_singleton,
        length_singleton]
    · intro g hg
      rcases mem_append.1 hg with hg | hg
      · exact h.full g hg
      · rw [mem_singleton.1 hg]
        exact ⟨hcur, h.short⟩

theorem Building.addAll (h : Building b interval done cur) (es : List (Bytes × Bytes)) :
    ∃ done' cur', Building (b.addAll es) interval done' cur' ∧
      (done' ++ [cur']).flatten = (done ++ [cur]).flatten ++ es := by
  induction es generalizing b done cur with
  | nil => exact ⟨done, cur, h, (append_nil _).symm⟩
  | cons e es ih =>
    obtain ⟨done₁, cur₁, h₁, hflat₁⟩ := h.add e.1 e.2
    obtain ⟨done₂, cur₂, h₂, hflat₂⟩ := ih h₁
    refine ⟨done₂, cur₂, h₂, ?_⟩
    rw [hflat₂, hflat₁, append_assoc]
    rfl

structure Grouped (b : DataBlockBuilder) (interval : Nat) (gs : List (List (Bytes × Bytes))) :
    Prop where
  buf : b.buf = encodeGroups gs
  restarts : b.allRestarts = (starts gs).map UInt32.ofNat
  group : ∀ g ∈ gs, g ≠ [] ∧ g.length ≤ (new interval).restartEvery

theorem Building.restartEvery
    (h : Building b interval done cur) : b.restartEvery = (new interval).restartEvery := by
  unfold DataBlockBuilder.restartEvery
  rw [h.interval]
  rfl

theorem grouped_addAll (interval : Nat) (es : List (Bytes × Bytes)) :
    ∃ gs, Grouped ((new interval).addAll es) interval gs ∧ gs.flatten = es := by
  obtain ⟨done, cur, h, hflat⟩ := (building_new interval).addAll es
  have hevery := h.restartEvery
  by_cases hcur : cur = []
  · have hdone := h.first hcur
    subst hcur hdone
    have hentries := h.entries
    refine ⟨[], ⟨h.buf, ?_, fun g hg => absurd hg not_mem_nil⟩, hflat⟩
    have hrestarts := List.cons.inj h.restarts
    rw [allRestarts, if_neg (by rw [hentries]; simp)]
    exact hrestarts.2
  · refine ⟨done ++ [cur], ⟨h.buf, ?_, ?_⟩, hflat⟩
    · have hpos : 0 < ((new interval).addAll es).entries := by
        rw [h.entries, flatten_append, length_append]
        have := length_pos_iff.2 hcur
        simp only [flatten_singleton]
        omega
      rw [allRestarts, if_pos hpos, h.restarts]
    · intro g hg
      rw [← hevery]
      rcases mem_append.1 hg with hg | hg
      · exact h.full g hg
      · rw [mem_singleton.1 hg]
        exact ⟨hcur, h.short⟩

theorem splitDataBlock_finish (h : b.finish.length < 2 ^ 32) :
    splitDataBlock b.finish = .ok (b.buf, encodeRestarts b.allRestarts, b.allRestarts.length) := by
  generalize hpayload : b.finish = payload at h ⊢
  have hsplit : payload = b.buf ++ (encodeRestarts b.allRestarts ++
      LittleEndian.put 4 b.allRestarts.length) := hpayload.symm
  have hrestarts := encodeRestarts_length b.allRestarts
  have hlen : payload.length = b.buf.length + (b.allRestarts.length * 4 + 4) := by
    rw [hsplit, length_append, length_append, hrestarts, LittleEndian.put_length]
  have hstop : payload.length - 4 = (b.buf ++ encodeRestarts b.allRestarts).length := by
    rw [length_append, hrestarts]
    omega
  have htail : slice payload (payload.length - 4) payload.length =
      .ok (LittleEndian.put 4 b.allRestarts.length) := by
    rw [hstop, hsplit, ← append_assoc]
    exact slice_back _ _
  have hcount := leUint32_put (show b.allRestarts.length < 2 ^ 32 by omega) []
  rw [append_nil] at hcount
  have hend : payload.length - (b.allRestarts.length + 1) * 4 = b.buf.length := by omega
  have hentries : slice payload 0 b.buf.length = .ok b.buf := by
    rw [hsplit]
    exact slice_front _ _
  have hoffsets : slice payload b.buf.length (payload.length - 4) =
      .ok (encodeRestarts b.allRestarts) := by
    rw [hstop, length_append]
    exact slice_eq hsplit
  rw [splitDataBlock, refuse_of_not (by omega), ok_bind, subtract_of_le (by omega),
    ok_bind, htail, ok_bind, hcount, ok_bind, refuse_of_not (by omega),
    ok_bind, subtract_of_le (by omega), ok_bind, hend, hentries, ok_bind,
    hoffsets]
  rfl

end DataBlockBuilder

namespace DataBlockIter

variable {key post pre target : Bytes} {es : List (Bytes × Bytes)} {i : Nat}

open DataBlockBuilder

/-- Repeated `next` yields exactly these entries, and no error. -/
def Yields : DataBlockIter → List (Bytes × Bytes) → Prop
  | it, [] => it.next = .ok none
  | it, (key, value) :: es =>
    ∃ it', it.next = .ok (some it') ∧ it'.key = key ∧ it'.value = value ∧ Yields it' es

theorem next_entry {it : DataBlockIter} {prev value : Bytes}
    (hentries : it.entries = pre ++ (encodeEntry (sharedLen prev key) key value ++ post))
    (hpos : it.pos = pre.length) (hprev : prev = it.key ∨ prev = [])
    (hkey : key.length < 2 ^ 64) (hwide : it.entries.length < 2 ^ 64) :
    ∃ it', it.next = .ok (some it') ∧ it'.key = key ∧ it'.value = value ∧
      it'.entries = it.entries ∧
      it'.pos = (pre ++ encodeEntry (sharedLen prev key) key value).length := by
  have hshared : sharedLen prev key ≤ it.key.length ∧
      it.key.take (sharedLen prev key) ++ key.drop (sharedLen prev key) = key := by
    rcases hprev with rfl | rfl
    · exact ⟨(sharedLen_le _ _).1, take_append_drop_sharedLen _ _⟩
    · exact ⟨Nat.zero_le _, rfl⟩
  have hle := (sharedLen_le prev key).2
  generalize sharedLen prev key = shared at hentries hshared hle ⊢
  have h₁ : it.entries = pre ++ (Varint.put shared ++ (Varint.put (key.length - shared) ++
      (Varint.put value.length ++ (key.drop shared ++ (value ++ post))))) := by
    rw [hentries, encodeEntry]
    simp only [append_assoc]
  have h₂ : it.entries = (pre ++ Varint.put shared) ++ (Varint.put (key.length - shared) ++
      (Varint.put value.length ++ (key.drop shared ++ (value ++ post)))) := by
    rw [h₁, append_assoc]
  have h₃ : it.entries = (pre ++ Varint.put shared ++ Varint.put (key.length - shared)) ++
      (Varint.put value.length ++ (key.drop shared ++ (value ++ post))) := by
    rw [h₂, append_assoc]
    simp only [append_assoc]
  have h₄ : it.entries = (pre ++ Varint.put shared ++ Varint.put (key.length - shared) ++
      Varint.put value.length) ++ (key.drop shared ++ (value ++ post)) := by
    rw [h₃]
    simp only [append_assoc]
  have h₅ : it.entries = (pre ++ Varint.put shared ++ Varint.put (key.length - shared) ++
      Varint.put value.length ++ key.drop shared) ++ (value ++ post) := by
    rw [h₄]
    simp only [append_assoc]
  have hpositive := length_pos_iff.2 (Varint.put_ne_nil shared)
  have hlen := congrArg List.length h₅
  have hdrop : (key.drop shared).length = key.length - shared := length_drop
  have hvalue : value.length < 2 ^ 64 := by
    simp only [length_append] at hlen
    omega
  have hread₁ := uvarintAt_put (show shared < 2 ^ 64 by omega) (.tableFile .sharedLength) h₁
  have hread₂ := uvarintAt_put (show key.length - shared < 2 ^ 64 by omega)
    (.tableFile .nonSharedLength) h₂
  have hread₃ := uvarintAt_put hvalue (.tableFile .valueLength) h₃
  have hread₄ := takeAt_eq (.tableFile .keyExceeds) h₄
  have hread₅ := takeAt_eq (.tableFile .valueExceeds) h₅
  simp only [length_append, hdrop] at hlen hread₂ hread₃ hread₄ hread₅
  have hcommon : slice it.key 0 shared = .ok (it.key.take shared) := by
    rw [slice, if_pos ⟨Nat.zero_le _, hshared.1⟩, drop_zero]
  refine ⟨{ it.setBuf (!it.which) key with
    which := !it.which, hasKey := true, value := value,
    pos := (pre ++ encodeEntry shared key value).length }, ?_, ?_, rfl, rfl, rfl⟩
  · rw [next, if_neg (by omega), hpos, hread₁, ok_bind]
    dsimp only
    rw [hread₂, ok_bind]
    dsimp only
    rw [hread₃, ok_bind]
    dsimp only
    rw [refuse_of_not (by omega), ok_bind, hread₄, ok_bind]
    dsimp only
    rw [hcommon, ok_bind, hread₅, ok_bind, hshared.2, encodeEntry]
    simp only [length_append, hdrop, Nat.add_assoc]
    rfl
  · unfold DataBlockIter.key setBuf buf
    cases it.which <;> rfl

theorem yields_run {it : DataBlockIter} {prev : Bytes} {rest : List (Bytes × Bytes)}
    (hentries : it.entries = pre ++ (encodeRun prev es ++ post)) (hpos : it.pos = pre.length)
    (hprev : prev = it.key ∨ prev = []) (hkeys : ∀ e ∈ es, e.1.length < 2 ^ 64)
    (hwide : it.entries.length < 2 ^ 64)
    (hrest : ∀ it', it'.entries = it.entries → it'.pos = (pre ++ encodeRun prev es).length →
      Yields it' rest) :
    Yields it (es ++ rest) := by
  induction es generalizing it pre prev with
  | nil => exact hrest it rfl (by rw [encodeRun, append_nil, hpos])
  | cons e es ih =>
    rw [forall_mem_cons] at hkeys
    rw [encodeRun, append_assoc] at hentries
    obtain ⟨it', hnext, hkey, hvalue, hsame, hpos'⟩ :=
      next_entry hentries hpos hprev hkeys.1 hwide
    refine ⟨it', hnext, hkey, hvalue, ?_⟩
    refine ih ?_ hpos' (.inl hkey.symm) hkeys.2 (by rw [hsame]; exact hwide) ?_
    · rw [hsame, hentries, append_assoc]
    · intro it'' hsame' hpos''
      refine hrest it'' (hsame'.trans hsame) ?_
      rw [hpos'', encodeRun, append_assoc]

theorem yields_groups {gs : List (List (Bytes × Bytes))} {it : DataBlockIter} (pre : Bytes)
    (hentries : it.entries = pre ++ encodeGroups gs) (hpos : it.pos = pre.length)
    (hkeys : ∀ e ∈ gs.flatten, e.1.length < 2 ^ 64) (hwide : it.entries.length < 2 ^ 64) :
    Yields it gs.flatten := by
  induction gs generalizing it pre with
  | nil =>
    change it.next = .ok none
    rw [next, if_pos (by rw [hentries, hpos]; simp [encodeGroups])]
    rfl
  | cons g gs ih =>
    rw [flatten_cons, forall_mem_append] at hkeys
    refine yields_run hentries hpos (.inr rfl) hkeys.1 hwide ?_
    intro it' hsame hpos'
    refine ih _ ?_ hpos' hkeys.2 (by rw [hsame]; exact hwide)
    rw [hsame, hentries, append_assoc]
    rfl

def firstKey (g : List (Bytes × Bytes)) : Bytes := (g.head?.map Prod.fst).getD []

structure Over (it : DataBlockIter) (gs : List (List (Bytes × Bytes))) : Prop where
  entries : it.entries = encodeGroups gs
  restarts : it.restarts = encodeRestarts ((starts gs).map UInt32.ofNat)
  nRestart : it.nRestart = gs.length
  short : it.entries.length < 2 ^ 32
  nonempty : ∀ g ∈ gs, g ≠ []
  whole : ∀ e ∈ gs.flatten, WholeKey e.1

variable {it : DataBlockIter} {gs : List (List (Bytes × Bytes))}

theorem encodeGroups_split (h : i < gs.length) :
    encodeGroups gs = encodeGroups (gs.take i) ++
    (encodeRun [] gs[i] ++ encodeGroups (gs.drop (i + 1))) := by
  conv_lhs => rw [← take_append_drop i gs, drop_eq_getElem_cons h]
  rw [encodeGroups_append]
  rfl

theorem Over.keys (h : Over it gs) : ∀ e ∈ gs.flatten, e.1.length < 2 ^ 32 := by
  intro e he
  obtain ⟨g, hg, he⟩ := mem_flatten.1 he
  obtain ⟨i, hi, rfl⟩ := getElem_of_mem hg
  have hle := key_length_le [] he
  have hlen := congrArg List.length (h.entries.trans (encodeGroups_split hi))
  have hshort := h.short
  simp only [length_append] at hlen
  rw [length_nil] at hle
  omega

theorem starts_split (h : i < gs.length) :
    ∃ before after, starts gs = before ++ (encodeGroups (gs.take i)).length :: after ∧
      before.length = i := by
  have hlt : i < (starts gs).length := by simpa [starts] using h
  have hget : (starts gs)[i] = (encodeGroups (gs.take i)).length := by simp [starts]
  refine ⟨(starts gs).take i, (starts gs).drop (i + 1), ?_, ?_⟩
  · rw [← hget, ← drop_eq_getElem_cons hlt, take_append_drop]
  · rw [length_take, Nat.min_eq_left (Nat.le_of_lt hlt)]

theorem Over.restartOffset (h : Over it gs) (hi : i < gs.length) :
    it.restartOffset i = .ok (some (encodeGroups (gs.take i)).length) := by
  have hlen := congrArg List.length (h.entries.trans (encodeGroups_split hi))
  have hpos := encodeRun_length_pos (h.nonempty _ (getElem_mem hi)) []
  have hshort := h.short
  simp only [length_append] at hlen
  obtain ⟨before, after, hstarts, hbefore⟩ := starts_split hi
  have hsplit : it.restarts = encodeRestarts (before.map UInt32.ofNat) ++
      (LittleEndian.put 4 (UInt32.ofNat (encodeGroups (gs.take i)).length).toNat ++
        encodeRestarts (after.map UInt32.ofNat)) := by
    rw [h.restarts, hstarts, map_append, map_cons]
    simp [encodeRestarts]
  have hfront : (encodeRestarts (before.map UInt32.ofNat)).length = i * 4 := by
    rw [encodeRestarts_length, length_map, hbefore]
  have hrestarts := congrArg List.length hsplit
  simp only [length_append, hfront, LittleEndian.put_length] at hrestarts
  have hnat : (UInt32.ofNat (encodeGroups (gs.take i)).length).toNat =
      (encodeGroups (gs.take i)).length :=
    UInt32.toNat_ofNat_of_lt' (by change _ < 2 ^ 32; omega)
  have htail : slice it.restarts (i * 4) it.restarts.length =
      .ok (LittleEndian.put 4 (encodeGroups (gs.take i)).length ++
        encodeRestarts (after.map UInt32.ofNat)) := by
    rw [← hfront, hsplit, hnat]
    exact slice_back _ _
  rw [DataBlockIter.restartOffset, if_neg (by omega), htail, ok_bind,
    leUint32_put (by omega), ok_bind, if_neg (by omega)]
  rfl

theorem keyAt_entry {value : Bytes}
    (hentries : it.entries = pre ++ (encodeEntry 0 key value ++ post)) (hwhole : WholeKey key)
    (hwide : it.entries.length < 2 ^ 64) : it.keyAt pre.length = .ok (some key) := by
  unfold WholeKey at hwhole
  have h₁ : it.entries = pre ++ (Varint.put 0 ++ (Varint.put key.length ++
      (Varint.put value.length ++ (key ++ (value ++ post))))) := by
    rw [hentries, encodeEntry]
    simp only [append_assoc, drop_zero, Nat.sub_zero]
  have h₂ : it.entries = (pre ++ Varint.put 0) ++ (Varint.put key.length ++
      (Varint.put value.length ++ (key ++ (value ++ post)))) := by
    rw [h₁, append_assoc]
  have h₃ : it.entries = (pre ++ Varint.put 0 ++ Varint.put key.length) ++
      (Varint.put value.length ++ (key ++ (value ++ post))) := by
    rw [h₂, append_assoc (pre ++ Varint.put 0)]
  have h₄ : it.entries = (pre ++ Varint.put 0 ++ Varint.put key.length ++
    Varint.put value.length) ++
      (key ++ (value ++ post)) := by
    rw [h₃, append_assoc (pre ++ Varint.put 0 ++ Varint.put key.length)]
  have hlen := congrArg List.length h₄
  have hpos := length_pos_iff.2 (Varint.put_ne_nil 0)
  have htail₁ := slice_back pre (Varint.put 0 ++ (Varint.put key.length ++
    (Varint.put value.length ++ (key ++ (value ++ post)))))
  have htail₂ := slice_back (pre ++ Varint.put 0) (Varint.put key.length ++
    (Varint.put value.length ++ (key ++ (value ++ post))))
  have htail₃ := slice_back (pre ++ Varint.put 0 ++ Varint.put key.length)
    (Varint.put value.length ++ (key ++ (value ++ post)))
  have hkey := slice_eq h₄
  rw [← h₁] at htail₁
  rw [← h₂] at htail₂
  rw [← h₃] at htail₃
  simp only [length_append] at hlen htail₂ htail₃ hkey
  rw [keyAt, if_neg (by omega), htail₁, ok_bind, uvarint_put (by decide)]
  dsimp only
  rw [htail₂, ok_bind, uvarint_put (by omega)]
  dsimp only
  rw [htail₃, ok_bind, uvarint_put (by omega)]
  dsimp only
  rw [subtract_of_le (by omega), ok_bind, if_neg (by omega), hkey]
  rfl

theorem Over.restartKey (h : Over it gs) (hi : i < gs.length) :
    it.restartKey i = .ok (some (firstKey gs[i])) := by
  have hmem := getElem_mem hi
  have hsplit := h.entries.trans (encodeGroups_split hi)
  have hshort := h.short
  obtain ⟨⟨key, value⟩, es, hg⟩ := exists_cons_of_ne_nil (h.nonempty _ hmem)
  have hwhole : WholeKey key :=
    h.whole (key, value) (mem_flatten.2 ⟨gs[i], hmem, by rw [hg]; exact mem_cons_self⟩)
  rw [hg, encodeRun, sharedLen_nil, append_assoc] at hsplit
  rw [DataBlockIter.restartKey, h.restartOffset hi, ok_bind]
  dsimp only
  rw [keyAt_entry hsplit hwhole (by omega), hg]
  rfl

theorem compareKeys_whole {a b : Bytes} (ha : WholeKey a) (hb : WholeKey b) :
    compareKeys a b =
      .ok (compareParts (userPart a) (trailerPart a) (userPart b) (trailerPart b)) := by
  rw [compareKeys, ikeyCompareBytes_whole ha hb]

theorem compareKeys_halve {α : Type} (hkey : WholeKey key)
    (htarget : WholeKey target) (lo mid hi : Nat) :
    (do
      match ← compareKeys key target with
      | .lt => pure (.inr (mid + 1, hi))
      | _ => pure (.inr (lo, mid)) : Except Err (α ⊕ (Nat × Nat))) =
      .ok (.inr (if decide (IKeyBytesLe target key) then (lo, mid) else (mid + 1, hi))) := by
  rw [compareKeys_whole hkey htarget, ok_bind]
  by_cases hle : IKeyBytesLe target key
  · have hne := mt compareParts_lt_iff.1 (not_not.2 hle)
    rw [if_pos (decide_eq_true hle)]
    split
    · rename_i heq
      exact absurd heq hne
    · rfl
  · rw [compareParts_lt_iff.2 hle, if_neg (by rwa [decide_eq_true_eq])]
    rfl

theorem Over.seekStep (h : Over it gs) (htarget : WholeKey target) {lo hi : Nat}
    (hlt : lo < hi) (hhi : hi ≤ gs.length) :
    it.seekStep target (lo, hi) = .ok (.inr
      (if decide (IKeyBytesLe target (firstKey (gs.getD ((lo + hi) / 2) []))) then (lo,
        (lo + hi) / 2)
        else ((lo + hi) / 2 + 1, hi))) := by
  have hmid : (lo + hi) / 2 < gs.length := by omega
  have hmem := getElem_mem hmid
  obtain ⟨e, es, hg⟩ := exists_cons_of_ne_nil (h.nonempty _ hmem)
  have hwhole : WholeKey (firstKey gs[(lo + hi) / 2]) := by
    rw [hg]
    exact h.whole e (mem_flatten.2 ⟨_, hmem, by rw [hg]; exact mem_cons_self⟩)
  have hgetD : gs.getD ((lo + hi) / 2) [] = gs[(lo + hi) / 2] := by
    rw [getD_eq_getElem?_getD, List.getElem?_eq_getElem hmid, Option.getD_some]
  rw [DataBlockIter.seekStep]
  dsimp only
  rw [if_pos hlt, h.restartKey hmid, ok_bind]
  dsimp only
  rw [hgetD]
  exact compareKeys_halve hwhole htarget lo _ hi

/-- The first group that does not start below the target. -/
def cutoff (gs : List (List (Bytes × Bytes))) (target : Bytes) : Nat :=
  Search.search gs.length fun i => decide (IKeyBytesLe target (firstKey (gs.getD i [])))

theorem Over.seek (h : Over it gs) (htarget : WholeKey target)
    (hcut : cutoff gs target ≤ gs.length) :
    it.seek target = .ok { it with
      pos := (encodeGroups (gs.take (cutoff gs target - 1))).length, hasKey := false } := by
  have hloop : Checked.loop .endless (it.seekStep target) (gs.length + 1) (0, gs.length) =
      .ok (some (cutoff gs target)) := by
    refine loop_search some (fun lo hi hend => ?_) fun lo hi hlt hhi =>
      h.seekStep htarget hlt hhi
    rw [DataBlockIter.seekStep]
    exact if_neg hend
  rw [DataBlockIter.seek, h.nRestart, hloop, ok_bind]
  dsimp only
  split_ifs with hnone
  · rw [length_eq_zero_iff.1 hnone]
    rfl
  · rw [h.restartOffset (by omega)]
    rfl

theorem firstKey_mem {g : List (Bytes × Bytes)} (h : g ≠ []) :
    ∃ e es, g = e :: es ∧ firstKey g = e.1 := by
  obtain ⟨e, es, rfl⟩ := exists_cons_of_ne_nil h
  exact ⟨e, es, rfl, rfl⟩

def KeysAscend (es : List (Bytes × Bytes)) : Prop := es.Pairwise fun a b => ¬ IKeyBytesLe b.1 a.1

section

variable (h : KeysAscend gs.flatten)
include h

theorem KeysAscend.group_lt (hne : ∀ g ∈ gs, g ≠ []) {j : Nat}
    (hij : i < j) (hj : j < gs.length) {e : Bytes × Bytes} (he : e ∈ gs.getD i []) :
    ¬ IKeyBytesLe (firstKey (gs.getD j [])) e.1 := by
  have hgroups := (pairwise_flatten.1 h).2
  have hi : i < gs.length := by omega
  have hi' : gs.getD i [] = gs[i] := by simp [hi]
  have hj' : gs.getD j [] = gs[j] := by simp [hj]
  obtain ⟨f, fs, hg, hfirst⟩ := firstKey_mem (hne _ (getElem_mem hj))
  rw [hi'] at he
  rw [hj', hfirst]
  exact pairwise_iff_getElem.1 hgroups i j hi hj hij e he f (by rw [hg]; exact mem_cons_self)

theorem KeysAscend.first_le (hi : i < gs.length)
    {e : Bytes × Bytes} (he : e ∈ gs.getD i []) : IKeyBytesLe (firstKey (gs.getD i [])) e.1 := by
  have hi' : gs.getD i [] = gs[i] := by simp [hi]
  have hgroup := (pairwise_flatten.1 h).1 _ (getElem_mem hi)
  rw [hi'] at he ⊢
  obtain ⟨f, fs, hg, hfirst⟩ := firstKey_mem (ne_nil_of_mem he)
  rw [hfirst]
  rw [hg] at hgroup he
  rcases mem_cons.1 he with rfl | he
  · exact Std.Refl.refl _
  · exact IKeyBytesLe.of_not ((pairwise_cons.1 hgroup).1 e he)

theorem KeysAscend.first_mono (hne : ∀ g ∈ gs, g ≠ []) {j : Nat}
    (hij : i ≤ j) (hj : j < gs.length) :
    IKeyBytesLe (firstKey (gs.getD i [])) (firstKey (gs.getD j [])) := by
  rcases Nat.lt_or_eq_of_le hij with hlt | rfl
  · have hi : i < gs.length := by omega
    have hi' : gs.getD i [] = gs[i] := by simp [hi]
    obtain ⟨e, es, hg, hfirst⟩ := firstKey_mem (hne _ (getElem_mem hi))
    have he : e ∈ gs.getD i [] := by
      rw [hi', hg]
      exact mem_cons_self
    rw [hi', hfirst]
    exact IKeyBytesLe.of_not (h.group_lt hne hlt hj he)
  · exact Std.Refl.refl _

theorem cutoff_spec (hne : ∀ g ∈ gs, g ≠ []) (target : Bytes) :
    cutoff gs target ≤ gs.length ∧
      (∀ i, i < cutoff gs target → ¬ IKeyBytesLe target (firstKey (gs.getD i []))) ∧
      ∀ i, cutoff gs target ≤ i → i < gs.length → IKeyBytesLe target (firstKey (gs.getD i [])) := by
  have hmono : ∀ a b, a ≤ b → b < gs.length →
      decide (IKeyBytesLe target (firstKey (gs.getD a []))) = true →
      decide (IKeyBytesLe target (firstKey (gs.getD b []))) = true := by
    intro a b hab hb ha
    rw [decide_eq_true_eq] at ha ⊢
    exact Trans.trans ha (h.first_mono hne hab hb)
  obtain ⟨hle, hlow, hhigh⟩ := Search.search_spec hmono
  exact ⟨hle, fun i hi => of_decide_eq_false (hlow i hi),
    fun i hi hlt => of_decide_eq_true (hhigh i hi hlt)⟩

end

theorem Over.seek_yields (h : Over it gs) (hsorted : KeysAscend gs.flatten)
    (htarget : WholeKey target) :
    ∃ it' before cur after, it.seek target = .ok it' ∧ Yields it' (cur ++ after) ∧
      before ++ (cur ++ after) = gs.flatten ∧ (cur = [] ∨ cur ∈ gs) ∧
      (∀ e ∈ before, ¬ IKeyBytesLe target e.1) ∧ ∀ e ∈ after, IKeyBytesLe target e.1 := by
  obtain ⟨hcut, hbelow, habove⟩ := cutoff_spec hsorted h.nonempty target
  have hseek := h.seek htarget hcut
  generalize cutoff gs target = n at hcut hbelow habove hseek
  have hyields : Yields { it with
      pos := (encodeGroups (gs.take (n - 1))).length, hasKey := false } (gs.drop (n - 1)).flatten :=
        by
    refine yields_groups (encodeGroups (gs.take (n - 1))) ?_ rfl ?_ ?_
    · change it.entries = _
      rw [h.entries, ← encodeGroups_append, take_append_drop]
    · intro e he
      obtain ⟨g, hg, he⟩ := mem_flatten.1 he
      have hshort := h.keys e (mem_flatten.2 ⟨g, mem_of_mem_drop hg, he⟩)
      omega
    · exact Nat.lt_trans h.short (by decide)
  have hafter : ∀ e ∈ (gs.drop n).flatten, IKeyBytesLe target e.1 := by
    intro e he
    obtain ⟨g, hg, he⟩ := mem_flatten.1 he
    obtain ⟨i, hi, rfl⟩ := mem_drop_iff_getElem.1 hg
    have hlt : n + i < gs.length := by omega
    have hget : gs.getD (n + i) [] = gs[n + i] := by simp [hlt]
    exact Trans.trans (habove (n + i) (by omega) hlt)
      (hsorted.first_le hlt (by rw [hget]; exact he))
  cases n with
  | zero => exact ⟨_, [], [], gs.flatten, hseek, hyields, rfl, .inl rfl, by simp, hafter⟩
  | succ m =>
    have hm : m < gs.length := by omega
    rw [Nat.add_sub_cancel] at hseek hyields
    rw [drop_eq_getElem_cons hm, flatten_cons] at hyields
    refine ⟨_, (gs.take m).flatten, gs[m], (gs.drop (m + 1)).flatten, hseek, hyields, ?_,
      .inr (getElem_mem hm), ?_, hafter⟩
    · rw [← flatten_cons, ← drop_eq_getElem_cons hm, ← flatten_append,
        take_append_drop]
    · intro e he hle
      obtain ⟨g, hg, he⟩ := mem_flatten.1 he
      obtain ⟨i, hi, rfl⟩ := mem_take_iff_getElem.1 hg
      have hget : gs.getD i [] = gs[i] := by simp [show i < gs.length by omega]
      have hlt := hsorted.group_lt h.nonempty (show i < m by omega) hm (by rw [hget]; exact he)
      exact hbelow m (Nat.lt_succ_self m) (Trans.trans hle (IKeyBytesLe.of_not hlt))

def blockPayload (interval : Nat) (es : List (Bytes × Bytes)) : Bytes :=
  ((DataBlockBuilder.new interval).addAll es).finish

theorem over_blockPayload {interval : Nat}
    (hshort : (blockPayload interval es).length < 2 ^ 32) (hwhole : ∀ e ∈ es, WholeKey e.1) :
    ∃ entries restarts n gs, splitDataBlock (blockPayload interval es) =
    .ok (entries, restarts, n) ∧
      Over (start entries restarts n) gs ∧ gs.flatten = es ∧
      ∀ g ∈ gs, g.length ≤ (DataBlockBuilder.new interval).restartEvery := by
  obtain ⟨gs, hgroups, hflat⟩ := grouped_addAll interval es
  have hcount : ((DataBlockBuilder.new interval).addAll es).allRestarts.length = gs.length := by
    rw [hgroups.restarts]
    simp [starts]
  have hbuf : ((DataBlockBuilder.new interval).addAll es).buf.length < 2 ^ 32 := by
    rw [blockPayload, finish, length_append] at hshort
    omega
  exact ⟨_, _, _, gs, splitDataBlock_finish hshort,
    ⟨hgroups.buf, congrArg encodeRestarts hgroups.restarts, hcount, hbuf,
      fun g hg => (hgroups.group g hg).1, by rw [hflat]; exact hwhole⟩,
    hflat, fun g hg => (hgroups.group g hg).2⟩

theorem Over.yields_reset {entries restarts : Bytes} {n : Nat}
    (h : Over (start entries restarts n) gs)
    (it : DataBlockIter) : Yields (it.resetEntries entries) gs.flatten := by
  refine yields_groups [] ?_ rfl ?_ (Nat.lt_trans h.short (by decide))
  · exact h.entries
  · intro e he
    exact Nat.lt_trans (h.keys e he) (by decide)

/-- Calls `next` to the end of the block: the entries read and the error it stops with. -/
def drain : Nat → DataBlockIter → Option (List (Bytes × Bytes) × Option Err)
  | 0, _ => none
  | fuel + 1, it =>
    match it.next with
    | .error err => some ([], some err)
    | .ok none => some ([], none)
    | .ok (some it') => (it'.drain fuel).map fun r => ((it'.key, it'.value) :: r.1, r.2)

theorem Yields.drain {it : DataBlockIter} (h : it.Yields es) {fuel : Nat}
    (hfuel : es.length < fuel) : it.drain fuel = some (es, none) := by
  induction es generalizing it fuel with
  | nil =>
    obtain ⟨fuel, rfl⟩ := Nat.exists_eq_add_one.2 hfuel
    have hnext : it.next = .ok none := h
    rw [DataBlockIter.drain, hnext]
  | cons e es ih =>
    obtain ⟨fuel, rfl⟩ := Nat.exists_eq_add_one.2 (Nat.zero_lt_of_lt hfuel)
    obtain ⟨it', hnext, hkey, hvalue, hrest⟩ := h
    rw [length_cons] at hfuel
    rw [DataBlockIter.drain, hnext]
    dsimp only
    rw [ih hrest (by omega), hkey, hvalue]
    rfl

/-- Seeking in a built block skips no entry at or past the target, and reads at most one
restart interval of entries in front of it. -/
theorem block_seek {interval : Nat} (hinterval : 1 ≤ interval) {es : List (Bytes × Bytes)}
    (hsorted : es.Pairwise fun a b => ikeyCompareBytes a.1 b.1 = some .lt)
    (hwhole : ∀ e ∈ es, WholeKey e.1) (hshort : (blockPayload interval es).length < 2 ^ 32)
    {target : Bytes} (htarget : WholeKey target) :
    ∃ entries restarts n it skipped tail,
      splitDataBlock (blockPayload interval es) = .ok (entries, restarts, n) ∧
        (start entries restarts n).seek target = .ok it ∧
        (∀ fuel, tail.length < fuel → it.drain fuel = some (tail, none)) ∧
        skipped ++ tail = es ∧
        (∀ e ∈ skipped, ikeyCompareBytes e.1 target = some .lt) ∧
        (tail.filter fun e => ikeyCompareBytes e.1 target = some .lt).length ≤ interval := by
  obtain ⟨entries, restarts, n, gs, hsplit, hover, hflat, hgroups⟩ :=
    over_blockPayload hshort hwhole
  have hascend : KeysAscend gs.flatten := by
    rw [hflat]
    refine hsorted.imp_of_mem fun ha hb hlt => ?_
    exact (ikeyCompareBytes_lt_iff (hwhole _ ha) (hwhole _ hb)).1 hlt
  obtain ⟨it, before, cur, after, hseek, hyields, hparts, hcur, hbefore, hafter⟩ :=
    hover.seek_yields hascend htarget
  rw [hflat] at hparts
  have hmem : ∀ e ∈ before ++ (cur ++ after), WholeKey e.1 := hparts ▸ hwhole
  refine ⟨entries, restarts, n, it, before, cur ++ after, hsplit, hseek,
    fun fuel hfuel => hyields.drain hfuel, hparts, ?_, ?_⟩
  · intro e he
    exact (ikeyCompareBytes_lt_iff (hmem e (mem_append_left _ he)) htarget).2 (hbefore e he)
  · have hnone : (after.filter fun e => ikeyCompareBytes e.1 target = some .lt) = [] := by
      rw [filter_eq_nil_iff]
      intro e he hlt
      have hwholeE := hmem e (mem_append_right _ (mem_append_right _ he))
      exact (ikeyCompareBytes_lt_iff hwholeE htarget).1 (of_decide_eq_true hlt) (hafter e he)
    rw [filter_append, hnone, append_nil]
    refine (length_filter_le _ _).trans ?_
    cases hcur with
    | inl hempty => simp [hempty]
    | inr hgroup =>
      have hevery : (DataBlockBuilder.new interval).restartEvery = interval := if_pos hinterval
      exact hevery ▸ hgroups cur hgroup

def threeVersions : List (Bytes × Bytes) :=
  [(ikeyEncode ⟨[97], 3, .set⟩, [1]), (ikeyEncode ⟨[97], 2, .set⟩, [2]),
    (ikeyEncode ⟨[97], 1, .set⟩, [3])]

theorem block_seek_threeVersions :
    ∃ entries restarts n it skipped tail,
      splitDataBlock (blockPayload 2 threeVersions) = .ok (entries, restarts, n) ∧
        (start entries restarts n).seek (ikeyEncode (ikeyLookupKey [97] 1)) = .ok it ∧
        (∀ fuel, tail.length < fuel → it.drain fuel = some (tail, none)) ∧
        skipped ++ tail = threeVersions :=
  have ⟨entries, restarts, n, it, skipped, tail, hsplit, hseek, hdrain, hparts, _⟩ :=
    block_seek (show 1 ≤ 2 by decide) (show threeVersions.Pairwise _ by decide +kernel)
      (by decide +kernel) (by decide +kernel) (wholeKey_encode (ikeyLookupKey [97] 1))
  ⟨entries, restarts, n, it, skipped, tail, hsplit, hseek, hdrain, hparts⟩

end DataBlockIter

end LevisDB
