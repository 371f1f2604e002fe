import LevisDB.Core.Versions
import LevisDB.Lib.KMerge
import LevisDB.Storage.Bloom

/-!
# Tables

An on-disk table as its reader presents it: the point entries in strictly
ascending internal-key order, the range tombstones of the meta-block, and the
bloom filter over the user keys. A `TableReader` carries both facts its writer
establishes, so a table out of order or with a filter that rejects one of its
keys cannot be built. Block layout and compression sit below this level: the
index and the restart points only skip entries in front of the lookup key, and
file sizes come from the `TableFormat` parameter.
-/

namespace LevisDB

open List

/-- A read failure of a table file: of its metadata blocks, or of every data
block from the `readable`-th entry on. -/
inductive ReadFault where
  | metadata (err : Err)
  | data (readable : Nat) (err : Err)
  deriving DecidableEq

structure TableReader where
  points : List Entry
  rangeDel : List RangeTombstone
  filter : Bytes
  fault : Option ReadFault
  sorted : points.Pairwise fun a b => a.toIKey < b.toIKey
  admits : ∀ e ∈ points, bloomMayContain filter (bloomHash e.user) = true

namespace TableReader

theorem sorted_le (r : TableReader) : r.points.Pairwise IKeyOrder :=
  r.sorted.imp fun h => le_of_lt h

def rangeTombstones (r : TableReader) : Except Err (List RangeTombstone) :=
  match r.fault with
  | some (.metadata err) => .error err
  | _ => .ok r.rangeDel

/-- How a table reads the entry its scan stopped at. -/
def entryVersion (e : Entry) (now : Time) : Except Err VersionAt :=
  match e.kind with
  | .delete => .ok (.tombstone e.seq)
  | .set => .ok ⟨e.value, e.seq, false, 0, none⟩
  | .blobRef =>
    match decodeBlobPointer e.value with
    | .error err => .error (.wrapped "table" err)
    | .ok ptr =>
      if ptr.expiresAt ≠ 0 ∧ ptr.expiresAt ≤ now then .ok (.tombstone e.seq)
      else .ok ⟨[], e.seq, false, ptr.expiresAt, some ptr⟩
  | .setTTL =>
    match decodeExpiringValue e.value with
    | .error err => .error (.wrapped "table" err)
    | .ok (value, expiresAt) =>
      if expiresAt ≤ now then .ok (.tombstone e.seq)
      else .ok ⟨value, e.seq, false, expiresAt, none⟩

def scan (userKey : Key) (seq : Nat) (now : Time) : List Entry → Except Err (Option VersionAt)
  | [] => .ok none
  | e :: es =>
    if userKey < e.user then .ok none
    else if e.user < userKey then scan userKey seq now es
    else if seq < e.seq then scan userKey seq now es
    else (entryVersion e now).map some

/-- The scan behind the bloom gate; it reads the block of the first entry at or
after the lookup key. -/
def lookupPastBloom (r : TableReader) (userKey : Key) (seq : Nat) (now : Time) :
    Except Err (Option VersionAt) :=
  let block := r.points.findIdx fun e => decide (ikeyLookupKey userKey seq ≤ e.toIKey)
  match r.fault with
  | some (.data readable err) =>
    if readable ≤ block ∧ block < r.points.length then .error err
    else scan userKey seq now r.points
  | _ => scan userKey seq now r.points

def lookupAtTime (r : TableReader) (userKey : Key) (seq : Nat) (now : Time) :
    Except Err (Option VersionAt) :=
  match r.fault with
  | some (.metadata err) => .error err
  | _ =>
    if bloomMayContain r.filter (bloomHash userKey) = false then .ok none
    else r.lookupPastBloom userKey seq now

/-- The entries an iterator over the table yields, and the error it ends with. -/
def newIterator (r : TableReader) : KMerge.Source Entry Err :=
  match r.fault with
  | none => ⟨r.points, none⟩
  | some (.metadata err) => ⟨[], some err⟩
  | some (.data readable err) =>
    if readable < r.points.length then ⟨r.points.take readable, some err⟩ else ⟨r.points, none⟩

theorem newIterator_items {r : TableReader} (h : r.newIterator.err = none) :
    r.newIterator.items = r.points := by
  unfold newIterator at h ⊢
  cases hf : r.fault with
  | none => rfl
  | some fault =>
    rw [hf] at h
    cases fault with
    | metadata err => cases h
    | data readable err =>
      simp only at h ⊢
      split_ifs at h ⊢
      rfl

theorem newIterator_items_sublist (r : TableReader) :
    r.newIterator.items.Sublist r.points := by
  unfold newIterator
  cases r.fault with
  | none => exact List.Sublist.refl _
  | some fault =>
    cases fault with
    | metadata err => exact nil_sublist _
    | data readable err =>
      dsimp only
      split_ifs
      · exact take_sublist _ _
      · exact List.Sublist.refl _

theorem newIterator_items_before (r : TableReader) {b e : Entry} (hb : b ∈ r.newIterator.items)
    (he : e ∈ r.points) (hhidden : e ∉ r.newIterator.items) : b.user ≤ e.user := by
  unfold newIterator at hb hhidden
  cases hf : r.fault with
  | none =>
    rw [hf] at hhidden
    exact absurd he hhidden
  | some fault =>
    rw [hf] at hb hhidden
    cases fault with
    | metadata err => cases hb
    | data readable err =>
      dsimp only at hb hhidden
      split_ifs at hb hhidden
      · have hsplit := take_append_drop readable r.points
        have hdrop : e ∈ r.points.drop readable := by
          rw [← hsplit] at he
          exact (mem_append.1 he).resolve_left hhidden
        have hsorted := r.sorted_le
        rw [← hsplit, pairwise_append] at hsorted
        exact (hsorted.2.2 b hb e hdrop).user_le
      · exact absurd he hhidden

theorem newIterator_sorted (r : TableReader) : r.newIterator.items.Pairwise IKeyOrder :=
  r.sorted_le.sublist r.newIterator_items_sublist

theorem entryVersion_eq {e : Entry} (h : e.payload.Decodes) (now : Time) :
    entryVersion e now = .ok (e.versionAt now) := by
  unfold Payload.Decodes at h
  unfold entryVersion Entry.versionAt Payload.liveAt
  unfold Entry.payload at h ⊢
  cases hk : e.kind with
  | delete => rfl
  | set => rfl
  | blobRef =>
    simp only [hk] at h ⊢
    obtain ⟨ptr, hptr, _⟩ := h
    simp only [hptr]
    split_ifs <;> rfl
  | setTTL =>
    simp only [hk] at h ⊢
    obtain ⟨⟨value, expiresAt⟩, hr⟩ := h
    simp only [hr]
    split_ifs <;> rfl

/-- What a lookup reports of the version it is to find, if there is one. -/
def bestVersion (best : Option Entry) (now : Time) : Except Err (Option VersionAt) :=
  match best with
  | none => .ok none
  | some e => (entryVersion e now).map some

theorem scan_newest {es : List Entry} (hsorted : es.Pairwise IKeyOrder) (userKey : Key) (seq : Nat)
    (now : Time) :
    scan userKey seq now es = bestVersion (newestVersion userKey seq es) now := by
  induction es with
  | nil => rfl
  | cons a es ih =>
    rw [pairwise_cons] at hsorted
    have hskip : ¬ (a.user = userKey ∧ a.seq ≤ seq) →
        newestVersion userKey seq (a :: es) = newestVersion userKey seq es := by
      intro h
      exact List.find?_cons_of_neg (by simpa using h)
    unfold scan
    split_ifs with hgt hlt hseq
    · have hnone : newestVersion userKey seq (a :: es) = none := by
        refine newestVersion_eq_none ?_
        intro e he huser
        rcases mem_cons.1 he with rfl | he
        · exact absurd huser.symm (ne_of_lt hgt)
        · have hle := (hsorted.1 e he).user_le
          exact absurd (lt_of_lt_of_le hgt hle) (by simp [huser])
      rw [hnone]
      rfl
    · rw [hskip (by rintro ⟨h, _⟩; exact ne_of_lt hlt h), ih hsorted.2]
    · rw [hskip (by rintro ⟨_, h⟩; omega), ih hsorted.2]
    · have huser : a.user = userKey := le_antisymm (not_lt.1 hgt) (not_lt.1 hlt)
      have hhit : newestVersion userKey seq (a :: es) = some a :=
        List.find?_cons_of_pos (by simp [huser, Nat.not_lt.1 hseq])
      rw [hhit]
      rfl

theorem scan_eq {es : List Entry} (hsorted : es.Pairwise IKeyOrder)
    (hdec : ∀ e ∈ es, e.payload.Decodes) (userKey : Key) (seq : Nat) (now : Time) :
    scan userKey seq now es =
      .ok ((newestVersion userKey seq es).map fun e => e.versionAt now) := by
  rw [scan_newest hsorted]
  cases h : newestVersion userKey seq es with
  | none => rfl
  | some e =>
    have hmem := List.mem_of_find?_eq_some h
    rw [bestVersion, entryVersion_eq (hdec e hmem)]
    rfl

theorem lookupAtTime_eq {r : TableReader} (hfault : r.fault = none)
    (hdec : ∀ e ∈ r.points, e.payload.Decodes) (userKey : Key) (seq : Nat) (now : Time) :
    r.lookupAtTime userKey seq now =
      .ok ((newestVersion userKey seq r.points).map fun e => e.versionAt now) := by
  unfold lookupAtTime lookupPastBloom
  simp only [hfault]
  split_ifs with hbloom
  · have hnone : newestVersion userKey seq r.points = none := by
      refine newestVersion_eq_none ?_
      rintro e he rfl
      rw [r.admits e he] at hbloom
      cases hbloom
    rw [hnone]
    rfl
  · exact scan_eq r.sorted_le hdec userKey seq now

theorem rangeTombstones_eq {r : TableReader} (hfault : r.fault = none) :
    r.rangeTombstones = .ok r.rangeDel := by
  simp [rangeTombstones, hfault]

end TableReader

/-- A live table, its tier and the bounds recorded for its user keys. A missing
bound is unknown and covers everything. -/
structure TableMeta where
  num : Nat
  depth : Nat
  reader : TableReader
  size : Nat
  minKey : Option Key
  maxKey : Option Key
  entries : Nat
  tombstones : Nat

namespace TableMeta

def points (t : TableMeta) : List Entry := t.reader.points

def rangeDels (t : TableMeta) : List RangeTombstone := t.reader.rangeDel

end TableMeta

/-- The key can lie in `[minKey, maxKey]`. -/
def boundsContain (minKey maxKey : Option Key) (key : Key) : Bool :=
  (match minKey with
    | some k => decide (k ≤ key)
    | none => true) &&
  (match maxKey with
    | some k => decide (key ≤ k)
    | none => true)

theorem boundsContain_iff {minKey maxKey : Option Key} {key : Key} :
    boundsContain minKey maxKey key = true ↔
      (∀ k, minKey = some k → k ≤ key) ∧ (∀ k, maxKey = some k → key ≤ k) := by
  unfold boundsContain
  cases minKey <;> cases maxKey <;> simp

namespace TableMeta

def mayContain (t : TableMeta) (key : Key) : Bool := boundsContain t.minKey t.maxKey key

def overlapsRange (t : TableMeta) (start stop : Option Key) : Bool :=
  (match stop, t.minKey with
    | some e, some k => decide (k ≤ e)
    | _, _ => true) &&
  (match start, t.maxKey with
    | some s, some k => decide (s ≤ k)
    | _, _ => true)

/-- The recorded bounds cover every point and every key of every range tombstone. -/
structure Bounded (t : TableMeta) : Prop where
  points : ∀ e ∈ t.points, t.mayContain e.user = true
  rangeDels : ∀ rt ∈ t.rangeDels, ∀ k, rt.Contains k → t.mayContain k = true

end TableMeta

/-- What the block format and the codec decide: the size of a finished file, and
the size projected for the entries written so far (`bytesWritten` plus
`estimatedTrailerBytes`), on which compaction output rolls. -/
structure TableFormat where
  fileSize : List Entry → List RangeTombstone → Nat
  projected : List Entry → Nat

structure TableWriter where
  added : List Entry
  sorted : added.Pairwise fun a b => a.toIKey < b.toIKey

namespace TableWriter

def new : TableWriter := ⟨[], List.Pairwise.nil⟩

theorem sorted_concat {es : List Entry} {e : Entry}
    (hes : es.Pairwise fun a b => a.toIKey < b.toIKey)
    (hlast : ∀ l ∈ es.getLast?, l.toIKey < e.toIKey) :
    (es ++ [e]).Pairwise fun a b => a.toIKey < b.toIKey := by
  rw [pairwise_append]
  refine ⟨hes, pairwise_singleton _ _, ?_⟩
  intro a ha b hb
  obtain rfl := mem_singleton.1 hb
  rcases eq_nil_or_concat es with rfl | ⟨init, l, rfl⟩
  · simp at ha
  · have hl : l.toIKey < b.toIKey := hlast l (by simp)
    rw [concat_eq_append, pairwise_append] at hes
    have ha' : a ∈ init ∨ a = l := by simpa using ha
    rcases ha' with ha' | rfl
    · exact lt_trans (hes.2.2 a ha' l (by simp)) hl
    · exact hl

def add (w : TableWriter) (e : Entry) : Except Err TableWriter :=
  if h : ∀ l ∈ w.added.getLast?, l.toIKey < e.toIKey then
    .ok ⟨w.added ++ [e], sorted_concat w.sorted h⟩
  else .error .keysOutOfOrder

def minUserKey (w : TableWriter) : Option Key := w.added.head?.map (·.user)

def maxUserKey (w : TableWriter) : Option Key := w.added.getLast?.map (·.user)

def finish (w : TableWriter) (bloomBits : Int) (rts : List RangeTombstone) : TableReader where
  points := w.added
  rangeDel := rts
  filter := (newBloom bloomBits).build (w.added.map fun e => bloomHash e.user)
  fault := none
  sorted := w.sorted
  admits := by
    intro e he
    exact bloomMayContain_build _ (List.mem_map.2 ⟨e, he, rfl⟩)

theorem add_eq_ok {w w' : TableWriter} {e : Entry} (h : w.add e = .ok w') :
    w'.added = w.added ++ [e] := by
  unfold add at h
  split at h
  · cases h
    rfl
  · cases h

end TableWriter

def widenBound (bounds : Option Key × Option Key) (rt : RangeTombstone) :
    Option Key × Option Key :=
  (match bounds.1 with
    | none => some rt.start
    | some k => if rt.start < k then some rt.start else some k,
   match bounds.2 with
    | none => some rt.stop
    | some k => if k < rt.stop then some rt.stop else some k)

/-- `append([]byte(nil), key...)`: the copy of an empty key is nil. -/
def copyBound : Option Key → Option Key
  | some [] => none
  | bound => bound

def widenBoundsForRangeDels (minKey maxKey : Option Key) (rts : List RangeTombstone) :
    Option Key × Option Key :=
  let bounds := rts.foldl widenBound (minKey, maxKey)
  (copyBound bounds.1, copyBound bounds.2)

def finishTable (fmt : TableFormat) (bloomBits : Int) (num depth : Nat) (w : TableWriter)
    (rts : List RangeTombstone) : TableMeta :=
  let bounds := widenBoundsForRangeDels w.minUserKey w.maxUserKey rts
  { num := num
    depth := depth
    reader := w.finish bloomBits rts
    size := fmt.fileSize w.added rts
    minKey := bounds.1
    maxKey := bounds.2
    entries := w.added.length
    tombstones := (w.added.filter fun e => decide (e.kind = .delete)).length }

section WidenBound

variable {rts : List RangeTombstone} {bounds : Option Key × Option Key} {k : Key}

theorem foldl_widenBound (le : Key → Key → Prop) [IsPreorder Key le]
    (bound : Option Key × Option Key → Option Key) (key : RangeTombstone → Key)
    (hstep : ∀ bounds rt, ∃ k, bound (widenBound bounds rt) = some k ∧ le k (key rt) ∧
      ∀ k₀, bound bounds = some k₀ → le k k₀)
    (h : bound (rts.foldl widenBound bounds) = some k) :
    (∀ k₀, bound bounds = some k₀ → le k k₀) ∧ ∀ rt ∈ rts, le k (key rt) := by
  induction rts generalizing bounds with
  | nil =>
    refine ⟨?_, by simp⟩
    intro k₀ hk₀
    rw [foldl_nil, hk₀] at h
    exact Option.some.inj h ▸ refl k₀
  | cons rt rts ih =>
    obtain ⟨hinit, hrest⟩ := ih h
    obtain ⟨k₁, hk₁, hkey, hold⟩ := hstep bounds rt
    have hle := hinit k₁ hk₁
    refine ⟨fun k₀ hk₀ => IsTrans.trans _ _ _ hle (hold k₀ hk₀), ?_⟩
    intro rt' hrt'
    rcases mem_cons.1 hrt' with rfl | hrt'
    · exact IsTrans.trans _ _ _ hle hkey
    · exact hrest rt' hrt'

theorem foldl_widenBound_fst (h : (rts.foldl widenBound bounds).1 = some k) :
    (∀ k₀, bounds.1 = some k₀ → k ≤ k₀) ∧ ∀ rt ∈ rts, k ≤ rt.start := by
  refine foldl_widenBound (· ≤ ·) Prod.fst (·.start) (fun bounds rt => ?_) h
  unfold widenBound
  cases bounds.1 with
  | none => simp
  | some k₀ => by_cases hlt : rt.start < k₀ <;> simp [hlt, le_of_lt, not_lt.1]

theorem foldl_widenBound_snd (h : (rts.foldl widenBound bounds).2 = some k) :
    (∀ k₀, bounds.2 = some k₀ → k₀ ≤ k) ∧ ∀ rt ∈ rts, rt.stop ≤ k := by
  refine foldl_widenBound (· ≥ ·) Prod.snd (·.stop) (fun bounds rt => ?_) h
  unfold widenBound
  cases bounds.2 with
  | none => simp
  | some k₀ => by_cases hlt : k₀ < rt.stop <;> simp [hlt, le_of_lt, not_lt.1]

end WidenBound

theorem copyBound_eq_some {bound : Option Key} {k : Key} (h : copyBound bound = some k) :
    bound = some k := by
  unfold copyBound at h
  split at h
  · cases h
  · exact h

theorem TableWriter.minUserKey_le {w : TableWriter} {k : Key} (h : w.minUserKey = some k)
    {e : Entry} (he : e ∈ w.added) : k ≤ e.user := by
  obtain ⟨added, hsorted⟩ := w
  cases added with
  | nil => simp at he
  | cons a es =>
    obtain rfl : a.user = k := by simpa [minUserKey] using h
    rcases mem_cons.1 he with rfl | he
    · exact le_refl _
    · have hlt := (pairwise_cons.1 hsorted).1 e he
      exact IKeyOrder.user_le (le_of_lt hlt)

theorem TableWriter.le_maxUserKey {w : TableWriter} {k : Key} (h : w.maxUserKey = some k)
    {e : Entry} (he : e ∈ w.added) : e.user ≤ k := by
  obtain ⟨added, hsorted⟩ := w
  rcases eq_nil_or_concat added with rfl | ⟨init, l, rfl⟩
  · simp at he
  · obtain rfl : l.user = k := by simpa [maxUserKey] using h
    have he' : e ∈ init ∨ e = l := by simpa using he
    rcases he' with he' | rfl
    · rw [concat_eq_append, pairwise_append] at hsorted
      exact IKeyOrder.user_le (le_of_lt (hsorted.2.2 e he' l (by simp)))
    · exact le_refl _

theorem TableWriter.exists_minUserKey {w : TableWriter} {e : Entry} (he : e ∈ w.added) :
    ∃ k, w.minUserKey = some k := by
  obtain ⟨added, _⟩ := w
  cases added with
  | nil => simp at he
  | cons a es => exact ⟨a.user, rfl⟩

theorem TableWriter.exists_maxUserKey {w : TableWriter} {e : Entry} (he : e ∈ w.added) :
    ∃ k, w.maxUserKey = some k := by
  obtain ⟨added, _⟩ := w
  rcases eq_nil_or_concat added with rfl | ⟨init, l, rfl⟩
  · simp at he
  · exact ⟨l.user, by simp [maxUserKey]⟩

theorem finishTable_bounded (fmt : TableFormat) (bloomBits : Int) (num depth : Nat)
    (w : TableWriter) (rts : List RangeTombstone) :
    (finishTable fmt bloomBits num depth w rts).Bounded where
  points := by
    intro e he
    obtain ⟨kmin, hmin⟩ := TableWriter.exists_minUserKey he
    obtain ⟨kmax, hmax⟩ := TableWriter.exists_maxUserKey he
    refine boundsContain_iff.2 ⟨?_, ?_⟩
    · intro k hk
      have hle := (foldl_widenBound_fst (copyBound_eq_some hk)).1 kmin hmin
      exact le_trans hle (TableWriter.minUserKey_le hmin he)
    · intro k hk
      have hle := (foldl_widenBound_snd (copyBound_eq_some hk)).1 kmax hmax
      exact le_trans (TableWriter.le_maxUserKey hmax he) hle
  rangeDels := by
    intro rt hrt key hkey
    refine boundsContain_iff.2 ⟨?_, ?_⟩
    · intro k hk
      exact le_trans ((foldl_widenBound_fst (copyBound_eq_some hk)).2 rt hrt) hkey.1
    · intro k hk
      exact le_trans (le_of_lt hkey.2) ((foldl_widenBound_snd (copyBound_eq_some hk)).2 rt hrt)

end LevisDB
