import LevisDB.Engine.LevelIndex
import LevisDB.Storage.Memtable

/-!
# Engine state and the multi-version reference

The engine holds an active memtable, possibly an immutable one being flushed,
the memtables of a read-only recovery, and the live tables. What a database is
supposed to answer is stated over all their entries at once: the newest version
of the key at or below the read sequence, absent when it is a tombstone, past
its deadline, or hidden by a newer range tombstone the reader sees.
-/

namespace LevisDB

open List

variable {key : Key} {es : List Entry} {rts : List RangeTombstone} {seq : Nat} {best : Option Entry}
  {now : Time}

/-- The engine tuning the modelled functions read. `blobPath` says whether the
session configured a path for blob files; without one the function value is nil. -/
structure EngineConfig where
  memtableSize : Nat
  bloomBits : Int
  maxLevels : Nat
  valueThreshold : Int
  blobFileSize : Int
  blobPath : Bool
  deriving DecidableEq

structure Engine where
  cfg : EngineConfig
  alloc : Nat
  mem : Memtable
  imm : Option Memtable
  recoveryMems : List Memtable
  tables : List TableMeta
  /-- The blob files on disk, by number. -/
  blobs : List (Nat × Bytes)
  /-- Whether the last `Compact` merged anything. -/
  lastCompactionDone : Bool

def valueSeparationOn (s : Engine) : Bool := decide (0 < s.cfg.valueThreshold) && s.cfg.blobPath

/-- The next file number, none once the 32-bit namespace is exhausted. -/
def allocNext (alloc : Nat) : Option Nat := if alloc = 2 ^ 32 - 1 then none else some (alloc + 1)

def tablePoints (tables : List TableMeta) : List Entry := tables.flatMap (·.points)

def tableRangeDels (tables : List TableMeta) : List RangeTombstone := tables.flatMap (·.rangeDels)

def memPoints (mems : List Memtable) : List Entry := mems.flatMap (·.points)

def memRangeDels (mems : List Memtable) : List RangeTombstone := mems.flatMap (·.rts)

theorem mem_tablePoints {tables : List TableMeta} {e : Entry} :
    e ∈ tablePoints tables ↔ ∃ t ∈ tables, e ∈ t.points := mem_flatMap

theorem mem_tableRangeDels {tables : List TableMeta} {rt : RangeTombstone} :
    rt ∈ tableRangeDels tables ↔ ∃ t ∈ tables, rt ∈ t.rangeDels := mem_flatMap

theorem mem_memPoints {mems : List Memtable} {e : Entry} :
    e ∈ memPoints mems ↔ ∃ m ∈ mems, e ∈ m.points := mem_flatMap

theorem mem_memRangeDels {mems : List Memtable} {rt : RangeTombstone} :
    rt ∈ memRangeDels mems ↔ ∃ m ∈ mems, rt ∈ m.rts := mem_flatMap

namespace Engine

def memtables (s : Engine) : List Memtable := s.mem :: (s.imm.toList ++ s.recoveryMems)

def entries (s : Engine) : List Entry := memPoints s.memtables ++ tablePoints s.tables

def rangeDels (s : Engine) : List RangeTombstone :=
  memRangeDels s.memtables ++ tableRangeDels s.tables

def store (s : Engine) : Mvcc.Store Key Payload := storeOf s.entries s.rangeDels

end Engine

/-- One round of the search for the newest visible version. -/
def newerVersion (key : Key) (seq : Nat) (best : Option Entry) (e : Entry) : Option Entry :=
  if e.user = key ∧ e.seq ≤ seq then newer best (some e) else best

/-- What a read of `key` at `seq` and `now` should find among `es` and `rts`. -/
def visibleAt (es : List Entry) (rts : List RangeTombstone) (key : Key) (seq : Nat) (now : Time) :
    Option Live :=
  match es.foldl (newerVersion key seq) none with
  | none => none
  | some e => if rangeDeleted rts key e.seq seq then none else e.payload.liveAt now

def Engine.view (s : Engine) (seq : Nat) (now : Time) (key : Key) : Option Live :=
  visibleAt s.entries s.rangeDels key seq now

theorem IsNewestIn.newerVersion (h : IsNewestIn key seq es best) (e : Entry) :
    IsNewestIn key seq (es ++ [e]) (newerVersion key seq best e) := by
  unfold LevisDB.newerVersion
  split_ifs with hmatch
  · exact h.append ⟨by simp, hmatch.1, hmatch.2, by simp⟩
  · have hone : IsNewestIn key seq [e] none := by
      intro e' he' huser hseq
      obtain rfl := mem_singleton.1 he'
      exact hmatch ⟨huser, hseq⟩
    have := h.append hone
    cases best <;> exact this

theorem foldl_newerVersion_isNewestIn (es : List Entry)
    {seen : List Entry} (h : IsNewestIn key seq seen best) :
    IsNewestIn key seq (seen ++ es) (es.foldl (newerVersion key seq) best) := by
  induction es generalizing seen best with
  | nil => simpa using h
  | cons e es ih =>
    rw [append_cons, foldl_cons]
    exact ih (h.newerVersion e)

/-- Stored copies of one mutation mean the same to a reader at `now`. -/
def CopiesAgreeAt (now : Time) (es : List Entry) : Prop :=
  ∀ e ∈ es, ∀ e' ∈ es, e.user = e'.user → e.seq = e'.seq →
    e.payload.liveAt now = e'.payload.liveAt now

/-- Every stored copy of one mutation is the same record. -/
def CopiesIdentical (es : List Entry) : Prop :=
  ∀ e ∈ es, ∀ e' ∈ es, e.user = e'.user → e.seq = e'.seq → e = e'

instance (es : List Entry) : Decidable (CopiesIdentical es) :=
  inferInstanceAs (Decidable (∀ e ∈ es, ∀ e' ∈ es, e.user = e'.user → e.seq = e'.seq → e = e'))

theorem CopiesIdentical.agreeAt (h : CopiesIdentical es) (now : Time) :
    CopiesAgreeAt now es := by
  intro e he e' he' huser hseq
  rw [h e he e' he' huser hseq]

theorem visibleAt_eq (hcopies : CopiesAgreeAt now es)
    (hbest : IsNewestIn key seq es best) :
    visibleAt es rts key seq now =
      best.bind fun e => if rangeDeleted rts key e.seq seq then none else e.payload.liveAt now := by
  have hnil : IsNewestIn key seq [] none := by simp [IsNewestIn]
  have hfold := foldl_newerVersion_isNewestIn es hnil
  rw [nil_append] at hfold
  unfold visibleAt
  generalize es.foldl (newerVersion key seq) none = found at hfold
  cases found with
  | none =>
    cases best with
    | none => rfl
    | some b => exact absurd hbest.2.2.1 (hfold b hbest.1 hbest.2.1)
  | some f =>
    cases best with
    | none => exact absurd hfold.2.2.1 (hbest f hfold.1 hfold.2.1)
    | some b =>
      have heq : f.seq = b.seq :=
        Nat.le_antisymm (hbest.2.2.2 f hfold.1 hfold.2.1 hfold.2.2.1)
          (hfold.2.2.2 b hbest.1 hbest.2.1 hbest.2.2.1)
      have hlive := hcopies f hfold.1 b hbest.1 (hfold.2.1.trans hbest.2.1.symm) heq
      simp only [heq, hlive, Option.bind_some]

theorem storeOf_isNewest_iff {v : Mvcc.Version Key Payload} :
    (storeOf es rts).IsNewest key seq v ↔
      ∃ e, e.version = v ∧ IsNewestIn key seq es (some e) := by
  constructor
  · rintro ⟨⟨e, he, rfl⟩, huser, hseq, hmax⟩
    exact ⟨e, rfl, he, huser, hseq, fun e' he' hu hs => hmax e'.version ⟨e', he', rfl⟩ hu hs⟩
  · rintro ⟨e, rfl, he, huser, hseq, hmax⟩
    refine ⟨⟨e, he, rfl⟩, huser, hseq, ?_⟩
    rintro _ ⟨e', he', rfl⟩ hu hs
    exact hmax e' he' hu hs

theorem storeOf_uncovered_iff {version : Nat} :
    (storeOf es rts).Uncovered key version seq ↔ rangeDeleted rts key version seq = false := by
  rw [Bool.eq_false_iff, ne_eq, rangeDeleted_iff]
  simp [Mvcc.Store.Uncovered]

theorem sees_storeOf_iff (hcopies : CopiesAgreeAt now es) {x : Live} :
    (storeOf es rts).Sees Payload.liveAt key seq now x ↔
      visibleAt es rts key seq now = some x := by
  constructor
  · rintro ⟨v, hnew, hlive, hunc⟩
    obtain ⟨e, rfl, hbest⟩ := storeOf_isNewest_iff.1 hnew
    rw [visibleAt_eq hcopies hbest, Option.bind_some,
      if_neg (by simpa using storeOf_uncovered_iff.1 hunc)]
    exact hlive
  · intro h
    have hnil : IsNewestIn key seq [] none := by simp [IsNewestIn]
    have hfold := foldl_newerVersion_isNewestIn es hnil
    rw [nil_append] at hfold
    rw [visibleAt_eq hcopies hfold] at h
    generalize es.foldl (newerVersion key seq) none = found at hfold h
    cases found with
    | none => cases h
    | some e =>
      rw [Option.bind_some] at h
      split_ifs at h with hdel
      exact ⟨e.version, storeOf_isNewest_iff.2 ⟨e, rfl, hfold⟩, h,
        storeOf_uncovered_iff.2 (by simpa using hdel)⟩

theorem visibleAt_congr {es' : List Entry} {rts' : List RangeTombstone}
    (hcopies : CopiesAgreeAt now es) (hcopies' : CopiesAgreeAt now es')
    (h : ∀ x, (storeOf es rts).Sees Payload.liveAt key seq now x ↔
      (storeOf es' rts').Sees Payload.liveAt key seq now x) :
    visibleAt es rts key seq now = visibleAt es' rts' key seq now := by
  apply Option.ext
  intro x
  rw [← sees_storeOf_iff hcopies, ← sees_storeOf_iff hcopies', h]

end LevisDB
