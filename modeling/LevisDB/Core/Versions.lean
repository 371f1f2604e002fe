import LevisDB.Core.RangeTomb
import Mathlib.Data.List.Sort

/-!
# Versions of a key in a sorted source

Every source of entries, memtable or table, is a list in internal-key order.
The first entry of a user key at or below the read sequence is then its newest
visible version. `VersionAt` is what a lookup reports about that version, and
`storeOf` the multi-version store a source contributes to a read.
-/

namespace LevisDB

open List

variable {key : Key} {es es' : List Entry} {rts : List RangeTombstone} {seq : Nat}

def IKeyOrder (a b : Entry) : Prop := a.toIKey ≤ b.toIKey

instance : DecidableRel IKeyOrder := fun a b => inferInstanceAs (Decidable (a.toIKey ≤ b.toIKey))

instance : Std.Total IKeyOrder := ⟨fun a b => le_total a.toIKey b.toIKey⟩

instance : IsTrans Entry IKeyOrder := ⟨fun _ _ _ hab hbc => le_trans hab hbc⟩

theorem IKeyOrder.seq_le {a b : Entry} (h : IKeyOrder a b) (huser : a.user = b.user) :
    b.seq ≤ a.seq := by
  rcases IKey.le_def.1 h with hlt | ⟨_, ht⟩
  · exact absurd huser (ne_of_lt hlt)
  · have ha := a.kind.code_lt
    unfold IKey.trailer at ht
    omega

theorem IKeyOrder.user_le {a b : Entry} (h : IKeyOrder a b) : a.user ≤ b.user := by
  rcases IKey.le_def.1 h with hlt | ⟨heq, _⟩
  · exact le_of_lt hlt
  · exact le_of_eq heq

/-- `best` is the newest version of `key` at or below `seq` among `es`, if any. -/
def IsNewestIn (key : Key) (seq : Nat) (es : List Entry) : Option Entry → Prop
  | none => ∀ e ∈ es, e.user = key → ¬ e.seq ≤ seq
  | some b => b ∈ es ∧ b.user = key ∧ b.seq ≤ seq ∧
      ∀ e ∈ es, e.user = key → e.seq ≤ seq → e.seq ≤ b.seq

/-- The newer of two candidates; the first one on a tie. -/
def newer : Option Entry → Option Entry → Option Entry
  | none, b => b
  | some a, none => some a
  | some a, some b => if a.seq < b.seq then some b else some a

theorem IsNewestIn.append {a b : Option Entry}
    (ha : IsNewestIn key seq es a) (hb : IsNewestIn key seq es' b) :
    IsNewestIn key seq (es ++ es') (newer a b) := by
  cases a with
  | none =>
    cases b with
    | none =>
      intro e he
      rcases mem_append.1 he with he | he
      · exact ha e he
      · exact hb e he
    | some b =>
      obtain ⟨hmem, huser, hseq, hmax⟩ := hb
      refine ⟨mem_append_right _ hmem, huser, hseq, ?_⟩
      intro e he hu hs
      rcases mem_append.1 he with he | he
      · exact absurd hs (ha e he hu)
      · exact hmax e he hu hs
  | some a =>
    obtain ⟨hmem, huser, hseq, hmax⟩ := ha
    cases b with
    | none =>
      refine ⟨mem_append_left _ hmem, huser, hseq, ?_⟩
      intro e he hu hs
      rcases mem_append.1 he with he | he
      · exact hmax e he hu hs
      · exact absurd hs (hb e he hu)
    | some b =>
      obtain ⟨hmem', huser', hseq', hmax'⟩ := hb
      have hall : ∀ e ∈ es ++ es', e.user = key → e.seq ≤ seq →
          e.seq ≤ a.seq ∨ e.seq ≤ b.seq := by
        intro e he hu hs
        rcases mem_append.1 he with he | he
        · exact Or.inl (hmax e he hu hs)
        · exact Or.inr (hmax' e he hu hs)
      change IsNewestIn key seq (es ++ es') (if a.seq < b.seq then some b else some a)
      split_ifs with hlt
      · refine ⟨mem_append_right _ hmem', huser', hseq', ?_⟩
        intro e he hu hs
        rcases hall e he hu hs with h | h <;> omega
      · refine ⟨mem_append_left _ hmem, huser, hseq, ?_⟩
        intro e he hu hs
        rcases hall e he hu hs with h | h <;> omega

theorem IsNewestIn.congr {best : Option Entry}
    (h : IsNewestIn key seq es best)
    (hmem : ∀ e, e.user = key → (e ∈ es ↔ e ∈ es')) : IsNewestIn key seq es' best := by
  cases best with
  | none =>
    intro e he hu
    exact h e ((hmem e hu).2 he) hu
  | some b =>
    obtain ⟨hb, huser, hseq, hmax⟩ := h
    exact ⟨(hmem b huser).1 hb, huser, hseq, fun e he hu => hmax e ((hmem e hu).2 he) hu⟩

/-- The first version of `key` at or below `seq`. -/
def newestVersion (key : Key) (seq : Nat) (es : List Entry) : Option Entry :=
  es.find? fun e => decide (e.user = key ∧ e.seq ≤ seq)

theorem newestVersion_isNewestIn (hsorted : es.Pairwise IKeyOrder) (key : Key)
    (seq : Nat) : IsNewestIn key seq es (newestVersion key seq es) := by
  induction es with
  | nil => simp [newestVersion, IsNewestIn]
  | cons a es ih =>
    rw [pairwise_cons] at hsorted
    by_cases hmatch : a.user = key ∧ a.seq ≤ seq
    · have hfirst : newestVersion key seq (a :: es) = some a :=
        List.find?_cons_of_pos (by simpa using hmatch)
      rw [hfirst]
      refine ⟨by simp, hmatch.1, hmatch.2, ?_⟩
      intro e he huser _
      rcases mem_cons.1 he with rfl | he
      · exact Nat.le_refl _
      · exact (hsorted.1 e he).seq_le (hmatch.1.trans huser.symm)
    · have hskip : newestVersion key seq (a :: es) = newestVersion key seq es :=
        List.find?_cons_of_neg (by simpa using hmatch)
      have hone : IsNewestIn key seq [a] none := by
        intro e he huser hseq
        obtain rfl := mem_singleton.1 he
        exact hmatch ⟨huser, hseq⟩
      rw [hskip]
      exact hone.append (ih hsorted.2)

theorem newestVersion_eq_none
    (h : ∀ e ∈ es, e.user = key → ¬ e.seq ≤ seq) : newestVersion key seq es = none := by
  simpa [newestVersion] using h

theorem find?_lookup_filter_eq (hsorted : es.Pairwise IKeyOrder)
    :
    ((es.find? fun e => decide (ikeyLookupKey key seq ≤ e.toIKey)).filter
      fun n => decide (n.user = key ∧ n.seq ≤ seq)) = newestVersion key seq es := by
  unfold newestVersion
  induction es with
  | nil => rfl
  | cons a es ih =>
    rw [pairwise_cons] at hsorted
    by_cases hmatch : a.user = key ∧ a.seq ≤ seq
    · have hle : ikeyLookupKey key seq ≤ a.toIKey :=
        ikeyLookupKey_le_iff.2 (Or.inr ⟨hmatch.1.symm, hmatch.2⟩)
      simp [hle, hmatch]
    · by_cases hle : ikeyLookupKey key seq ≤ a.toIKey
      · -- The seek stopped at a larger user key, and everything behind it is larger too.
        have hlt : key < a.user := by
          rcases ikeyLookupKey_le_iff.1 hle with h | ⟨h, hs⟩
          · exact h
          · exact absurd ⟨h.symm, hs⟩ hmatch
        have hnone : es.find? (fun e => decide (e.user = key ∧ e.seq ≤ seq)) = none := by
          rw [List.find?_eq_none]
          intro e he hdec
          simp only [decide_eq_true_eq] at hdec
          have hle' := (hsorted.1 e he).user_le
          exact absurd (lt_of_lt_of_le hlt hle') (by simp [hdec.1])
        rw [List.find?_cons_of_pos (by simpa using hle),
          List.find?_cons_of_neg (by simpa using hmatch), hnone]
        simp only [Option.filter_some, decide_eq_true_eq, if_neg hmatch]
      · simpa [List.find?_cons, hle, hmatch] using ih hsorted.2

/-- The version a lookup found: its value, or the blob pointer it must be read
through, its deadline, and whether it is a tombstone for the reader. -/
structure VersionAt where
  value : Bytes
  seq : Nat
  deleted : Bool
  expiresAt : Time
  blobPtr : Option BlobPointer
  deriving DecidableEq

def VersionAt.tombstone (seq : Nat) : VersionAt := ⟨[], seq, true, 0, none⟩

/-- The report a version deserves, from what it means at the read time. -/
def VersionAt.ofLive (seq : Nat) : Option Live → VersionAt
  | none => .tombstone seq
  | some ⟨.inline value, expiresAt⟩ => ⟨value, seq, false, expiresAt, none⟩
  | some ⟨.blob ptr, expiresAt⟩ => ⟨[], seq, false, expiresAt, some ptr⟩

def Entry.versionAt (e : Entry) (now : Time) : VersionAt := .ofLive e.seq (e.payload.liveAt now)

@[simp] theorem VersionAt.ofLive_seq (seq : Nat) (live : Option Live) :
    (ofLive seq live).seq = seq := by
  rcases live with _ | ⟨_ | _, _⟩ <;> rfl

@[simp] theorem Entry.versionAt_seq (e : Entry) (now : Time) : (e.versionAt now).seq = e.seq := by
  simp [Entry.versionAt]

theorem VersionAt.ofLive_deleted (seq : Nat) (live : Option Live) :
    (ofLive seq live).deleted = live.isNone := by
  rcases live with _ | ⟨_ | _, _⟩ <;> rfl

def storeOf (es : List Entry) (rts : List RangeTombstone) : Mvcc.Store Key Payload :=
  ⟨{v | ∃ e ∈ es, e.version = v}, {rt | rt ∈ rts}⟩

theorem mem_storeOf_versions {v : Mvcc.Version Key Payload} :
    v ∈ (storeOf es rts).versions ↔ ∃ e ∈ es, e.version = v := Iff.rfl

@[simp] theorem mem_storeOf_spans
    {rt : RangeTombstone} : rt ∈ (storeOf es rts).spans ↔ rt ∈ rts := Iff.rfl

theorem storeOf_append (es es' : List Entry) (rts rts' : List RangeTombstone) :
    storeOf (es ++ es') (rts ++ rts') = storeOf es rts ∪ storeOf es' rts' := by
  ext v
  · simp only [Mvcc.Store.mem_union_versions, mem_storeOf_versions, mem_append]
    constructor
    · rintro ⟨e, he | he, rfl⟩
      · exact Or.inl ⟨e, he, rfl⟩
      · exact Or.inr ⟨e, he, rfl⟩
    · rintro (⟨e, he, rfl⟩ | ⟨e, he, rfl⟩)
      · exact ⟨e, Or.inl he, rfl⟩
      · exact ⟨e, Or.inr he, rfl⟩
  · simp

theorem storeOf_congr {rts' : List RangeTombstone}
    (hes : ∀ e, e ∈ es ↔ e ∈ es') (hrts : ∀ rt, rt ∈ rts ↔ rt ∈ rts') :
    storeOf es rts = storeOf es' rts' := by
  ext v
  · simp only [mem_storeOf_versions, hes]
  · simp only [mem_storeOf_spans, hrts]

end LevisDB
