import LevisDB.Core.Entry

/-!
# Range tombstones

A range tombstone deletes every key of `[start, stop)` as of a sequence. The
read path and the compaction both look for the newest tombstone that contains a
key and is visible at a limit; the search keeps a running maximum.
-/

namespace LevisDB

/-- Keys of `[start, stop)` are deleted as of `seq`. -/
abbrev RangeTombstone := Mvcc.Span Key

def rangeDeleted (rts : List RangeTombstone) (userKey : Key) (versionSeq readSeq : Nat) : Bool :=
  rts.any fun rt => decide (rt.Covers userKey versionSeq readSeq)

/-- One round of the running maximum over tombstones visible at `limit`. -/
def considerRangeDel (userKey : Key) (limit best : Nat) (rt : RangeTombstone) : Nat :=
  if rt.seq ≤ limit ∧ best < rt.seq ∧ rt.Contains userKey then rt.seq else best

def considerRangeDels (userKey : Key) (limit best : Nat) (rts : List RangeTombstone) : Nat :=
  rts.foldl (considerRangeDel userKey limit) best

def maxCoveringRangeDelSeqLE (rts : List RangeTombstone) (userKey : Key) (limit : Nat) : Nat :=
  considerRangeDels userKey limit 0 rts

theorem rangeDeleted_iff {rts : List RangeTombstone} {userKey : Key} {versionSeq readSeq : Nat} :
    rangeDeleted rts userKey versionSeq readSeq = true ↔
      ∃ rt ∈ rts, rt.Covers userKey versionSeq readSeq := by
  simp [rangeDeleted]

theorem lt_considerRangeDel_iff {userKey : Key} {limit best n : Nat} {rt : RangeTombstone} :
    n < considerRangeDel userKey limit best rt ↔ n < best ∨ rt.Covers userKey n limit := by
  unfold considerRangeDel Mvcc.Span.Covers
  split_ifs with h
  · constructor
    · intro hn
      exact Or.inr ⟨h.2.2, hn, h.1⟩
    · rintro (hn | hn)
      · omega
      · exact hn.2.1
  · constructor
    · exact Or.inl
    · rintro (hn | ⟨hc, hn, hl⟩)
      · exact hn
      · by_contra hle
        exact h ⟨hl, by omega, hc⟩

theorem lt_considerRangeDels_iff {userKey : Key} {limit best n : Nat}
    {rts : List RangeTombstone} :
    n < considerRangeDels userKey limit best rts ↔
      n < best ∨ ∃ rt ∈ rts, rt.Covers userKey n limit := by
  induction rts generalizing best with
  | nil => simp [considerRangeDels]
  | cons rt rts ih =>
    have hstep : considerRangeDels userKey limit best (rt :: rts) =
        considerRangeDels userKey limit (considerRangeDel userKey limit best rt) rts := rfl
    rw [hstep, ih, lt_considerRangeDel_iff, List.exists_mem_cons_iff, or_assoc]

theorem lt_maxCoveringRangeDelSeqLE_iff {rts : List RangeTombstone} {userKey : Key}
    {limit n : Nat} :
    n < maxCoveringRangeDelSeqLE rts userKey limit ↔ ∃ rt ∈ rts, rt.Covers userKey n limit := by
  simp [maxCoveringRangeDelSeqLE, lt_considerRangeDels_iff]

end LevisDB
