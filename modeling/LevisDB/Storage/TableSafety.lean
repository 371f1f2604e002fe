import LevisDB.Storage.TableParse
import Mathlib.Data.Prod.Lex

/-!
# Arbitrary bytes as a table file

Whatever bytes are presented as a table file, and whatever the decompressors
make of its blocks, reading it does not fault. Searching the index is safe as long
as no separator the search meets has an end that wraps 32 bits.
-/

namespace LevisDB

open Checked (ends_refuse ends_loop)

theorem ends_refuse_table {c : Prop} [Decidable c] (cause : TableError) :
    Ends (fun _ => ¬ c) (Checked.refuse c (.tableFile cause)) :=
  ends_refuse id

theorem decodeHandle_ends {src : Bytes} {pos : Nat} (hpos : pos ≤ src.length) :
    Ends (fun r => ∀ h n, r = some (h, n) → pos < n ∧ n ≤ src.length) (decodeHandle src pos) := by
  refine (slice_ends hpos (Nat.le_refl _)).bind fun tail htail => ?_
  cases hoff : uvarint tail with
  | none => exact fun h n heq => by cases heq
  | some r =>
    obtain ⟨offset, n⟩ := r
    obtain ⟨hn, hle, _⟩ := uvarint_bounds hoff
    refine (slice_ends hle (Nat.le_refl _)).bind fun rest hrest => ?_
    cases hlen : uvarint rest with
    | none => exact fun h n heq => by cases heq
    | some r' =>
      obtain ⟨length, n'⟩ := r'
      obtain ⟨hn', hle', _⟩ := uvarint_bounds hlen
      intro h m heq
      obtain ⟨-, rfl⟩ := Prod.mk.inj (Option.some.inj heq)
      omega

theorem codecFromID_ends (id : UInt8) : Ends (fun _ => True) (codecFromID id) := by
  unfold codecFromID
  split
  · trivial
  · trivial
  · trivial
  · trivial
  · exact fun h => h

theorem decodeBlock_ends (cs : Codecs) (raw : Bytes) : Ends (fun _ => True) (decodeBlock cs raw) :=
    by
  refine (ends_refuse_table _).bind fun _ hlong => ?_
  unfold blockTrailerLen at hlong
  refine (subtract_ends (by omega)).bind fun stop hstop => ?_
  refine (slice_ends (Nat.zero_le _) (by omega)).bind fun body hbody => ?_
  refine (slice_ends (by omega) (Nat.le_refl _)).bind fun tail htail => ?_
  refine (leUint32_ends (by omega)).bind fun want _ => ?_
  refine (ends_refuse_table _).bind fun _ _ => ?_
  refine (subtract_ends (by omega)).bind fun last hlast => ?_
  refine (byteAt_ends (by omega)).bind fun id _ => ?_
  refine (slice_ends (Nat.zero_le _) (by omega)).bind fun comp _ => ?_
  refine (codecFromID_ends id).bind fun c _ => ?_
  cases (cs.library c).decompress comp with
  | none => exact fun h => h
  | some payload => trivial

theorem splitDataBlock_ends (payload : Bytes) :
    Ends (fun r => r.2.1.length = r.2.2 * 4) (splitDataBlock payload) := by
  refine (ends_refuse_table _).bind fun _ hlong => ?_
  refine (subtract_ends (by omega)).bind fun stop hstop => ?_
  refine (slice_ends (by omega) (Nat.le_refl _)).bind fun tail htail => ?_
  refine (leUint32_ends (by omega)).bind fun n _ => ?_
  refine (ends_refuse_table _).bind fun _ hn => ?_
  refine (subtract_ends (by omega)).bind fun entryEnd hend => ?_
  refine (slice_ends (Nat.zero_le _) (by omega)).bind fun entries _ => ?_
  refine (slice_ends (by omega) (by omega)).bind fun restarts hrestarts => ?_
  change restarts.length = n * 4
  omega

namespace DataBlockIter

theorem compareKeys_ends {a b : Bytes} (ha : WholeKey a) (hb : WholeKey b) :
    Ends (fun o => ikeyCompareBytes a b = some o) (compareKeys a b) := by
  rw [compareKeys, ikeyCompareBytes_whole ha hb]
  rfl

theorem restartOffset_ends (it : DataBlockIter) (i : Nat) :
    Ends (fun _ => True) (it.restartOffset i) := by
  unfold restartOffset
  split_ifs with h
  · trivial
  · refine (slice_ends (by omega) (Nat.le_refl _)).bind fun tail htail => ?_
    refine (leUint32_ends (by omega)).bind fun off _ => ?_
    trivial

theorem keyAt_ends (it : DataBlockIter) (off : Nat) :
    Ends (fun r => ∀ k, r = some k → WholeKey k) (it.keyAt off) := by
  unfold keyAt
  split_ifs with h
  · exact fun k heq => by cases heq
  · refine (slice_ends (by omega) (Nat.le_refl _)).bind fun tail htail => ?_
    cases hshared : uvarint tail with
    | none => exact fun k heq => by cases heq
    | some r =>
      obtain ⟨shared, n⟩ := r
      have hn := uvarint_bounds hshared
      refine (slice_ends (by omega) (Nat.le_refl _)).bind fun tail htail => ?_
      cases hnon : uvarint tail with
      | none => exact fun k heq => by cases heq
      | some r =>
        obtain ⟨nonShared, n'⟩ := r
        have hn' := uvarint_bounds hnon
        refine (slice_ends (by omega) (Nat.le_refl _)).bind fun tail htail => ?_
        cases hval : uvarint tail with
        | none => exact fun k heq => by cases heq
        | some r =>
          obtain ⟨_, n''⟩ := r
          have hn'' := uvarint_bounds hval
          refine (subtract_ends (by omega)).bind fun left hleft => ?_
          split_ifs with hbad
          · exact fun k heq => by cases heq
          · refine (slice_ends (by omega) (by omega)).bind fun k hk => ?_
            intro k' heq
            cases heq
            unfold WholeKey
            omega

theorem restartKey_ends (it : DataBlockIter) (i : Nat) :
    Ends (fun r => ∀ k, r = some k → WholeKey k) (it.restartKey i) := by
  refine (it.restartOffset_ends i).bind fun off _ => ?_
  cases off with
  | none => exact fun k heq => by cases heq
  | some off => exact it.keyAt_ends off

theorem seek_ends (it : DataBlockIter) {target : Bytes} (htarget : WholeKey target) :
    Ends (fun it' => it'.entries = it.entries) (it.seek target) := by
  have hsearch : Ends (fun _ => True)
      (Checked.loop .endless (it.seekStep target) (it.nRestart + 1) (0, it.nRestart)) := by
    refine ends_loop (fun s => s.1 ≤ s.2) (fun s => s.2 - s.1) ?_ (Nat.zero_le _) (by omega)
    rintro ⟨lo, hi⟩ hle
    unfold seekStep
    dsimp only
    split_ifs with hlt
    · refine (it.restartKey_ends _).bind fun k hk => ?_
      cases k with
      | none => trivial
      | some k =>
        refine (compareKeys_ends (hk k rfl) htarget).bind fun o _ => ?_
        cases o with
        | lt =>
          change (lo + hi) / 2 + 1 ≤ hi ∧ hi - ((lo + hi) / 2 + 1) < hi - lo
          omega
        | eq =>
          change lo ≤ (lo + hi) / 2 ∧ (lo + hi) / 2 - lo < hi - lo
          omega
        | gt =>
          change lo ≤ (lo + hi) / 2 ∧ (lo + hi) / 2 - lo < hi - lo
          omega
    · trivial
  refine hsearch.bind fun r _ => ?_
  cases r with
  | none => rfl
  | some lo =>
    dsimp only
    split_ifs
    · rfl
    · exact (it.restartOffset_ends _).bind fun off _ => rfl

theorem next_ends (it : DataBlockIter) :
    Ends (fun r => ∀ it', r = some it' →
      it'.entries = it.entries ∧ it.pos < it'.pos ∧ it'.pos ≤ it.entries.length) it.next := by
  unfold next
  split_ifs with h
  · exact fun it' heq => by cases heq
  · refine (uvarintAt_ends (by omega) id).bind ?_
    rintro ⟨shared, p₁⟩ ⟨h₁, hp₁, _⟩
    refine (uvarintAt_ends hp₁ id).bind ?_
    rintro ⟨nonShared, p₂⟩ ⟨h₂, hp₂, _⟩
    refine (uvarintAt_ends hp₂ id).bind ?_
    rintro ⟨valLen, p₃⟩ ⟨h₃, hp₃, _⟩
    refine (ends_refuse_table _).bind fun _ hshared => ?_
    refine (takeAt_ends hp₃ id).bind ?_
    rintro ⟨delta, p₄⟩ ⟨h₄, hp₄, _⟩
    refine (slice_ends (Nat.zero_le _) (by omega)).bind fun common _ => ?_
    refine (takeAt_ends hp₄ id).bind ?_
    rintro ⟨value, p₅⟩ ⟨h₅, hp₅, _⟩
    intro it' heq
    cases heq
    dsimp only at *
    refine ⟨rfl, by omega, hp₅⟩

end DataBlockIter

namespace TableFile

variable {file : Bytes} {cs : Codecs} {err : Err} {m : MetaBlocks} {dataEnd : Nat}
  {tr : TableReader}

theorem checkRange_ends {h : BlockHandle} (herr : ¬ err.Fault) :
    Ends (fun _ => h.offset + h.length ≤ dataEnd) (checkRange dataEnd h err) := by
  refine (ends_refuse herr).bind fun _ hlen => ?_
  refine (subtract_ends (by omega)).bind fun room hroom => ?_
  exact (ends_refuse herr).mono fun _ hoff => by omega

theorem deref_ends {h : BlockHandle}
    (hin : h.offset + h.length + footerLen ≤ file.length) : Ends (fun _ => True) (deref file h) :=
    by
  rw [deref, Checked.refuse_of_not (by omega)]
  trivial

theorem readBlockRaw_ends (cs : Codecs) (file : Bytes) (h : BlockHandle) :
    Ends (fun _ => True) (readBlockRaw cs file h) := by
  refine (ends_refuse_table _).bind fun _ hlong => ?_
  refine (subtract_ends (by omega)).bind fun dataSize hsize => ?_
  refine (ends_refuse_table _).bind fun _ _ => ?_
  refine (checkRange_ends id).bind fun _ hin => ?_
  refine (deref_ends (by omega)).bind fun _ _ => ?_
  exact (slice_ends (by omega) (by omega)).bind fun buf _ => decodeBlock_ends cs buf

/-- What `validateBloomFilter` accepts: a power of two of bytes, and up to thirty probes. -/
structure ValidFilter (filter : Bytes) : Prop where
  long : 9 ≤ filter.length
  pow : (filter.length - 1) &&& (filter.length - 1 - 1) = 0

theorem validateBloomFilter_ends (filter : Bytes) :
    Ends (fun _ => ValidFilter filter) (validateBloomFilter filter) := by
  refine (ends_refuse_table _).bind fun _ hlong => ?_
  refine (subtract_ends (by omega)).bind fun nbytes hbytes => ?_
  refine (ends_refuse_table _).bind fun _ hpow => ?_
  refine (byteAt_ends (by omega)).bind fun k _ => ?_
  exact (ends_refuse id).mono fun _ _ => ⟨by omega, hbytes ▸ not_not.1 hpow⟩

theorem probe_eq {filter : Bytes} {bits : List UInt32}
    (h : ∀ bit ∈ bits, byteIndex bit < filter.length) :
    probe filter bits = .ok (bits.all (testBit filter)) := by
  induction bits with
  | nil => rfl
  | cons bit bits ih =>
    rw [List.forall_mem_cons] at h
    have hbyte : byteAt filter (byteIndex bit) = .ok (filter.getD (byteIndex bit) 0) := by
      rw [byteAt, List.getElem?_eq_getElem h.1, List.getD_eq_getElem?_getD,
        List.getElem?_eq_getElem h.1, Option.getD_some]
    rw [probe, hbyte, Except.ok_bind, List.all_cons, ih h.2]
    unfold testBit
    by_cases hzero : filter.getD (byteIndex bit) 0 &&& bitMask bit = 0
    · rw [if_pos hzero, decide_eq_false (not_not.2 hzero), Bool.false_and]
    · rw [if_neg hzero, decide_eq_true hzero, Bool.true_and]

theorem ValidFilter.mayContain {filter : Bytes} (h : ValidFilter filter) (hash : UInt32) :
    mayContain filter hash = .ok (bloomMayContain filter hash) := by
  have hlong := h.long
  have hbyte : byteAt filter (filter.length - 1) = .ok (filter.getD (filter.length - 1) 0) := by
    rw [byteAt, List.getElem?_eq_getElem (by omega), List.getD_eq_getElem?_getD,
      List.getElem?_eq_getElem (by omega), Option.getD_some]
  unfold TableFile.mayContain bloomMayContain
  rw [if_neg (by omega), if_neg (by omega), subtract_of_le (by omega), Except.ok_bind, hbyte,
    Except.ok_bind]
  dsimp only
  rw [if_pos h.pow, if_pos h.pow]
  split_ifs
  · rfl
  · refine probe_eq fun bit hbit => ?_
    have htwo := eq_two_pow_of_and_pred (by omega) h.pow
    rw [htwo] at hbit
    have hlt := mem_probeBits_lt hbit
    omega

/-- A built filter validates, all its probes stay inside it, and it answers "maybe" for
every hash it was built from; the array may be so long that its bit count wraps. -/
theorem bloom_no_false_negatives (bitsPerKey : Int64) (k : Nat) (hashes : List UInt32)
    (hpos : 1 ≤ k) (hle : k ≤ 30) :
    validateBloomFilter (build64 bitsPerKey k hashes) = .ok () ∧
      (∀ hash, ∀ bit ∈ probeBits k
        (UInt32.ofNat (((build64 bitsPerKey k hashes).length - 1) * 8) - 1)
        (rotateLeft15 hash) hash,
        byteIndex bit < (build64 bitsPerKey k hashes).length - 1) ∧
      (∀ hash, mayContain (build64 bitsPerKey k hashes) hash =
        .ok (bloomMayContain (build64 bitsPerKey k hashes) hash)) ∧
      ∀ hash ∈ hashes, bloomMayContain (build64 bitsPerKey k hashes) hash = true := by
  obtain ⟨m, hfilled⟩ := build64_filled bitsPerKey k hashes
  have hvalid := validateBloomFilter_filled hfilled hpos hle
  refine ⟨hvalid, ?_, ?_, ?_⟩
  · intro hash bit hbit
    rw [hfilled.length, Nat.add_sub_cancel] at hbit ⊢
    exact mem_probeBits_lt hbit
  · exact ((validateBloomFilter_ends _).of_ok hvalid).mayContain
  · intro hash hmem
    exact hfilled.bloomMayContain hle hmem

theorem bloom_no_false_negatives_wrapped :
    bloomMayContain (build64 (2 ^ 32) 30 [7]) 7 = true :=
  (bloom_no_false_negatives (2 ^ 32) 30 [7] (by decide) (by decide)).2.2.2 7 (by decide)

/-- A data block in front of the footer, with a separator inside the index block. -/
structure IndexEntry.Inside (file payload : Bytes) (e : IndexEntry) : Prop where
  block : e.offset + e.length + footerLen ≤ file.length
  separator : e.sepOff.toNat + e.sepLen.toNat ≤ payload.length
  whole : trailerLen ≤ e.sepLen.toNat

/-- The end of the separator does not fit 32 bits. -/
def IndexEntry.Wraps (e : IndexEntry) : Prop := 2 ^ 32 ≤ e.sepOff.toNat + e.sepLen.toNat

instance (e : IndexEntry) : Decidable e.Wraps := inferInstanceAs (Decidable (_ ≤ _))

theorem checkOrder_ends {previous : Option Bytes} {key : Bytes} (herr : ¬ err.Fault)
    (hprev : ∀ prev, previous = some prev → WholeKey prev) (hkey : WholeKey key) :
    Ends (fun _ => ∀ prev, previous = some prev → ikeyCompareBytes prev key = some .lt)
      (checkOrder previous key err) := by
  unfold checkOrder
  cases previous with
  | none => exact fun prev heq => by cases heq
  | some prev =>
    refine (DataBlockIter.compareKeys_ends (hprev prev rfl) hkey).bind fun o ho => ?_
    refine (ends_refuse herr).mono fun _ hlt prev' heq => ?_
    cases heq
    rw [ho, not_not.1 hlt]

theorem checkSeparator_ends {previousSep : Option Bytes} {sep : Bytes} (hsep : WholeKey sep)
    (hprev : ∀ prev, previousSep = some prev → WholeKey prev) :
    Ends (fun _ => True) (checkSeparator previousSep sep) := by
  unfold checkSeparator
  have hkind : ∃ seq kind, ikeySeqKind sep = some (seq, kind) := by
    unfold WholeKey at hsep
    simp [ikeySeqKind, ikeyTrailer, hsep]
  obtain ⟨seq, kind, hkind⟩ := hkind
  rw [hkind]
  dsimp only
  cases validIKeyKind kind with
  | none => exact fun h => h
  | some _ => exact (checkOrder_ends id hprev hsep).mono fun _ _ => trivial

theorem checkDataHandle_ends {nextOffset : Nat} {h : BlockHandle}
    (hfile : footerLen ≤ file.length) (hnext : nextOffset ≤ dataEnd) :
    Ends (fun _ => h.offset + h.length + footerLen ≤ file.length ∧ h.offset + h.length ≤ dataEnd)
      (checkDataHandle file dataEnd nextOffset h) := by
  refine (ends_refuse_table _).bind fun _ _ => ?_
  refine (subtract_ends hfile).bind fun dataSize hsize => ?_
  refine (ends_refuse_table _).bind fun _ _ => ?_
  refine (checkRange_ends id).bind fun _ hin => ?_
  refine (ends_refuse_table _).bind fun _ hoff => ?_
  refine (subtract_ends (by omega)).bind fun room hroom => ?_
  exact (ends_refuse_table _).mono fun _ hlen => ⟨by omega, by omega⟩

theorem wholeHandle_ends (bytes : Bytes) : Ends (fun _ => True) (wholeHandle bytes) := by
  refine (decodeHandle_ends (Nat.zero_le _)).bind fun r _ => ?_
  cases r with
  | none => exact fun h => h
  | some r => exact (ends_refuse_table _).bind fun _ _ => trivial

/-- What parsing keeps: the position is in the index, the blocks so far end in front of
the end of the data. -/
structure IndexState.Sound (file payload : Bytes) (dataEnd : Nat) (s : IndexState) : Prop where
  pos : s.pos ≤ payload.length
  nextOffset : s.nextOffset ≤ dataEnd
  previousSep : ∀ prev, s.previousSep = some prev → WholeKey prev
  ents : ∀ e ∈ s.ents, e.Inside file payload

theorem parseEntry_ends {payload : Bytes} {s : IndexState}
    (hfile : footerLen ≤ file.length) (hs : s.Sound file payload dataEnd) :
    Ends (fun s' => s'.Sound file payload dataEnd ∧ s.pos < s'.pos)
      (parseEntry file payload dataEnd s) := by
  refine (uvarintAt_ends hs.pos id).bind ?_
  rintro ⟨keyLen, keyStart⟩ ⟨hstart, hkeyStart, _⟩
  refine (ends_refuse_table _).bind fun _ hshort => ?_
  refine (subtract_ends hkeyStart).bind fun left hleft => ?_
  refine (ends_refuse_table _).bind fun _ hlong => ?_
  refine (ends_refuse_table _).bind fun _ hwide => ?_
  dsimp only at *
  refine (uvarintAt_ends (by omega) id).bind ?_
  rintro ⟨valLen, p₁⟩ ⟨h₁, hp₁, _⟩
  refine (takeAt_ends hp₁ id).bind ?_
  rintro ⟨handleBytes, p₂⟩ ⟨h₂, hp₂, _⟩
  refine (wholeHandle_ends _).bind fun h _ => ?_
  refine (checkDataHandle_ends hfile hs.nextOffset).bind fun _ hin => ?_
  refine (slice_ends (by omega) (by omega)).bind fun sep hsep => ?_
  have hwhole : WholeKey sep := by
    unfold WholeKey
    omega
  refine (checkSeparator_ends hwhole hs.previousSep).bind fun _ _ => ?_
  dsimp only at *
  refine ⟨⟨hp₂, hin.2, fun prev heq => ?_, fun e he => ?_⟩, by change s.pos < p₂; omega⟩
  · cases heq
    exact hwhole
  · rcases List.mem_append.1 he with he | he
    · exact hs.ents e he
    · obtain rfl := List.mem_singleton.1 he
      have hlen : (UInt32.ofNat keyLen).toNat = keyLen :=
        UInt32.toNat_ofNat_of_lt' (by change keyLen < 2 ^ 32; omega)
      have hoff : (UInt32.ofNat keyStart).toNat ≤ keyStart := by
        rw [UInt32.toNat_ofNat']
        exact Nat.mod_le _ _
      refine ⟨hin.1, ?_, ?_⟩
      · change (UInt32.ofNat keyStart).toNat + (UInt32.ofNat keyLen).toNat ≤ payload.length
        omega
      · change trailerLen ≤ (UInt32.ofNat keyLen).toNat
        omega

theorem parseIndex_ends {payload : Bytes} (hfile : footerLen ≤ file.length) :
    Ends (fun ents => ∀ e ∈ ents, e.Inside file payload) (parseIndex file payload dataEnd) := by
  refine ends_loop (fun s => s.Sound file payload dataEnd) (fun s => payload.length - s.pos) ?_
    ⟨Nat.zero_le _, Nat.zero_le _, fun prev heq => (by cases heq), fun e he => (by cases he)⟩
    (by change payload.length - 0 < _; omega)
  intro s hs
  unfold parseStep
  split_ifs with hmore
  · refine (parseEntry_ends hfile hs).bind fun s' hs' => ⟨hs'.1, ?_⟩
    have hpos := hs'.1.pos
    have hlt := hs'.2
    change payload.length - s'.pos < payload.length - s.pos
    omega
  · exact (ends_refuse_table _).bind fun _ _ => hs.ents

theorem sliceBytes_ends (rest : Bytes) : Ends (fun _ => True) (sliceBytes rest) := by
  refine (uvarintAt_ends (Nat.zero_le _) id).bind ?_
  rintro ⟨length, pos⟩ ⟨_, hpos, _⟩
  refine (slice_ends hpos (Nat.le_refl _)).bind fun rest _ => ?_
  refine (ends_refuse id).bind fun _ hlen => ?_
  refine (slice_ends (Nat.zero_le _) (by omega)).bind fun data _ => ?_
  exact (slice_ends (by omega) (Nat.le_refl _)).bind fun remaining _ => trivial

theorem decodeRangeTombstone_ends (rest : Bytes) :
    Ends (fun _ => True) (decodeRangeTombstone rest) := by
  refine (ends_wrapped _ (sliceBytes_ends rest)).bind ?_
  rintro ⟨start, r⟩ _
  refine (ends_wrapped _ (sliceBytes_ends r)).bind ?_
  rintro ⟨stop, r2⟩ _
  refine (uvarintAt_ends (Nat.zero_le _) id).bind ?_
  rintro ⟨seq, pos⟩ ⟨_, hpos, _⟩
  refine (slice_ends hpos (Nat.le_refl _)).bind fun rest _ => ?_
  exact (ends_refuse_table _).bind fun _ _ => trivial

theorem decodeRangeTombstones_ends (count : Nat) (rest : Bytes) :
    Ends (fun _ => True) (decodeRangeTombstones count rest) := by
  induction count generalizing rest with
  | zero => trivial
  | succ count ih =>
    refine (decodeRangeTombstone_ends rest).bind ?_
    rintro ⟨rt, rest⟩ _
    refine (ih rest).bind ?_
    rintro ⟨rts, rest⟩ _
    trivial

theorem decodeRangeDelBlock_ends (payload : Bytes) :
    Ends (fun _ => True) (decodeRangeDelBlock payload) := by
  refine (uvarintAt_ends (Nat.zero_le _) id).bind ?_
  rintro ⟨count, pos⟩ ⟨_, hpos, _⟩
  refine (slice_ends hpos (Nat.le_refl _)).bind fun rest _ => ?_
  refine (ends_refuse_table _).bind fun _ _ => ?_
  refine (decodeRangeTombstones_ends count rest).bind ?_
  rintro ⟨rts, rest⟩ _
  exact (ends_refuse_table _).bind fun _ _ => trivial

theorem footerHandle_ends {footer : Bytes} {pos : Nat} (hpos : pos ≤ footer.length)
    (herr : ¬ err.Fault) :
    Ends (fun r => r.2 ≤ footer.length) (footerHandle footer pos err) := by
  refine (decodeHandle_ends hpos).bind fun r hr => ?_
  cases r with
  | none => exact herr
  | some r => exact (hr r.1 r.2 rfl).2

theorem decodeFooter_ends {footer : Bytes} (hlen : footer.length = footerLen) :
    Ends (fun _ => True) (decodeFooter footer) := by
  unfold footerLen at hlen
  refine (slice_ends (by change 72 - 8 ≤ _; omega) (Nat.le_refl _)).bind fun tail htail => ?_
  refine (leUint64_ends (by rw [htail]; change 8 ≤ _ - (72 - 8); omega)).bind fun m _ => ?_
  refine (ends_refuse_table _).bind fun _ _ => ?_
  refine (footerHandle_ends (Nat.zero_le _) id).bind ?_
  rintro ⟨indexBH, n₁⟩ hn₁
  refine (footerHandle_ends hn₁ id).bind ?_
  rintro ⟨filterBH, n₂⟩ hn₂
  refine (footerHandle_ends hn₂ id).bind ?_
  rintro ⟨rangeDelBH, n₃⟩ hn₃
  refine (ends_refuse_table _).bind fun _ hn => ?_
  refine (slice_ends (Nat.not_lt.1 hn) (by change 72 - 8 ≤ _; omega)).bind fun padding _ => ?_
  exact (ends_refuse_table _).bind fun _ _ => trivial

/-- The handles of the footer name blocks in front of it. -/
structure TableReader.Opened (tr : TableReader) : Prop where
  footer : footerLen ≤ tr.file.length
  index : tr.indexBH.offset + tr.indexBH.length + footerLen ≤ tr.file.length
  filter : tr.filterBH.offset + tr.filterBH.length + footerLen ≤ tr.file.length
  rangeDel : tr.rangeDelBH.offset + tr.rangeDelBH.length + footerLen ≤ tr.file.length

theorem checkLayout_ends (dataEnd : Nat) (indexBH filterBH : BlockHandle) :
    Ends (fun _ => indexBH.offset + indexBH.length ≤ dataEnd ∧
      filterBH.offset + filterBH.length ≤ dataEnd) (checkLayout dataEnd indexBH filterBH) := by
  refine (checkRange_ends id).bind fun _ hfilter => ?_
  refine (checkRange_ends id).bind fun _ hindex => ?_
  refine (ends_refuse_table _).bind fun _ _ => ?_
  exact (ends_refuse_table _).mono fun _ _ => ⟨hindex, hfilter⟩

theorem checkRangeDelLayout_ends (dataEnd : Nat) (filterBH rangeDelBH : BlockHandle) :
    Ends (fun _ => rangeDelBH.offset + rangeDelBH.length ≤ dataEnd)
      (checkRangeDelLayout dataEnd filterBH rangeDelBH) := by
  unfold checkRangeDelLayout
  split_ifs with h
  · refine (checkRange_ends id).bind fun _ hin => ?_
    exact (ends_refuse_table _).mono fun _ _ => hin
  · unfold hasRangeDel at h
    change rangeDelBH.offset + rangeDelBH.length ≤ dataEnd
    omega

structure MetaBlocks.Sound (file : Bytes) (m : MetaBlocks) : Prop where
  filter : ValidFilter m.filter
  ents : ∀ e ∈ m.indexEnt, e.Inside file m.indexBuf

theorem TableReader.loadMeta_ends (h : tr.Opened) (cs : Codecs) :
    Ends (fun m => m.Sound tr.file) (tr.loadMeta cs) := by
  refine (ends_wrapped _ (readBlockRaw_ends cs _ _)).bind fun filter _ => ?_
  refine (validateBloomFilter_ends filter).bind fun _ hfilter => ?_
  refine (ends_wrapped _ (readBlockRaw_ends cs _ _)).bind fun payload _ => ?_
  refine (ends_wrapped _ (parseIndex_ends h.footer)).bind fun ents hents => ?_
  have hrange : Ends (fun _ => True) (tr.loadRangeDel cs) := by
    unfold loadRangeDel
    split_ifs
    · refine (ends_wrapped _ (readBlockRaw_ends cs _ _)).bind fun rd _ => ?_
      exact decodeRangeDelBlock_ends rd
    · trivial
  exact hrange.bind fun rangeDel _ => ⟨hfilter, hents⟩

/-- A reader whose parsed blocks, if it has them, fit its file. -/
structure TableReader.Sound (tr : TableReader) : Prop extends tr.Opened where
  parsed : ∀ m, tr.parsed = some m → m.Sound tr.file

theorem TableReader.Sound.ensureMeta (h : tr.Sound) (cs : Codecs) :
    Ends (fun m => m.Sound tr.file) (tr.ensureMeta cs) := by
  unfold TableReader.ensureMeta
  cases hp : tr.parsed with
  | none => exact TableReader.loadMeta_ends h.toOpened cs
  | some m => exact h.parsed m hp

theorem newTableReaderOpt_ends (cs : Codecs) (file : Bytes) (lazyMeta : Bool) :
    Ends (fun tr => tr.file = file ∧ tr.Sound) (newTableReaderOpt cs file lazyMeta) := by
  refine (ends_refuse_table _).bind fun _ hlong => ?_
  refine (subtract_ends (by omega)).bind fun dataEnd hend => ?_
  refine (slice_ends (by omega) (Nat.le_refl _)).bind fun footer hfooter => ?_
  refine (decodeFooter_ends (by omega)).bind ?_
  rintro ⟨indexBH, filterBH, rangeDelBH⟩ _
  refine (checkLayout_ends dataEnd indexBH filterBH).bind fun _ hlayout => ?_
  refine (checkRangeDelLayout_ends dataEnd filterBH rangeDelBH).bind fun _ hrange => ?_
  have hopened : (⟨file, indexBH, filterBH, rangeDelBH, none⟩ : TableReader).Sound := by
    refine ⟨⟨?_, ?_, ?_, ?_⟩, fun m heq => (by cases heq)⟩
    · change footerLen ≤ file.length
      omega
    · change indexBH.offset + indexBH.length + footerLen ≤ file.length
      omega
    · change filterBH.offset + filterBH.length + footerLen ≤ file.length
      omega
    · change rangeDelBH.offset + rangeDelBH.length + footerLen ≤ file.length
      omega
  dsimp only
  split_ifs
  · exact ⟨rfl, hopened⟩
  · refine (hopened.ensureMeta cs).bind fun m hm => ⟨rfl, ?_, fun m' heq => ?_⟩
    · exact ⟨hopened.footer, hopened.index, hopened.filter, hopened.rangeDel⟩
    · cases heq
      exact hm

theorem MetaBlocks.Sound.sep_ends (h : m.Sound file) {i : Nat} (hi : i < m.indexEnt.length)
    (hfit : ¬ m.indexEnt[i].Wraps) : Ends WholeKey (m.sep i) := by
  unfold MetaBlocks.sep
  rw [List.getElem?_eq_getElem hi]
  obtain ⟨-, hin, hlong⟩ := h.ents _ (List.getElem_mem hi)
  generalize m.indexEnt[i] = e at hin hlong hfit
  unfold IndexEntry.Wraps at hfit
  have hsum : (e.sepOff + e.sepLen).toNat = e.sepOff.toNat + e.sepLen.toNat := by
    rw [UInt32.toNat_add]
    exact Nat.mod_eq_of_lt (by omega)
  dsimp only
  rw [hsum]
  refine (slice_ends (Nat.le_add_right _ _) hin).mono fun s hs => ?_
  unfold WholeKey
  omega

theorem MetaBlocks.sep_wraps {i : Nat} {e : IndexEntry} (he : m.indexEnt[i]? = some e)
    (hwraps : e.Wraps) : m.sep i = .error .sliceBounds := by
  unfold IndexEntry.Wraps at hwraps
  rw [MetaBlocks.sep, he]
  dsimp only
  rw [slice, if_neg]
  rintro ⟨hle, -⟩
  have hoff := e.sepOff.toNat_lt
  have hlen := e.sepLen.toNat_lt
  rw [UInt32.toNat_add, Nat.mod_eq_sub_mod (by omega), Nat.mod_eq_of_lt (by omega)] at hle
  omega

theorem MetaBlocks.Sound.sep_or (h : m.Sound file) {i : Nat} (hi : i < m.indexEnt.length) :
    m.sep i = .error .sliceBounds ∨ ∃ s, m.sep i = .ok s ∧ WholeKey s := by
  by_cases hwraps : m.indexEnt[i].Wraps
  · exact .inl (MetaBlocks.sep_wraps (List.getElem?_eq_getElem hi) hwraps)
  · have hends := h.sep_ends hi hwraps
    unfold MetaBlocks.sep slice at hends ⊢
    rw [List.getElem?_eq_getElem hi] at hends ⊢
    dsimp only at hends ⊢
    split_ifs at hends ⊢ with hin
    · exact .inr ⟨_, rfl, hends⟩
    · exact .inl rfl

section

variable {lookup : Bytes} (hlookup : WholeKey lookup)
include hlookup

theorem MetaBlocks.Sound.findBlock_ends (h : m.Sound file)
    (hfit : ∀ e ∈ m.indexEnt, ¬ e.Wraps) : Ends (fun _ => True) (m.findBlock lookup) := by
  refine ends_loop (fun s => s.1 ≤ s.2 ∧ s.2 ≤ m.indexEnt.length) (fun s => s.2 - s.1) ?_
    ⟨Nat.zero_le _, Nat.le_refl _⟩ (by change m.indexEnt.length - 0 < _; omega)
  rintro ⟨lo, hi⟩ ⟨hle, hhi⟩
  unfold MetaBlocks.findStep
  dsimp only at *
  split_ifs with hlt
  · refine (h.sep_ends (by omega) (hfit _ (List.getElem_mem _))).bind fun sep hsep => ?_
    refine (DataBlockIter.compareKeys_ends hsep hlookup).bind fun o _ => ?_
    cases o with
    | lt =>
      change ((lo + hi) / 2 + 1 ≤ hi ∧ hi ≤ m.indexEnt.length) ∧ hi - ((lo + hi) / 2 + 1) < hi - lo
      omega
    | eq | gt =>
      change (lo ≤ (lo + hi) / 2 ∧ (lo + hi) / 2 ≤ m.indexEnt.length) ∧
        (lo + hi) / 2 - lo < hi - lo
      omega
  · trivial

/-- The separators before a block are below the key that is looked up, and none behind
it is. -/
structure MetaBlocks.Between (m : MetaBlocks) (i : Nat) (lookup : Bytes) : Prop where
  before : ∀ j < i, ∀ s, m.sep j = .ok s → ikeyCompareBytes s lookup = some .lt
  behind : ∀ j, i < j → ∀ s, m.sep j = .ok s → ikeyCompareBytes s lookup ≠ some .lt

theorem MetaBlocks.Sound.findBlock_wraps (h : m.Sound file) {i : Nat} {e : IndexEntry}
    (he : m.indexEnt[i]? = some e) (hwraps : e.Wraps) (hbetween : m.Between i lookup) :
    m.findBlock lookup = .error .sliceBounds := by
  have hi : i < m.indexEnt.length := (List.getElem?_eq_some_iff.1 he).1
  have hloop : Checked.Ends (· ≠ .sliceBounds) (fun _ => False) (m.findBlock lookup) := by
    refine ends_loop (fun s => s.1 ≤ i ∧ i < s.2 ∧ s.2 ≤ m.indexEnt.length) (fun s => s.2 - s.1) ?_
      ⟨Nat.zero_le _, hi, Nat.le_refl _⟩ (by change m.indexEnt.length - 0 < _; omega)
    rintro ⟨lo, hi⟩ ⟨hlo, hhi, hle⟩
    dsimp only at hlo hhi hle
    rw [MetaBlocks.findStep, if_pos (by omega)]
    dsimp only
    obtain herr | ⟨s, hs, hwhole⟩ := h.sep_or (show (lo + hi) / 2 < m.indexEnt.length by omega)
    · rw [herr]
      exact not_not.2 rfl
    have hne : (lo + hi) / 2 ≠ i := by
      rintro rfl
      rw [MetaBlocks.sep_wraps he hwraps] at hs
      cases hs
    obtain ⟨o, ho⟩ : ∃ o, ikeyCompareBytes s lookup = some o :=
      ⟨_, ikeyCompareBytes_whole hwhole hlookup⟩
    rw [hs, Except.ok_bind, DataBlockIter.compareKeys, ho]
    cases o with
    | lt =>
      have hlt : ¬ i < (lo + hi) / 2 := fun hgt => hbetween.behind _ hgt s hs ho
      change ((lo + hi) / 2 + 1 ≤ i ∧ i < hi ∧ hi ≤ m.indexEnt.length) ∧
        hi - ((lo + hi) / 2 + 1) < hi - lo
      omega
    | eq | gt =>
      have hgt : ¬ (lo + hi) / 2 < i := fun hlt => by
        simpa [ho] using hbetween.before _ hlt s hs
      change (lo ≤ i ∧ i < (lo + hi) / 2 ∧ (lo + hi) / 2 ≤ m.indexEnt.length) ∧
        (lo + hi) / 2 - lo < hi - lo
      omega
  cases hfind : m.findBlock lookup with
  | error err =>
    rw [hfind] at hloop
    rw [not_not.1 hloop]
  | ok j =>
    rw [hfind] at hloop
    exact hloop.elim

end

theorem blockHandleAt_ends {i : Nat} (hi : i < m.indexEnt.length) :
    Ends (fun h => ∃ e ∈ m.indexEnt, h = ⟨e.offset, e.length⟩) (m.blockHandleAt i) := by
  rw [MetaBlocks.blockHandleAt, List.getElem?_eq_getElem hi]
  exact ⟨_, List.getElem_mem hi, rfl⟩

theorem decodeExpiringValue_ends (stored : Bytes) :
    Ends (fun _ => True) (decodeExpiringValue stored) := by
  unfold decodeExpiringValue
  split_ifs
  · exact fun h => h
  · dsimp only
    split_ifs
    · exact fun h => h
    · trivial

theorem decodeBlobPointer_ends (v : Bytes) : Ends (fun _ => True) (decodeBlobPointer v) := by
  unfold decodeBlobPointer
  split_ifs
  · exact fun h => h
  · trivial

theorem entryVersion_ends (e : Entry) (now : Time) :
    Ends (fun _ => True) (LevisDB.TableReader.entryVersion e now) := by
  unfold LevisDB.TableReader.entryVersion
  cases e.kind with
  | delete => trivial
  | set => trivial
  | blobRef =>
    have hptr := decodeBlobPointer_ends e.value
    dsimp only
    cases hdecode : decodeBlobPointer e.value with
    | error err =>
      rw [hdecode] at hptr
      exact hptr
    | ok ptr =>
      dsimp only
      split_ifs <;> trivial
  | setTTL =>
    have hvalue := decodeExpiringValue_ends e.value
    dsimp only
    cases hdecode : decodeExpiringValue e.value with
    | error err =>
      rw [hdecode] at hvalue
      exact hvalue
    | ok r =>
      dsimp only
      split_ifs <;> trivial

theorem wholeKey_of_ikeyUserKey {key user : Bytes} (h : ikeyUserKey key = some user) :
    WholeKey key := by
  unfold ikeyUserKey at h
  split_ifs at h with hlen
  exact hlen

theorem scanStep_ends {userKey : Key} {seq : Nat} {now : Time} {s : DataBlockIter × Option Bytes}
    (hprev : ∀ prev, s.2 = some prev → WholeKey prev) :
    Ends (Checked.Round (fun s => ∀ prev, s.2 = some prev → WholeKey prev)
      (fun s => s.1.entries.length - s.1.pos) (fun _ => True) s) (scanStep userKey seq now s) := by
  refine s.1.next_ends.bind fun r hr => ?_
  cases r with
  | none => trivial
  | some it =>
    obtain ⟨hentries, hlt, hle⟩ := hr it rfl
    have hless : it.entries.length - it.pos < s.1.entries.length - s.1.pos := by
      rw [hentries]
      omega
    cases huser : ikeyUserKey it.key with
    | none =>
      simp only [huser]
      exact fun h => h
    | some entryUser =>
      cases hkind : ikeySeqKind it.key with
      | none =>
        simp only [huser, hkind]
        exact fun h => h
      | some r =>
        obtain ⟨kseq, code⟩ := r
        have hkey := wholeKey_of_ikeyUserKey huser
        have hgo : Checked.Round (fun s => ∀ prev, s.2 = some prev → WholeKey prev)
            (fun s => s.1.entries.length - s.1.pos) (fun _ : Option VersionAt => True) s
            (.inr (it, some it.key)) :=
          ⟨fun prev heq => Option.some.inj heq ▸ hkey, hless⟩
        simp only [huser, hkind]
        refine (checkOrder_ends id hprev hkey).bind fun _ _ => ?_
        split
        · trivial
        · split
          · exact hgo
          · cases validIKeyKind code with
            | none => exact fun h => h
            | some kind =>
              dsimp only
              split
              · exact hgo
              · exact (entryVersion_ends _ now).bind fun _ _ => trivial

theorem scanBlock_ends (payload : Bytes) (userKey : Key) (seq : Nat) (now : Time) :
    Ends (fun _ => True) (scanBlock payload userKey seq now) := by
  refine (splitDataBlock_ends payload).bind ?_
  rintro ⟨entries, restarts, nRestart⟩ _
  refine (DataBlockIter.seek_ends _ (wholeKey_encode _)).bind fun it hit => ?_
  refine ends_loop (fun s => ∀ prev, s.2 = some prev → WholeKey prev)
    (fun s => s.1.entries.length - s.1.pos) (fun s hs => scanStep_ends hs)
    (fun prev heq => (by cases heq)) ?_
  change it.entries.length - it.pos < entries.length + 1
  have hlen : it.entries.length = entries.length := congrArg List.length hit
  omega

/-- A lookup that passes the filter meets no separator whose end wraps. -/
def TableReader.SeparatorsFit (cs : Codecs) (tr : TableReader) (userKey : Key) : Prop :=
  ∀ m, tr.ensureMeta cs = .ok m → bloomMayContain m.filter (bloomHash userKey) = true →
    ∀ e ∈ m.indexEnt, ¬ e.Wraps

theorem TableReader.Sound.lookupAtTime_ends (h : tr.Sound) {userKey : Key}
    (hfit : tr.SeparatorsFit cs userKey) (seq : Nat) (now : Time) :
    Ends (fun _ => True) (tr.lookupAtTime cs userKey seq now) := by
  have hmeta := h.ensureMeta cs
  unfold TableFile.TableReader.lookupAtTime
  cases hm : tr.ensureMeta cs with
  | error err =>
    rw [hm] at hmeta
    exact hmeta
  | ok m =>
  rw [hm] at hmeta
  rw [Except.ok_bind, hmeta.filter.mayContain]
  change Ends _ (if bloomMayContain m.filter (bloomHash userKey) = true then _ else _)
  split_ifs with hpass
  · have hpast : Ends (fun _ => True) (tr.lookupPastBloom cs m userKey seq now) := by
      refine (hmeta.findBlock_ends (wholeKey_encode _) (hfit m hm hpass)).bind fun i _ => ?_
      split_ifs with hi
      · trivial
      · refine (blockHandleAt_ends (by omega)).bind fun bh _ => ?_
        exact (readBlockRaw_ends cs _ _).bind fun payload _ =>
          scanBlock_ends payload userKey seq now
    exact hpast.bind fun _ _ => trivial
  · trivial

theorem TableReader.Sound.lookupAtTime_wraps (h : tr.Sound) {userKey : Key} {seq i : Nat}
    {e : IndexEntry} (hm : tr.ensureMeta cs = .ok m) (he : m.indexEnt[i]? = some e)
    (hwraps : e.Wraps) (hpass : bloomMayContain m.filter (bloomHash userKey) = true)
    (hbetween : m.Between i (ikeyEncode (ikeyLookupKey userKey seq))) (now : Time) :
    tr.lookupAtTime cs userKey seq now = .error .sliceBounds := by
  have hsound : m.Sound tr.file := (h.ensureMeta cs).of_ok hm
  rw [TableFile.TableReader.lookupAtTime, hm, Except.ok_bind, hsound.filter.mayContain, hpass,
    Except.ok_bind, if_pos rfl, TableFile.TableReader.lookupPastBloom,
    hsound.findBlock_wraps (wholeKey_encode _) he hwraps hbetween]
  rfl

namespace TableIterator

variable {cs : Codecs} {m : MetaBlocks} {it : TableIterator}

theorem fillWindow_ends (it : TableIterator) {h : BlockHandle}
    (hin : h.offset + h.length + footerLen ≤ it.tr.file.length)
    (hshort : h.length ≤ tableReadAheadSize) :
    Ends (fun it' => ∃ buf, it' = { it with win := some buf, winOff := h.offset } ∧
      h.length ≤ buf.length) (it.fillWindow h) := by
  refine (subtract_ends (by omega)).bind fun n hn => ?_
  rw [Checked.refuse_of_not (by omega), Except.ok_bind]
  refine (slice_ends (by omega) (by omega)).bind fun buf hbuf => ⟨buf, rfl, by omega⟩

theorem blockRaw_ends (it : TableIterator) {h : BlockHandle}
    (hin : h.offset + h.length + footerLen ≤ it.tr.file.length) :
    Ends (fun r => ∃ win winOff, r.2 = { it with win := win, winOff := winOff })
      (it.blockRaw h) := by
  refine (deref_ends hin).bind fun _ _ => ?_
  split_ifs with hlong hmiss
  · exact (slice_ends (by omega) (by omega)).bind fun buf _ => ⟨it.win, it.winOff, rfl⟩
  · refine (it.fillWindow_ends hin (by omega)).bind ?_
    rintro _ ⟨buf, rfl, hbuf⟩
    refine (subtract_ends (Nat.le_refl _)).bind fun first hfirst => ?_
    refine (slice_ends (by omega) ?_).bind fun raw _ => ⟨some buf, h.offset, rfl⟩
    change first + h.length ≤ buf.length
    omega
  · change Ends _ (subtract h.offset it.winOff >>= _)
    unfold misses at hmiss
    cases hwin : it.win with
    | none => simp [hwin] at hmiss
    | some win =>
      simp only [hwin, not_or, not_lt] at hmiss
      refine (subtract_ends hmiss.1).bind fun first hfirst => ?_
      refine (slice_ends (by omega) ?_).bind fun raw _ => ⟨it.win, it.winOff, rfl⟩
      rw [Option.getD_some]
      omega

/-- An iterator over a sound reader; its last key has a trailer. -/
structure Sound (it : TableIterator) : Prop where
  tr : it.tr.Sound
  lastKey : ∀ prev, it.lastKey = some prev → WholeKey prev

def left (it : TableIterator) : Nat := it.inner.entries.length - it.inner.pos

/-- A key the iterator may yield next: of a valid kind, and above its last key. -/
structure Yields (it : TableIterator) (key : Bytes) : Prop where
  whole : WholeKey key
  kind : ∃ seq code, ikeySeqKind key = some (seq, code) ∧ validIKeyKind code ≠ none
  above : ∀ prev, it.lastKey = some prev → ikeyCompareBytes prev key = some .lt

theorem checkEntry_ends (h : it.Sound) (key : Bytes) :
    Ends (fun _ => it.Yields key) (it.checkEntry key) := by
  unfold checkEntry
  cases hkind : ikeySeqKind key with
  | none => exact fun h => h
  | some r =>
    obtain ⟨seq, code⟩ := r
    have hwhole : WholeKey key := by
      unfold ikeySeqKind ikeyTrailer at hkind
      split_ifs at hkind with hlen
      · exact hlen
      · cases hkind
    dsimp only
    cases hvalid : validIKeyKind code with
    | none => exact fun h => h
    | some kind =>
      refine (checkOrder_ends id h.lastKey hwhole).mono fun _ habove => ?_
      exact ⟨hwhole, ⟨seq, code, hkind, by simp [hvalid]⟩, habove⟩

structure Advanced (it it' : TableIterator) : Prop where
  sound : it'.Sound
  tr : it'.tr = it.tr
  parsed : it'.parsed = it.parsed
  yields : it.Yields it'.inner.key
  lastKey : it'.lastKey = some it'.inner.key

theorem nextInner_ends (h : it.Sound) :
    Ends (fun r => ∀ it', r = some it' →
      it.Advanced it' ∧ it'.blk = it.blk ∧ it'.left < it.left) it.nextInner := by
  unfold nextInner
  split_ifs
  · refine it.inner.next_ends.bind fun r hr => ?_
    cases r with
    | none => exact fun it' heq => by cases heq
    | some inner =>
      obtain ⟨hentries, hlt, hle⟩ := hr inner rfl
      refine (checkEntry_ends h inner.key).bind fun _ hyields => ?_
      intro it' heq
      cases heq
      refine ⟨⟨⟨h.tr, fun prev heq => ?_⟩, rfl, rfl, hyields, rfl⟩, rfl, ?_⟩
      · cases heq
        exact hyields.whole
      · change inner.entries.length - inner.pos < it.inner.entries.length - it.inner.pos
        rw [hentries]
        omega
  · exact fun it' heq => by cases heq

theorem loadBlock_ends (cs : Codecs) (it : TableIterator) {h : BlockHandle}
    (hin : h.offset + h.length + footerLen ≤ it.tr.file.length) :
    Ends (fun it' => it'.tr = it.tr ∧ it'.parsed = it.parsed ∧ it'.lastKey = it.lastKey ∧
      it'.blk = it.blk + 1) (it.loadBlock cs h) := by
  refine (it.blockRaw_ends hin).bind ?_
  rintro ⟨raw, it₁⟩ ⟨win, winOff, heq⟩
  dsimp only at heq
  subst heq
  refine (decodeBlock_ends cs raw).bind fun payload _ => ?_
  refine (splitDataBlock_ends payload).bind ?_
  rintro ⟨entries, restarts, n⟩ _
  exact ⟨rfl, rfl, rfl, rfl⟩

/-- The blocks that are left, and the bytes left in the current one. -/
def rank (m : MetaBlocks) (it : TableIterator) : Nat ×ₗ Nat :=
  toLex (m.indexEnt.length - it.blk, it.left)

theorem nextLoop_ends (cs : Codecs) (h : it.Sound) (hm : m.Sound it.tr.file) :
    Ends (fun r => ∀ it', r = some it' → it.Advanced it' ∧ rank m it' < rank m it)
      (Checked.loop .endless (nextStep cs m) (m.indexEnt.length + 2) it) := by
  refine ends_loop
    (fun s => s.tr = it.tr ∧ s.parsed = it.parsed ∧ s.lastKey = it.lastKey ∧
      (s = it ∨ (it.blk < s.blk ∧ s.blk ≤ m.indexEnt.length)))
    (fun s => m.indexEnt.length - s.blk) ?_ ⟨rfl, rfl, rfl, .inl rfl⟩ (by omega)
  rintro s ⟨htr, hparsed, hlast, hblk⟩
  have hs : s.Sound := ⟨htr ▸ h.tr, hlast ▸ h.lastKey⟩
  refine (nextInner_ends hs).bind fun r hr => ?_
  cases r with
  | some s' =>
    intro it' heq
    cases heq
    obtain ⟨hadv, hsame, hleft⟩ := hr s' rfl
    refine ⟨⟨hadv.sound, hadv.tr.trans htr, hadv.parsed.trans hparsed,
      ⟨hadv.yields.whole, hadv.yields.kind, hlast ▸ hadv.yields.above⟩, hadv.lastKey⟩, ?_⟩
    rw [rank, rank, Prod.Lex.toLex_lt_toLex, hsame]
    rcases hblk with rfl | ⟨hlt, hle⟩
    · exact .inr ⟨rfl, hleft⟩
    · exact .inl (by dsimp only; omega)
  | none =>
    dsimp only
    split_ifs with hend
    · exact fun it' heq => by cases heq
    · refine (blockHandleAt_ends (by omega)).bind ?_
      rintro _ ⟨e, he, rfl⟩
      have hin := (hm.ents e he).block
      rw [← htr] at hin
      refine (s.loadBlock_ends cs hin).bind fun s' hs' => ?_
      obtain ⟨htr', hparsed', hlast', hblk'⟩ := hs'
      refine ⟨⟨htr'.trans htr, hparsed'.trans hparsed, hlast'.trans hlast, .inr ?_⟩, ?_⟩
      · rcases hblk with rfl | ⟨hlt, hle⟩ <;> omega
      · dsimp only
        omega

theorem next_of_parsed (hp : it.parsed = some m) :
    it.next cs = Checked.loop .endless (nextStep cs m) (m.indexEnt.length + 2) it := by
  have hsame : { it with parsed := some m } = it := by rw [← hp]
  rw [next, hp]
  change Checked.loop .endless (nextStep cs m) (m.indexEnt.length + 2)
    { it with parsed := some m } = _
  rw [hsame]

/-- A run of the iterator: the keys ascend from its last key on and have valid kinds, and
an error it ends with is no fault. -/
structure Yielded (it : TableIterator) (r : List (Bytes × Bytes) × Option Err) : Prop where
  above : ∀ prev, it.lastKey = some prev → ∀ e ∈ r.1, ikeyCompareBytes prev e.1 = some .lt
  ascending : r.1.Pairwise fun a b => ikeyCompareBytes a.1 b.1 = some .lt
  kinds : ∀ e ∈ r.1, ∃ seq code, ikeySeqKind e.1 = some (seq, code) ∧ validIKeyKind code ≠ none
  whole : ∀ e ∈ r.1, WholeKey e.1
  ends : ∀ err, r.2 = some err → ¬ err.Fault

theorem Yielded.nil (it : TableIterator) {last : Option Err} (h : ∀ err, last = some err →
    ¬ err.Fault) :
    it.Yielded ([], last) :=
  ⟨fun _ _ e he => (by cases he), .nil, fun e he => (by cases he), fun e he => (by cases he), h⟩

theorem Yielded.cons {it' : TableIterator} (hadv : it.Advanced it')
    {r : List (Bytes × Bytes) × Option Err} (hr : it'.Yielded r) (value : Bytes) :
    it.Yielded ((it'.inner.key, value) :: r.1, r.2) := by
  have hrest : ∀ e ∈ r.1, ikeyCompareBytes it'.inner.key e.1 = some .lt :=
    hr.above _ hadv.lastKey
  refine ⟨fun prev hprev => ?_, List.pairwise_cons.2 ⟨fun e he => hrest e he, hr.ascending⟩, ?_, ?_,
    hr.ends⟩
  · have hfirst := hadv.yields.above prev hprev
    refine List.forall_mem_cons.2 ⟨hfirst, fun e he => ?_⟩
    have hwhole : WholeKey prev := by
      unfold ikeyCompareBytes at hfirst
      cases huser : ikeyUserKey prev with
      | none => simp [huser] at hfirst
      | some user => exact wholeKey_of_ikeyUserKey huser
    exact ikeyCompareBytes_lt_trans hwhole hadv.yields.whole (hr.whole e he) hfirst (hrest e he)
  · exact List.forall_mem_cons.2 ⟨hadv.yields.kind, hr.kinds⟩
  · exact List.forall_mem_cons.2 ⟨hadv.yields.whole, hr.whole⟩

theorem drain_yields (h : it.Sound)
    (hm : m.Sound it.tr.file) (hp : it.parsed = some m) :
    ∃ fuel r, (∀ more, it.drain cs (fuel + more) = some r) ∧ it.Yielded r := by
  induction hrank : rank m it using WellFoundedLT.induction generalizing it with
  | ind k ih =>
    have hnext := nextLoop_ends cs h hm
    rw [← next_of_parsed hp] at hnext
    cases hresult : it.next cs with
    | error err =>
      rw [hresult] at hnext
      refine ⟨1, ([], some err), fun more => ?_, Yielded.nil it fun e heq => ?_⟩
      · rw [Nat.add_comm, drain, hresult]
      · cases heq
        exact hnext
    | ok r =>
      rw [hresult] at hnext
      cases r with
      | none =>
        refine ⟨1, ([], none), fun more => ?_, Yielded.nil it fun e heq => (by cases heq)⟩
        rw [Nat.add_comm, drain, hresult]
      | some it' =>
        obtain ⟨hadv, hlt⟩ := hnext it' rfl
        obtain ⟨fuel, r, hdrain, hyielded⟩ := ih (rank m it') (hrank ▸ hlt) hadv.sound
          (hadv.tr ▸ hm) (hadv.parsed.trans hp) rfl
        refine ⟨fuel + 1, ((it'.inner.key, it'.inner.value) :: r.1, r.2), fun more => ?_,
          hyielded.cons hadv it'.inner.value⟩
        rw [Nat.add_right_comm, drain, hresult]
        change (it'.drain cs (fuel + more)).map _ = _
        rw [hdrain]
        rfl

end TableIterator

theorem TableReader.Sound.drain (h : tr.Sound) (cs : Codecs) :
    ∃ fuel r, (∀ more, tr.newIterator.drain cs (fuel + more) = some r) ∧
      tr.newIterator.Yielded r := by
  have hmeta := h.ensureMeta cs
  cases hresult : tr.ensureMeta cs with
  | error err =>
    rw [hresult] at hmeta
    have hnext : tr.newIterator.next cs = .error err := by
      rw [TableIterator.next]
      change tr.ensureMeta cs >>= _ = _
      rw [hresult]
      rfl
    refine ⟨1, ([], some err), fun more => ?_, TableIterator.Yielded.nil _ fun e heq => ?_⟩
    · rw [Nat.add_comm, TableIterator.drain, hnext]
    · cases heq
      exact hmeta
  | ok m =>
    rw [hresult] at hmeta
    have hsound : ({ tr.newIterator with parsed := some m } : TableIterator).Sound :=
      ⟨h, fun prev heq => (by cases heq)⟩
    obtain ⟨fuel, r, hdrain, hyielded⟩ := TableIterator.drain_yields hsound hmeta rfl
    have hnext : tr.newIterator.next cs =
        ({ tr.newIterator with parsed := some m } : TableIterator).next cs := by
      refine Eq.trans ?_ (TableIterator.next_of_parsed rfl).symm
      rw [TableIterator.next]
      change tr.ensureMeta cs >>= _ = _
      rw [hresult]
      rfl
    refine ⟨fuel + 1, r, fun more => ?_, hyielded.above, hyielded.ascending, hyielded.kinds,
      hyielded.whole, hyielded.ends⟩
    have hsame := hdrain (1 + more)
    rw [← Nat.add_assoc] at hsame
    rw [Nat.add_right_comm] at hsame ⊢
    rw [TableIterator.drain] at hsame ⊢
    rw [hnext]
    exact hsame

end TableFile

open TableFile in
/-- Whatever a file holds, reading it does not fault: opening it at once or lazily, parsing
its metadata and iterating it end, every block of the index lies before the footer, and
an iteration yields ascending keys of valid kinds. So does looking up a key as long as the
separators fit; one that wraps is hit by every lookup that belongs at its place. -/
theorem tableReader_safe (cs : Codecs) (file : Bytes) (lazyMeta : Bool) :
    Ends (fun tr =>
      Ends (fun m => ∀ e ∈ m.indexEnt, e.offset + e.length + footerLen ≤ file.length)
        (tr.loadMeta cs) ∧
      Ends (fun _ => True) (tr.rangeTombstones cs) ∧
      (∃ fuel r, (∀ more, tr.newIterator.drain cs (fuel + more) = some r) ∧
        (r.1.Pairwise fun a b => ikeyCompareBytes a.1 b.1 = some .lt) ∧
        (∀ e ∈ r.1, ∃ seq code, ikeySeqKind e.1 = some (seq, code) ∧ validIKeyKind code ≠ none) ∧
        ∀ err, r.2 = some err → ¬ err.Fault) ∧
      ∀ userKey seq now,
        (tr.SeparatorsFit cs userKey →
          Ends (fun _ => True) (tr.lookupAtTime cs userKey seq now)) ∧
        ∀ m i e, tr.ensureMeta cs = .ok m → m.indexEnt[i]? = some e → e.Wraps →
          bloomMayContain m.filter (bloomHash userKey) = true →
          m.Between i (ikeyEncode (ikeyLookupKey userKey seq)) →
          tr.lookupAtTime cs userKey seq now = .error .sliceBounds)
      (newTableReaderOpt cs file lazyMeta) := by
  refine (newTableReaderOpt_ends cs file lazyMeta).mono fun tr htr => ?_
  obtain ⟨rfl, hsound⟩ := htr
  obtain ⟨fuel, r, hdrain, hyielded⟩ := hsound.drain cs
  refine ⟨?_, ?_, ⟨fuel, r, hdrain, hyielded.ascending, hyielded.kinds, hyielded.ends⟩, ?_⟩
  · exact (TableFile.TableReader.loadMeta_ends hsound.toOpened cs).mono fun m hm e he =>
      (hm.ents e he).block
  · exact (hsound.ensureMeta cs).bind fun _ _ => trivial
  · intro userKey seq now
    refine ⟨fun hfit => hsound.lookupAtTime_ends hfit seq now, ?_⟩
    intro m i e hm he hwraps hpass hbetween
    exact hsound.lookupAtTime_wraps hm he hwraps hpass hbetween now

section WideIndex

open TableFile

def passFilter : Bytes := [255, 255, 255, 255, 255, 255, 255, 255, 1]

/-- Two data blocks; the separator of the first one has a long user key. -/
def wideIndex (user : Key) : List (Bytes × BlockHandle) :=
  [(ikeyEncode ⟨user, 1, .set⟩, ⟨0, 5⟩), (ikeyEncode ⟨[1], 1, .set⟩, ⟨5, 5⟩)]

def wideParts (user : Key) : Parts :=
  ⟨List.replicate 10 0, [], sealBlock .none passFilter,
    sealBlock .none (encodeIndex (wideIndex user))⟩

theorem separator_encode {k : IKey} (hseq : k.seq ≤ maxIKeySeq)
    (hlen : k.user.length + trailerLen < 2 ^ 32) : Separator (ikeyEncode k) where
  whole := wholeKey_encode k
  short := by rwa [ikeyEncode_length]
  kind := ⟨k.seq, k.kind.code, ikeySeqKind_encode hseq, by cases k.kind <;> decide⟩

theorem wideIndex_blockChain {user : Key} (hlen : user.length + trailerLen < 2 ^ 32)
    (hlt : user < [1]) : BlockChain 10 0 none (wideIndex user) := by
  have hseq : 1 ≤ maxIKeySeq := by decide
  refine ⟨rfl, by decide, by decide, separator_encode hseq hlen, fun p heq => (by cases heq),
    rfl, by decide, by decide, separator_encode hseq (by decide), fun p heq => ?_, rfl⟩
  cases heq
  rw [ikeyCompareBytes_encode hseq hseq, ikeyCompare_eq_lt_iff.2 (.inl hlt)]

theorem wideParts_loadMeta {user : Key} (hlen : user.length + trailerLen < 2 ^ 32)
    (hlt : user < [1]) (cs : Codecs) :
    (wideParts user).reader.loadMeta cs =
      .ok ⟨passFilter, encodeIndex (wideIndex user), indexEntries 0 (wideIndex user), []⟩ := by
  refine Parts.loadMeta_eq (decodeBlock_seal rfl) ?_ ?_ (decodeBlock_seal rfl) ?_ ?_
    (wideIndex_blockChain hlen hlt) ?_
  · rw [wideParts, sealBlock_length]
    omega
  · exact validateBloomFilter_of (by decide) (by decide)
      (show passFilter[passFilter.length - 1]? = some 1 from rfl) (by decide)
  · rw [wideParts, sealBlock_length]
    omega
  · change (List.replicate 10 (0 : UInt8)).length < 2 ^ 64
    rw [List.length_replicate]
    decide
  · refine Parts.loadRangeDel_eq ?_ (fun rt hrt => (by cases hrt)) (by decide)
    rw [if_pos rfl]
    rfl

section

variable {user : Key} {n : Nat} (hlen : user.length + trailerLen = n)
  (hhead : (Varint.put n).length = 5)
include hlen hhead

theorem wideIndex_first :
    (encodeBytes (ikeyEncode ⟨user, 1, .set⟩) ++ encodeBytes (BlockHandle.mk 0 5).encode).length =
      n + 8 := by
  have hhandle : (encodeBytes (BlockHandle.mk 0 5).encode).length = 3 := by decide
  rw [List.length_append, hhandle, encodeBytes, List.length_append, ikeyEncode_length]
  dsimp only
  rw [hlen, hhead]
  omega

theorem wideIndex_length : (encodeIndex (wideIndex user)).length = n + 21 := by
  have hsecond : (encodeBytes (ikeyEncode ⟨[1], 1, .set⟩) ++
      encodeBytes (BlockHandle.mk 5 5).encode).length = 13 := by decide
  change (_ ++ (_ ++ [])).length = _
  rw [List.append_nil, List.length_append, wideIndex_first hlen hhead, hsecond]

theorem wideIndex_entries : indexEntries 0 (wideIndex user) =
    [⟨5, UInt32.ofNat n, 0, 5⟩, ⟨UInt32.ofNat (n + 9), 9, 5, 5⟩] := by
  have hfirst : (ikeyEncode ⟨user, 1, .set⟩).length = n := by rw [ikeyEncode_length, hlen]
  change [IndexEntry.mk (UInt32.ofNat (0 + (Varint.put _).length)) (UInt32.ofNat _) 0 5,
    IndexEntry.mk (UInt32.ofNat (0 + (encodeBytes (ikeyEncode ⟨user, 1, .set⟩) ++
      encodeBytes (BlockHandle.mk 0 5).encode).length + 1)) _ 5 5] = _
  rw [wideIndex_first hlen hhead, hfirst, hhead, Nat.zero_add, Nat.zero_add]
  rfl

theorem wideParts_open (hn : n < 2 ^ 32) (cs : Codecs) :
    newTableReaderOpt cs (wideParts user).file true = .ok (wideParts user).reader := by
  refine (Parts.newTableReaderOpt_file _ cs true ?_).trans (if_pos rfl)
  simp only [Parts.blocks, wideParts, List.length_append, sealBlock_length,
    wideIndex_length hlen hhead, List.length_replicate, List.length_nil]
  change 10 + 0 + (9 + 5) + (n + 21 + 5) < 2 ^ 64
  omega

end

theorem zeros_lt (n : Nat) : List.replicate n (0 : UInt8) < [1] := by
  cases n with
  | zero => decide
  | succ n => exact List.Lex.rel (by decide)

/-- An index block of more than 2^32 bytes whose last separator ends just in front. -/
theorem tableReader_safe_wideIndex :
    ∃ user : Key, 2 ^ 32 < (encodeIndex (wideIndex user)).length ∧
      newTableReaderOpt storeCodecs (wideParts user).file true = .ok (wideParts user).reader ∧
      ∀ userKey seq now,
        Ends (fun _ => True) ((wideParts user).reader.lookupAtTime storeCodecs userKey seq now) :=
        by
  obtain ⟨user, hlen, hlt⟩ : ∃ user : Key, user.length + trailerLen = 2 ^ 32 - 19 ∧ user < [1] := by
    refine ⟨List.replicate (2 ^ 32 - 27) 0, ?_, zeros_lt _⟩
    rw [List.length_replicate]
    decide
  have hhead : (Varint.put (2 ^ 32 - 19)).length = 5 := by decide
  have hopen := wideParts_open hlen hhead (by decide) storeCodecs
  refine ⟨user, by rw [wideIndex_length hlen hhead]; decide, hopen, fun userKey seq now => ?_⟩
  refine (((tableReader_safe storeCodecs _ true).of_ok hopen).2.2.2 userKey seq now).1 ?_
  intro m hm _ e he
  change (wideParts user).reader.loadMeta storeCodecs = .ok m at hm
  rw [wideParts_loadMeta (by omega) hlt, wideIndex_entries hlen hhead] at hm
  cases hm
  rcases List.mem_pair.1 he with rfl | rfl <;> decide

/-- An index block whose last separator ends behind 2^32 opens, and a lookup slices
backwards in it. -/
theorem tableReader_panics :
    ∃ user : Key, newTableReaderOpt storeCodecs (wideParts user).file true =
        .ok (wideParts user).reader ∧
      (wideParts user).reader.lookupAtTime storeCodecs [1] 5 0 = .error .sliceBounds := by
  obtain ⟨user, hlen, hlt⟩ : ∃ user : Key, user.length + trailerLen = 2 ^ 32 - 13 ∧ user < [1] := by
    refine ⟨List.replicate (2 ^ 32 - 21) 0, ?_, zeros_lt _⟩
    rw [List.length_replicate]
    decide
  have hhead : (Varint.put (2 ^ 32 - 13)).length = 5 := by decide
  refine ⟨user, wideParts_open hlen hhead (by decide) storeCodecs, ?_⟩
  have hmeta := wideParts_loadMeta (by omega) hlt storeCodecs
  rw [wideIndex_entries hlen hhead] at hmeta
  generalize hm : MetaBlocks.mk passFilter (encodeIndex (wideIndex user)) _ [] = m at hmeta
  have hsep : m.sep 1 = .error .sliceBounds := by
    rw [← hm]
    exact MetaBlocks.sep_wraps rfl (by decide)
  have hfind : m.findBlock (ikeyEncode (ikeyLookupKey [1] 5)) = .error .sliceBounds := by
    have hcount : m.indexEnt.length = 2 := by rw [← hm]; rfl
    rw [MetaBlocks.findBlock, hcount, Checked.loop, MetaBlocks.findStep]
    change (m.sep 1 >>= _) >>= _ = _
    rw [hsep]
    rfl
  have hpass : mayContain m.filter (bloomHash [1]) = .ok true := by
    rw [← hm]
    exact show mayContain passFilter (bloomHash [1]) = .ok true by decide +kernel
  rw [TableFile.TableReader.lookupAtTime]
  change (wideParts user).reader.loadMeta storeCodecs >>= _ = _
  rw [hmeta, Except.ok_bind, hpass, Except.ok_bind, if_pos rfl,
    TableFile.TableReader.lookupPastBloom, hfind]
  rfl

end WideIndex

end LevisDB
