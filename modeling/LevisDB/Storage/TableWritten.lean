import LevisDB.Storage.BlockRoundTrip
import LevisDB.Storage.TableParse

/-!
# The file a writer leaves

A writer that is fed keys in ascending order cuts them into data blocks, and its
file is those blocks with an index entry for each, the range tombstones, the
filter over the user keys and the footer.
-/

namespace LevisDB

open List

/-- A key a table takes: it has a trailer, of a known kind. -/
structure StoredKey (key : Bytes) : Prop where
  whole : WholeKey key
  kind : ∃ seq code, ikeySeqKind key = some (seq, code) ∧ validIKeyKind code ≠ none

theorem compareParts_gt_iff {a b : Bytes} :
    compareParts (userPart a) (trailerPart a) (userPart b) (trailerPart b) = .gt ↔
      ¬ IKeyBytesLe a b := by
  unfold compareParts IKeyBytesLe
  rcases lt_trichotomy (userPart a) (userPart b) with hlt | heq | hgt
  · simp [hlt]
  · rw [heq, if_neg (lt_irrefl _), if_neg (lt_irrefl _)]
    simp only [lt_irrefl, true_and, false_or, not_le]
    split_ifs with hlt hgt
    · simpa using Nat.le_of_lt hlt
    · simpa using hgt
    · simpa using Nat.not_lt.1 hgt
  · simp [hgt, lt_asymm hgt, ne_of_gt hgt]

namespace TableFile

open DataBlockBuilder DataBlockIter

/-- The entries of each data block: a block ends with the entry that brings it to the
block size, the last block with the last entry. -/
def cutBlocks (blockSize : Int) : List (Bytes × Bytes) → List (Bytes × Bytes) →
    List (List (Bytes × Bytes))
  | [], [] => []
  | e :: cur, [] => [e :: cur]
  | cur, e :: es =>
    if blockSize ≤ ((DataBlockBuilder.new 0).addAll (cur ++ [e])).size then
      (cur ++ [e]) :: cutBlocks blockSize [] es
    else cutBlocks blockSize (cur ++ [e]) es

def storedBlock (cs : Codecs) (c : CodecID) (b : List (Bytes × Bytes)) : Bytes :=
  finishBlock cs (blockPayload 0 b) c

/-- The last key and the handle of each block, from an offset on. -/
def blockIndex (cs : Codecs) (c : CodecID) : Nat → List (List (Bytes × Bytes)) →
    List (Bytes × BlockHandle)
  | _, [] => []
  | off, b :: bs =>
    (lastKeyOf [] b, ⟨off, (storedBlock cs c b).length⟩) ::
      blockIndex cs c (off + (storedBlock cs c b).length) bs

theorem blockIndex_append (cs : Codecs) (c : CodecID) (off : Nat) (bs : List (List (Bytes × Bytes)))
    (b : List (Bytes × Bytes)) :
    blockIndex cs c off (bs ++ [b]) = blockIndex cs c off bs ++
      [(lastKeyOf [] b, ⟨off + (bs.flatMap (storedBlock cs c)).length,
        (storedBlock cs c b).length⟩)] := by
  induction bs generalizing off with
  | nil => rfl
  | cons a bs ih =>
    rw [cons_append, blockIndex, ih, blockIndex, flatMap_cons, length_append,
      Nat.add_assoc]
    rfl

def partsOf (cs : Codecs) (cfg : TableWriterConfig) (rts : List RangeTombstone)
    (bs : List (List (Bytes × Bytes))) : Parts :=
  ⟨bs.flatMap (storedBlock cs cfg.codec),
    if rts = [] then [] else finishBlock cs (encodeRangeDelBlock rts) .none,
    finishBlock cs ((newBloom cfg.bloomBits).build
      (bs.flatten.map fun e => bloomHash (userPart e.1))) .none,
    finishBlock cs (encodeIndex (blockIndex cs cfg.codec 0 bs)) cfg.codec⟩

/-- A writer that has flushed the blocks `bs` and holds `cur` in the open block. -/
structure Holds (cs : Codecs) (cfg : TableWriterConfig) (rts : List RangeTombstone)
    (tw : TableWriter) (bs : List (List (Bytes × Bytes))) (cur : List (Bytes × Bytes)) : Prop where
  err : tw.err = none
  codec : tw.c = cfg.codec
  bloom : tw.bloom = newBloom cfg.bloomBits
  blockSize : tw.blockSize = cfg.blockSize
  rangeDels : tw.rangeDels = rts
  written : tw.w = bs.flatMap (storedBlock cs cfg.codec)
  offset : tw.offset = tw.w.length
  data : tw.data = (DataBlockBuilder.new 0).addAll cur
  index : tw.indexPending.index.buf = encodeIndex (blockIndex cs cfg.codec 0 bs)
  pending : tw.hasPending = true → cur = []
  hashes : tw.hashes = (bs.flatten ++ cur).map fun e => bloomHash (userPart e.1)
  lastKey : tw.lastKey = (bs.flatten ++ cur).getLast?.map Prod.fst
  nonempty : ∀ b ∈ bs, b ≠ []

variable {cs : Codecs} {cfg : TableWriterConfig} {rts : List RangeTombstone} {tw : TableWriter}
  {bs : List (List (Bytes × Bytes))} {cur : List (Bytes × Bytes)}

theorem holds_new (cs : Codecs) (cfg : TableWriterConfig) (rts : List RangeTombstone) :
    Holds cs cfg rts ((newTableWriter cfg).setRangeTombstones rts) [] [] :=
  ⟨rfl, rfl, rfl, rfl, rfl, rfl, rfl, rfl, rfl, fun _ => rfl, rfl, rfl,
    fun _ h => absurd h not_mem_nil⟩

theorem Holds.checkKey (h : Holds cs cfg rts tw bs cur) {key : Bytes} (hkey : StoredKey key)
    (hlast : ∀ e ∈ bs.flatten ++ cur, WholeKey e.1 ∧ ¬ IKeyBytesLe key e.1) :
    ∃ kind, tw.checkKey key = .ok kind := by
  obtain ⟨seq, code, hseqKind, hvalid⟩ := hkey.kind
  obtain ⟨kind, hkind⟩ := Option.ne_none_iff_exists'.1 hvalid
  refine ⟨kind, ?_⟩
  unfold TableWriter.checkKey
  simp only [hseqKind, hkind]
  rw [h.lastKey]
  cases hgetLast : (bs.flatten ++ cur).getLast? with
  | none => rfl
  | some e =>
    obtain ⟨hwhole, hgt⟩ := hlast e (mem_of_getLast? hgetLast)
    have hcompare : ikeyCompareBytes key e.1 = some .gt := by
      rw [ikeyCompareBytes_whole hkey.whole hwhole, compareParts_gt_iff.2 hgt]
    simp only [Option.map_some, hcompare]

theorem indexPending_eq (tw : TableWriter) :
    tw.indexPending = { tw with index := tw.indexPending.index, hasPending := false } := by
  obtain ⟨w, c, bloom, blockSize, offset, data, index, hashes, pendingBH, hasPending⟩ := tw
  cases hasPending <;> rfl

theorem addAll_append (b : DataBlockBuilder) (es fs : List (Bytes × Bytes)) :
    b.addAll (es ++ fs) = (b.addAll es).addAll fs := foldl_append

theorem addAll_entries (interval : Nat) (es : List (Bytes × Bytes)) :
    ((DataBlockBuilder.new interval).addAll es).entries = es.length := by
  obtain ⟨done, cur, hbuilding, hflat⟩ := (building_new interval).addAll es
  rw [hbuilding.entries, hflat]
  rfl

theorem lastKeyOf_eq (prev : Bytes) (es : List (Bytes × Bytes)) :
    lastKeyOf prev es = (es.getLast?.map Prod.fst).getD prev := by
  induction es generalizing prev with
  | nil => rfl
  | cons e es ih =>
    rw [lastKeyOf, foldl_cons]
    change lastKeyOf e.1 es = _
    rw [ih, List.getLast?_cons]
    cases es.getLast? <;> rfl

section

variable (h : Holds cs cfg rts tw bs cur)
include h

theorem Holds.append (key value : Bytes) (kind : IKeyKind) :
    Holds cs cfg rts (tw.indexPending.append key value kind) bs (cur ++ [(key, value)]) := by
  have hindex := h.index
  rw [indexPending_eq]
  refine ⟨h.err, h.codec, h.bloom, h.blockSize, h.rangeDels, h.written, h.offset, ?_, hindex,
    fun hp => absurd hp (by simp [TableWriter.append]), ?_, ?_, h.nonempty⟩
  · rw [addAll_append, ← h.data]
    rfl
  · change tw.hashes ++ [bloomHash (userPart key)] = _
    rw [h.hashes]
    simp only [map_append, map_cons, map_nil, append_assoc]
  · rw [← append_assoc, List.getLast?_concat]
    rfl

theorem Holds.flush (hcur : cur ≠ []) :
    Holds cs cfg rts (tw.flushDataBlock cs) (bs ++ [cur]) [] := by
  have hempty : tw.data.empty = false := by
    rw [DataBlockBuilder.empty, h.data, addAll_entries]
    simpa using hcur
  have hpending : tw.hasPending = false := by
    cases hp : tw.hasPending with
    | false => rfl
    | true => exact absurd (h.pending hp) hcur
  have hindex : tw.index.buf = encodeIndex (blockIndex cs cfg.codec 0 bs) := by
    have hsame : tw.indexPending = tw := by
      unfold TableWriter.indexPending
      rw [hpending]
      rfl
    rw [← h.index, hsame]
  have hlast : tw.lastKey.getD [] = lastKeyOf [] cur := by
    obtain ⟨e, he⟩ := Option.ne_none_iff_exists'.1 (mt List.getLast?_eq_none_iff.1 hcur)
    rw [h.lastKey, lastKeyOf_eq, List.getLast?_append, he]
    rfl
  have hblock : finishBlock cs tw.data.finish tw.c = storedBlock cs cfg.codec cur := by
    rw [h.data, h.codec]
    rfl
  unfold TableWriter.flushDataBlock
  rw [hempty]
  refine ⟨h.err, h.codec, h.bloom, h.blockSize, h.rangeDels, ?_, ?_, ?_, ?_, fun _ => rfl, ?_, ?_,
    ?_⟩
  · change tw.w ++ finishBlock cs tw.data.finish tw.c = _
    rw [hblock, h.written, flatMap_append, flatMap_singleton]
  · change tw.offset + (finishBlock cs tw.data.finish tw.c).length =
      (tw.w ++ finishBlock cs tw.data.finish tw.c).length
    rw [length_append, h.offset]
  · change DataBlockBuilder.new tw.data.restartInterval = _
    obtain ⟨done, last, hbuilding, _⟩ := (building_new 0).addAll cur
    rw [h.data, hbuilding.interval]
    rfl
  · change tw.index.buf ++ (encodeBytes (tw.lastKey.getD []) ++ encodeBytes
      (BlockHandle.encode ⟨tw.offset, (finishBlock cs tw.data.finish tw.c).length⟩)) = _
    rw [hindex, hlast, hblock, blockIndex_append, encodeIndex, encodeIndex, flatMap_append,
      flatMap_singleton, h.offset, h.written, Nat.zero_add]
  · rw [append_nil, flatten_append, flatten_singleton]
    exact h.hashes
  · rw [append_nil, flatten_append, flatten_singleton]
    exact h.lastKey
  · intro b hb
    rcases mem_append.1 hb with hb | hb
    · exact h.nonempty b hb
    · rw [mem_singleton.1 hb]
      exact hcur

theorem Holds.add {key : Bytes} (value : Bytes)
    (hkey : StoredKey key)
    (hlast : ∀ e ∈ bs.flatten ++ cur, WholeKey e.1 ∧ ¬ IKeyBytesLe key e.1) :
    ∃ bs' cur', Holds cs cfg rts (tw.add cs key value) bs' cur' ∧
      bs'.flatten ++ cur' = (bs.flatten ++ cur) ++ [(key, value)] ∧
      ∀ es, bs' ++ cutBlocks cfg.blockSize cur' es =
        bs ++ cutBlocks cfg.blockSize cur ((key, value) :: es) := by
  obtain ⟨kind, hkind⟩ := h.checkKey hkey hlast
  have happend := h.append key value kind
  have hadd : tw.add cs key value = (tw.indexPending.append key value kind).flushFull cs := by
    unfold TableWriter.add
    simp only [h.err, hkind]
  have hsize : (tw.indexPending.append key value kind).blockSize ≤
      (tw.indexPending.append key value kind).data.size ↔
      cfg.blockSize ≤ ((DataBlockBuilder.new 0).addAll (cur ++ [(key, value)])).size := by
    rw [happend.blockSize, happend.data]
  have hcut : ∀ es, cutBlocks cfg.blockSize cur ((key, value) :: es) =
      if cfg.blockSize ≤ ((DataBlockBuilder.new 0).addAll (cur ++ [(key, value)])).size then
        (cur ++ [(key, value)]) :: cutBlocks cfg.blockSize [] es
      else cutBlocks cfg.blockSize (cur ++ [(key, value)]) es := by
    intro es
    rw [cutBlocks]
  rw [hadd]
  unfold TableWriter.flushFull
  by_cases hfull : cfg.blockSize ≤ ((DataBlockBuilder.new 0).addAll (cur ++ [(key, value)])).size
  · rw [if_pos (hsize.2 hfull)]
    refine ⟨bs ++ [cur ++ [(key, value)]], [], happend.flush (by simp), by simp, fun es => ?_⟩
    rw [hcut, if_pos hfull, append_assoc]
    rfl
  · rw [if_neg (mt hsize.1 hfull)]
    refine ⟨bs, cur ++ [(key, value)], happend, by simp, fun es => ?_⟩
    rw [hcut, if_neg hfull]

end

structure Writable (es : List (Bytes × Bytes)) : Prop where
  stored : ∀ e ∈ es, StoredKey e.1
  ascend : KeysAscend es

theorem Holds.addAll (h : Holds cs cfg rts tw bs cur) {es : List (Bytes × Bytes)}
    (hes : Writable (bs.flatten ++ cur ++ es)) :
    ∃ bs' cur', Holds cs cfg rts (tw.addAll cs es) bs' cur' ∧
      bs' ++ cutBlocks cfg.blockSize cur' [] = bs ++ cutBlocks cfg.blockSize cur es := by
  induction es generalizing tw bs cur with
  | nil => exact ⟨bs, cur, h, rfl⟩
  | cons e es ih =>
    have hsorted := (pairwise_append.1 hes.ascend).2.2
    have hlast : ∀ x ∈ bs.flatten ++ cur, WholeKey x.1 ∧ ¬ IKeyBytesLe e.1 x.1 := fun x hx =>
      ⟨(hes.stored x (mem_append_left _ hx)).whole, hsorted x hx e mem_cons_self⟩
    obtain ⟨bs₁, cur₁, h₁, hflat₁, hcut₁⟩ :=
      h.add e.2 (hes.stored e (mem_append_right _ mem_cons_self)) hlast
    have hes₁ : Writable (bs₁.flatten ++ cur₁ ++ es) := by
      rw [hflat₁, append_assoc]
      exact hes
    obtain ⟨bs₂, cur₂, h₂, hcut₂⟩ := ih h₁ hes₁
    exact ⟨bs₂, cur₂, h₂, hcut₂.trans (hcut₁ es)⟩

theorem cutBlocks_nil (blockSize : Int) (cur : List (Bytes × Bytes)) :
    cutBlocks blockSize cur [] = if cur = [] then [] else [cur] := by
  cases cur <;> rfl

theorem Holds.flush_last (h : Holds cs cfg rts tw bs cur) :
    Holds cs cfg rts (tw.flushDataBlock cs) (bs ++ cutBlocks cfg.blockSize cur []) [] := by
  rw [cutBlocks_nil]
  by_cases hcur : cur = []
  · have hempty : tw.data.empty = true := by
      rw [DataBlockBuilder.empty, h.data, hcur]
      rfl
    subst hcur
    rw [if_pos rfl, append_nil]
    unfold TableWriter.flushDataBlock
    rw [if_pos hempty]
    exact h
  · rw [if_neg hcur]
    exact h.flush hcur

theorem Holds.writeRangeDels (h : Holds cs cfg rts tw bs []) :
    (tw.writeRangeDels cs).1 = (partsOf cs cfg rts bs).rangeDelBH ∧
      (tw.writeRangeDels cs).2.w = (partsOf cs cfg rts bs).data ++
      (partsOf cs cfg rts bs).rangeDel ∧
      (tw.writeRangeDels cs).2.offset = (tw.writeRangeDels cs).2.w.length := by
  have hw : tw.w = (partsOf cs cfg rts bs).data := h.written
  unfold TableWriter.writeRangeDels Parts.rangeDelBH
  rw [h.rangeDels]
  by_cases hrts : rts = []
  · have hnone : (partsOf cs cfg rts bs).rangeDel = [] := if_pos hrts
    rw [if_pos hrts, if_pos hnone, hnone, append_nil]
    exact ⟨rfl, hw, h.offset⟩
  · have hsome : (partsOf cs cfg rts bs).rangeDel =
      finishBlock cs (encodeRangeDelBlock rts) .none :=
      if_neg hrts
    have hne : (partsOf cs cfg rts bs).rangeDel ≠ [] := by
      rw [hsome, ← length_pos_iff, finishBlock_none_length]
      unfold blockTrailerLen
      omega
    rw [if_neg hrts, if_neg hne, TableWriter.writeBlock, hsome, ← hw]
    exact ⟨by rw [h.offset], rfl, by rw [h.offset, length_append]⟩

theorem Holds.finish (h : Holds cs cfg rts tw bs cur) :
    tw.finish cs = .ok ((partsOf cs cfg rts (bs ++ cutBlocks cfg.blockSize cur [])).file.length,
      (partsOf cs cfg rts (bs ++ cutBlocks cfg.blockSize cur [])).file) := by
  have hflush := h.flush_last
  generalize bs ++ cutBlocks cfg.blockSize cur [] = bs' at hflush ⊢
  unfold TableWriter.finish
  rw [h.err]
  dsimp only
  generalize hdone : (tw.flushDataBlock cs).indexPending = done
  have hindex : done.index.buf = encodeIndex (blockIndex cs cfg.codec 0 bs') := by
    rw [← hdone]
    exact hflush.index
  have hholds : Holds cs cfg rts done bs' [] := by
    have hindex := hflush.index
    rw [← hdone, indexPending_eq]
    exact ⟨hflush.err, hflush.codec, hflush.bloom, hflush.blockSize, hflush.rangeDels,
      hflush.written, hflush.offset, hflush.data, hindex, fun _ => rfl, hflush.hashes,
      hflush.lastKey, hflush.nonempty⟩
  have hfilter : finishBlock cs (done.bloom.build done.hashes) .none =
      (partsOf cs cfg rts bs').filter := by
    rw [hholds.bloom, hholds.hashes, append_nil]
    rfl
  have hindexBlock : finishBlock cs done.index.buf done.c = (partsOf cs cfg rts bs').index := by
    rw [hindex, hholds.codec]
    rfl
  obtain ⟨hhandle, hw, hoffset⟩ := hholds.writeRangeDels
  have hfile : (done.writeTail cs).w = (partsOf cs cfg rts bs').file := by
    change (done.writeRangeDels cs).2.w ++ finishBlock cs (done.bloom.build done.hashes) .none ++
      finishBlock cs done.index.buf done.c ++ TableWriter.encodeFooter
        ⟨(done.writeRangeDels cs).2.offset +
          (finishBlock cs (done.bloom.build done.hashes) .none).length,
          (finishBlock cs done.index.buf done.c).length⟩
        ⟨(done.writeRangeDels cs).2.offset,
          (finishBlock cs (done.bloom.build done.hashes) .none).length⟩
        (done.writeRangeDels cs).1 = _
    rw [hfilter, hindexBlock, hoffset, hw, hhandle, ← length_append]
    rfl
  have hsize : (done.writeTail cs).offset = (done.writeTail cs).w.length := by
    change (done.writeRangeDels cs).2.offset +
      (finishBlock cs (done.bloom.build done.hashes) .none).length +
      (finishBlock cs done.index.buf done.c).length + (TableWriter.encodeFooter _ _ _).length =
      ((done.writeRangeDels cs).2.w ++ finishBlock cs (done.bloom.build done.hashes) .none ++
        finishBlock cs done.index.buf done.c ++ TableWriter.encodeFooter _ _ _).length
    rw [hoffset]
    simp only [length_append]
  rw [hsize, hfile]

theorem le_finishBlock_length (cs : Codecs) (payload : Bytes) (c : CodecID) :
    blockTrailerLen ≤ (finishBlock cs payload c).length := by
  unfold finishBlock
  dsimp only
  split_ifs
  · rw [sealBlock_length]
    omega
  · rw [sealBlock_length]
    omega

/-- The data blocks and the index are below the limits of 32 bits. -/
structure Small (cs : Codecs) (cfg : TableWriterConfig) (bs : List (List (Bytes × Bytes))) : Prop
    where
  payload : ∀ b ∈ bs, (blockPayload 0 b).length < 2 ^ 32
  stored : ∀ b ∈ bs, (storedBlock cs cfg.codec b).length < 2 ^ 32
  index : (encodeIndex (blockIndex cs cfg.codec 0 bs)).length < 2 ^ 32

theorem lastKeyOf_mem {b : List (Bytes × Bytes)} (h : b ≠ []) : ∃ e ∈ b, lastKeyOf [] b = e.1 := by
  obtain ⟨e, he⟩ := Option.ne_none_iff_exists'.1 (mt List.getLast?_eq_none_iff.1 h)
  refine ⟨e, mem_of_getLast? he, ?_⟩
  rw [lastKeyOf_eq, he]
  rfl

theorem separator_lastKeyOf {b : List (Bytes × Bytes)} (hne : b ≠ [])
    (hstored : ∀ e ∈ b, StoredKey e.1) (hshort : (blockPayload 0 b).length < 2 ^ 32) :
    Separator (lastKeyOf [] b) := by
  obtain ⟨e, he, hlast⟩ := lastKeyOf_mem hne
  obtain ⟨_, _, _, gs, _, hover, hflat, _⟩ := over_blockPayload hshort fun e he =>
    (hstored e he).whole
  rw [hlast]
  exact ⟨(hstored e he).whole, hover.keys e (by rw [hflat]; exact he), (hstored e he).kind⟩

theorem blockChain_blockIndex {c : CodecID} {off : Nat} {prev : Option Bytes}
    (hne : ∀ b ∈ bs, b ≠ []) (hpayload : ∀ b ∈ bs, (blockPayload 0 b).length < 2 ^ 32)
    (hstored : ∀ b ∈ bs, (storedBlock cs c b).length < 2 ^ 32) (hes : Writable bs.flatten)
    (hprev : ∀ p, prev = some p → ∀ e ∈ bs.flatten, ikeyCompareBytes p e.1 = some .lt) :
    BlockChain (off + (bs.flatMap (storedBlock cs c)).length) off prev (blockIndex cs c off bs) :=
    by
  induction bs generalizing off prev with
  | nil => rfl
  | cons b bs ih =>
    rw [forall_mem_cons] at hne hpayload hstored
    have hstoredKeys : ∀ e ∈ b, StoredKey e.1 := fun e he =>
      hes.stored e (mem_append_left _ he)
    have hsep := separator_lastKeyOf hne.1 hstoredKeys hpayload.1
    obtain ⟨last, hlast, hlastKey⟩ := lastKeyOf_mem hne.1
    have hascend := pairwise_append.1 hes.ascend
    refine ⟨rfl, le_finishBlock_length _ _ _, hstored.1, hsep, ?_, ?_⟩
    · intro p hp
      rw [hlastKey]
      exact hprev p hp last (mem_append_left _ hlast)
    · rw [flatMap_cons, length_append, ← Nat.add_assoc]
      refine ih hne.2 hpayload.2 hstored.2
        ⟨fun e he => hes.stored e (mem_append_right _ he), hascend.2.1⟩ ?_
      intro p hp e he
      cases hp
      rw [hlastKey]
      exact (ikeyCompareBytes_lt_iff (hstoredKeys last hlast).whole
        (hes.stored e (mem_append_right _ he)).whole).2 (hascend.2.2 last hlast e he)

theorem validateBloomFilter_build (b : BloomFilter) (hashes : List UInt32) :
    validateBloomFilter (b.build hashes) = .ok () := by
  obtain ⟨m, hfilled⟩ := build_filled b hashes
  exact validateBloomFilter_filled hfilled (probes_pos b) (probes_le b)

def metaOf (cs : Codecs) (cfg : TableWriterConfig) (rts : List RangeTombstone)
    (bs : List (List (Bytes × Bytes))) : MetaBlocks :=
  ⟨(newBloom cfg.bloomBits).build (bs.flatten.map fun e => bloomHash (userPart e.1)),
    encodeIndex (blockIndex cs cfg.codec 0 bs), indexEntries 0 (blockIndex cs cfg.codec 0 bs), rts⟩

theorem rangeDel_recordable (hrts : ∀ rt ∈ rts, rt.start < rt.stop ∧ rt.seq < 2 ^ 64)
    (hfile : (partsOf cs cfg rts bs).file.length < 2 ^ 64) :
    (∀ rt ∈ rts, Recordable rt) ∧ rts.length < 2 ^ 64 := by
  by_cases hnil : rts = []
  · subst hnil
    exact ⟨fun _ h => absurd h not_mem_nil, by decide⟩
  have hlen : (encodeRangeDelBlock rts).length < 2 ^ 64 := by
    have hpart : (partsOf cs cfg rts bs).rangeDel =
      finishBlock cs (encodeRangeDelBlock rts) .none :=
      if_neg hnil
    rw [Parts.file_length, Parts.blocks] at hfile
    simp only [length_append, hpart, finishBlock_none_length] at hfile
    omega
  rw [encodeRangeDelBlock, length_append] at hlen
  refine ⟨fun rt hrt => ?_, ?_⟩
  · have hin : (encodeRangeTombstone rt).length ≤ (rts.flatMap encodeRangeTombstone).length := by
      obtain ⟨before, after, rfl⟩ := append_of_mem hrt
      rw [flatMap_append, flatMap_cons, length_append, length_append]
      omega
    simp only [encodeRangeTombstone, encodeBytes, length_append] at hin
    exact ⟨(hrts rt hrt).1, by omega, by omega, (hrts rt hrt).2⟩
  · have hcount := length_le_encodeRangeTombstones rts
    omega

theorem partsOf_opens (hcs : cs.Lossless) (hrts : ∀ rt ∈ rts, rt.start < rt.stop ∧ rt.seq < 2 ^ 64)
    (hne : ∀ b ∈ bs, b ≠ []) (hsmall : Small cs cfg bs) (hes : Writable bs.flatten)
    (hfile : (partsOf cs cfg rts bs).file.length < 2 ^ 64) (lazyMeta : Bool) :
    ∃ tr, newTableReaderOpt cs (partsOf cs cfg rts bs).file lazyMeta = .ok tr ∧
      tr.file = (partsOf cs cfg rts bs).file ∧ tr.ensureMeta cs = .ok (metaOf cs cfg rts bs) := by
  have hlen := (partsOf cs cfg rts bs).file_length
  have hdata : (partsOf cs cfg rts bs).data.length < 2 ^ 64 := by
    rw [hlen, Parts.blocks] at hfile
    simp only [length_append] at hfile
    omega
  have hchain : BlockChain (0 + (partsOf cs cfg rts bs).data.length) 0 none
      (blockIndex cs cfg.codec 0 bs) :=
    blockChain_blockIndex hne hsmall.payload hsmall.stored hes fun _ h => by cases h
  rw [Nat.zero_add] at hchain
  obtain ⟨hrecordable, hcount⟩ := rangeDel_recordable hrts hfile
  have hrange : (partsOf cs cfg rts bs).reader.loadRangeDel cs = .ok rts := by
    refine Parts.loadRangeDel_eq ?_ hrecordable hcount
    split_ifs with hnil
    · exact if_pos hnil
    · have hpart : (partsOf cs cfg rts bs).rangeDel =
          finishBlock cs (encodeRangeDelBlock rts) .none := if_neg hnil
      rw [hpart]
      exact ⟨decodeBlock_finish hcs _ _, le_finishBlock_length _ _ _⟩
  have hload : (partsOf cs cfg rts bs).reader.loadMeta cs = .ok (metaOf cs cfg rts bs) :=
    Parts.loadMeta_eq (decodeBlock_finish hcs ((newBloom cfg.bloomBits).build _) .none)
      (le_finishBlock_length cs ((newBloom cfg.bloomBits).build _) .none)
      (validateBloomFilter_build _ _) (decodeBlock_finish hcs (encodeIndex _) cfg.codec)
      (le_finishBlock_length cs (encodeIndex _) cfg.codec) hdata hchain hrange
  have hopen := (partsOf cs cfg rts bs).newTableReaderOpt_file cs lazyMeta (by omega)
  rw [hload] at hopen
  cases lazyMeta with
  | true => exact ⟨_, hopen, rfl, hload⟩
  | false => exact ⟨_, hopen, rfl, rfl⟩

end TableFile

end LevisDB
