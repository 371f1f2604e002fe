import LevisDB.Storage.TableRead

/-!
# Reading back what was written

Each part of a table file reads back: handles, blocks, the footer, the range tombstones
and the index. The index of a table names its data blocks one behind the other, up to
where the data ends; its separators ascend.
-/

namespace LevisDB

open List LevisDB.Except Checked

/-- A handle whose numbers fit 64 bits. -/
def BlockHandle.Fits (h : BlockHandle) : Prop := h.offset < 2 ^ 64 ∧ h.length < 2 ^ 64

theorem decodeHandle_encode {h : BlockHandle} (hfits : h.Fits) {src pre post : Bytes}
    (hsrc : src = pre ++ (h.encode ++ post)) :
    decodeHandle src pre.length = .ok (some (h, pre.length + h.encode.length)) := by
  subst hsrc
  have hrest : slice (Varint.put h.offset ++ (Varint.put h.length ++ post))
      (Varint.put h.offset).length (Varint.put h.offset ++ (Varint.put h.length ++ post)).length =
      .ok (Varint.put h.length ++ post) := slice_back _ _
  rw [decodeHandle, slice_back, ok_bind, BlockHandle.encode, append_assoc,
    uvarint_put hfits.1]
  dsimp only
  rw [hrest, ok_bind, uvarint_put hfits.2, length_append]
  rfl

theorem decodeBlock_seal {cs : Codecs} {id : CodecID} {out payload : Bytes}
    (h : (cs.library id).decompress out = some payload) :
    decodeBlock cs (sealBlock id out) = .ok payload := by
  generalize hraw : sealBlock id out = raw
  have hsum : blockChecksum (out ++ [id.byte]) < 2 ^ 32 := UInt32.toNat_lt _
  have hlen : raw.length = out.length + 1 + 4 := by
    rw [← hraw, sealBlock_length]
    rfl
  have hstop : raw.length - 4 = (out ++ [id.byte]).length := by
    rw [length_append, length_singleton]
    omega
  have hlast : (out ++ [id.byte]).length - 1 = out.length := by simp
  have hbody : slice raw 0 (raw.length - 4) = .ok (out ++ [id.byte]) := by
    rw [hstop, ← hraw]
    exact slice_front _ _
  have htail : slice raw (raw.length - 4) raw.length =
      .ok (LittleEndian.put 4 (blockChecksum (out ++ [id.byte]))) := by
    rw [hstop, ← hraw]
    exact slice_back _ _
  have hwant := leUint32_put hsum []
  rw [append_nil] at hwant
  rw [decodeBlock, refuse_of_not (by unfold blockTrailerLen; omega), ok_bind,
    subtract_of_le (by omega), ok_bind, hbody, ok_bind, htail, ok_bind, hwant,
    ok_bind, refuse_of_not (by simp), ok_bind,
    subtract_of_le (by simp), ok_bind, hlast, byteAt_append, ok_bind, slice_front,
    ok_bind, codecFromID_byte, ok_bind, h]
  rfl

/-- Codecs that decompress what they compressed. -/
def Codecs.Lossless (cs : Codecs) : Prop :=
  ∀ id payload, (cs.library id).decompress ((cs.library id).compress payload) = some payload

theorem decodeBlock_finish {cs : Codecs} (h : cs.Lossless) (payload : Bytes) (c : CodecID) :
    decodeBlock cs (finishBlock cs payload c) = .ok payload := by
  unfold finishBlock
  dsimp only
  split_ifs
  · exact decodeBlock_seal rfl
  · exact decodeBlock_seal (h c payload)

namespace TableFile

variable {filter payload post pre : Bytes} {rts : List RangeTombstone} {dataEnd : Nat}
  {prev : Option Bytes}

theorem checkRange_of_le {h : BlockHandle} (hin : h.offset + h.length ≤ dataEnd)
    (err : Err) : checkRange dataEnd h err = .ok () := by
  rw [checkRange, refuse_of_not (by omega), ok_bind, subtract_of_le (by omega),
    ok_bind, refuse_of_not (by omega)]

theorem readBlockRaw_of_append {cs : Codecs} {block : Bytes}
    (hblock : decodeBlock cs block = .ok payload) (hlong : blockTrailerLen ≤ block.length)
    (hpost : footerLen ≤ post.length) :
    readBlockRaw cs (pre ++ (block ++ post)) ⟨pre.length, block.length⟩ = .ok payload := by
  have hlen : (pre ++ (block ++ post)).length = pre.length + (block.length + post.length) := by
    rw [length_append, length_append]
  rw [readBlockRaw, refuse_of_not (by omega), ok_bind, subtract_of_le (by omega),
    ok_bind, refuse_of_not (by dsimp only; omega), ok_bind,
    checkRange_of_le (by dsimp only; omega), ok_bind, deref,
    refuse_of_not (by dsimp only; omega), ok_bind, slice_eq rfl, ok_bind, hblock]

theorem footerHandle_encode {h : BlockHandle} (hfits : h.Fits) {footer : Bytes}
    (hfooter : footer = pre ++ (h.encode ++ post)) (err : Err) :
    footerHandle footer pre.length err = .ok (h, pre.length + h.encode.length) := by
  rw [footerHandle, decodeHandle_encode hfits hfooter]
  rfl

theorem encode_length_le (h : BlockHandle) : h.encode.length ≤ 20 := by
  have hoff := Varint.put_length_le h.offset
  have hlen := Varint.put_length_le h.length
  rw [BlockHandle.encode, length_append]
  unfold Varint.maxLen at hoff hlen
  omega

theorem decodeFooter_encode {index filter rangeDel : BlockHandle} (hindex : index.Fits)
    (hfilter : filter.Fits) (hrangeDel : rangeDel.Fits) :
    decodeFooter (TableWriter.encodeFooter index filter rangeDel) =
      .ok (index, filter, rangeDel) := by
  have hi := encode_length_le index
  have hf := encode_length_le filter
  have hr := encode_length_le rangeDel
  generalize hp : index.encode ++ (filter.encode ++ rangeDel.encode) = p
  have hplen : p.length = index.encode.length + (filter.encode.length + rangeDel.encode.length) :=
    by
    rw [← hp, length_append, length_append]
  have htake : p.take (footerLen - 8) = p := take_of_length_le (by unfold footerLen; omega)
  generalize hpad : replicate (footerLen - 8 - p.length) (0 : UInt8) = padding
  have hpadlen : p.length + padding.length = footerLen - 8 := by
    rw [← hpad, length_replicate]
    unfold footerLen
    omega
  generalize hfooter : TableWriter.encodeFooter index filter rangeDel = footer
  have hsplit : footer = (p ++ padding) ++ LittleEndian.put 8 magic := by
    rw [← hfooter, TableWriter.encodeFooter, hp, htake, hpad]
  have hmagic : slice footer (footerLen - 8) footer.length = .ok (LittleEndian.put 8 magic) := by
    have hback := slice_back (p ++ padding) (LittleEndian.put 8 magic)
    rw [length_append, hpadlen] at hback
    rw [hsplit]
    exact hback
  have hvalue := leUint64_put (show magic < 2 ^ 64 by decide) []
  rw [append_nil] at hvalue
  have hfirst : footer = [] ++ (index.encode ++ (filter.encode ++ (rangeDel.encode ++
      (padding ++ LittleEndian.put 8 magic)))) := by
    rw [hsplit, ← hp]
    simp
  have hsecond : footer = index.encode ++ (filter.encode ++ (rangeDel.encode ++
      (padding ++ LittleEndian.put 8 magic))) := hfirst
  have hthird : footer = (index.encode ++ filter.encode) ++ (rangeDel.encode ++
      (padding ++ LittleEndian.put 8 magic)) := by
    rw [hsecond, append_assoc]
  have hzeros : slice footer p.length (footerLen - 8) = .ok padding := by
    rw [← hpadlen]
    exact slice_eq (show footer = p ++ (padding ++ LittleEndian.put 8 magic) by
      rw [hsplit, append_assoc])
  have hstart := footerHandle_encode hindex hfirst (.tableFile .badIndexHandle)
  rw [length_nil, Nat.zero_add] at hstart
  have hnext := footerHandle_encode hrangeDel hthird (.tableFile .badRangeDelHandle)
  rw [length_append] at hnext
  have hsum : index.encode.length + filter.encode.length + rangeDel.encode.length = p.length := by
    omega
  rw [decodeFooter, hmagic, ok_bind, hvalue, ok_bind,
    refuse_of_not (by simp), ok_bind, hstart, ok_bind]
  dsimp only
  rw [footerHandle_encode hfilter hsecond, ok_bind]
  dsimp only
  rw [hnext, ok_bind]
  dsimp only
  rw [hsum, refuse_of_not (by omega), ok_bind, hzeros, ok_bind,
    refuse_of_not ?_]
  · rfl
  · rintro ⟨b, hb, hne⟩
    rw [← hpad] at hb
    exact hne (eq_of_mem_replicate hb)

def encodeIndex (blocks : List (Bytes × BlockHandle)) : Bytes :=
  blocks.flatMap fun b => encodeBytes b.1 ++ encodeBytes b.2.encode

def indexEntries (pos : Nat) : List (Bytes × BlockHandle) → List IndexEntry
  | [] => []
  | (sep, h) :: blocks =>
    ⟨UInt32.ofNat (pos + (Varint.put sep.length).length), UInt32.ofNat sep.length, h.offset,
        h.length⟩ ::
      indexEntries (pos + (encodeBytes sep ++ encodeBytes h.encode).length) blocks

structure Separator (sep : Bytes) : Prop where
  whole : WholeKey sep
  short : sep.length < 2 ^ 32
  kind : ∃ seq code, ikeySeqKind sep = some (seq, code) ∧ validIKeyKind code ≠ none

/-- The blocks follow each other from `next` to the end of the data, and their separators
ascend from `prev` on. -/
def BlockChain (dataEnd : Nat) : Nat → Option Bytes → List (Bytes × BlockHandle) → Prop
  | next, _, [] => next = dataEnd
  | next, prev, (sep, h) :: blocks =>
    h.offset = next ∧ blockTrailerLen ≤ h.length ∧ h.length < 2 ^ 32 ∧ Separator sep ∧
      (∀ p, prev = some p → ikeyCompareBytes p sep = some .lt) ∧
      BlockChain dataEnd (next + h.length) (some sep) blocks

theorem BlockChain.le {next : Nat} {blocks : List (Bytes × BlockHandle)}
    (h : BlockChain dataEnd next prev blocks) : next ≤ dataEnd := by
  induction blocks generalizing next prev with
  | nil => exact Nat.le_of_eq h
  | cons b blocks ih =>
    have hrest := ih h.2.2.2.2.2
    omega

theorem wholeHandle_encode {h : BlockHandle} (hfits : h.Fits) : wholeHandle h.encode = .ok h := by
  have hdecode := decodeHandle_encode hfits (show h.encode = [] ++ (h.encode ++ []) by simp)
  rw [length_nil, Nat.zero_add] at hdecode
  rw [wholeHandle, hdecode, ok_bind]
  dsimp only
  rw [refuse_of_not (by simp)]
  rfl

theorem checkOrder_of {key : Bytes} (err : Err)
    (h : ∀ p, prev = some p → ikeyCompareBytes p key = some .lt) :
    checkOrder prev key err = .ok () := by
  cases prev with
  | none => rfl
  | some p =>
    rw [checkOrder, DataBlockIter.compareKeys, h p rfl]
    change refuse (Ordering.lt ≠ .lt) err = .ok ()
    rw [refuse_of_not (not_not.2 rfl)]

theorem checkSeparator_of {sep : Bytes} (hsep : Separator sep)
    (hprev : ∀ p, prev = some p → ikeyCompareBytes p sep = some .lt) :
    checkSeparator prev sep = .ok () := by
  obtain ⟨seq, code, hkind, hvalid⟩ := hsep.kind
  obtain ⟨kind, hkind'⟩ := Option.ne_none_iff_exists'.1 hvalid
  unfold checkSeparator
  simp only [hkind, hkind', checkOrder_of _ hprev]

theorem checkDataHandle_of {file : Bytes} {h : BlockHandle}
    (hlong : blockTrailerLen ≤ h.length) (hshort : h.length < 2 ^ 32)
    (hin : h.offset + h.length ≤ dataEnd) (hfile : dataEnd + footerLen ≤ file.length) :
    checkDataHandle file dataEnd h.offset h = .ok () := by
  rw [checkDataHandle, refuse_of_not (by omega), ok_bind, subtract_of_le (by omega),
    ok_bind, refuse_of_not (by omega), ok_bind, checkRange_of_le (by omega),
    ok_bind, refuse_of_not (by simp), ok_bind, subtract_of_le (by omega),
    ok_bind, refuse_of_not (by omega)]

theorem parseEntry_encode {file sep : Bytes} {h : BlockHandle}
    (ents : List IndexEntry)
    (hpayload : payload = pre ++ ((encodeBytes sep ++ encodeBytes h.encode) ++ post))
    (hlong : blockTrailerLen ≤ h.length) (hshort : h.length < 2 ^ 32) (hfits : h.Fits)
    (hin : h.offset + h.length ≤ dataEnd) (hfile : dataEnd + footerLen ≤ file.length)
    (hsep : Separator sep) (hprev : ∀ p, prev = some p → ikeyCompareBytes p sep = some .lt) :
    parseEntry file payload dataEnd ⟨pre.length, h.offset, prev, ents⟩ =
      .ok ⟨pre.length + (encodeBytes sep ++ encodeBytes h.encode).length, h.offset + h.length,
        some sep,
        ents ++ [⟨UInt32.ofNat (pre.length + (Varint.put sep.length).length),
          UInt32.ofNat sep.length, h.offset, h.length⟩]⟩ := by
  have hwhole : trailerLen ≤ sep.length := hsep.whole
  have hsepShort := hsep.short
  have hhandle := encode_length_le h
  have hkeyLen : payload = pre ++
    (Varint.put sep.length ++ (sep ++ (encodeBytes h.encode ++ post))) := by
    rw [hpayload, encodeBytes]
    simp
  have hkey : payload = (pre ++ Varint.put sep.length) ++ (sep ++ (encodeBytes h.encode ++ post)) :=
    by
    rw [hkeyLen, append_assoc]
  have hvalLen : payload = (pre ++ Varint.put sep.length ++ sep) ++
      (Varint.put h.encode.length ++ (h.encode ++ post)) := by
    rw [hkey, encodeBytes]
    simp
  have hval : payload = (pre ++ Varint.put sep.length ++ sep ++ Varint.put h.encode.length) ++
      (h.encode ++ post) := by
    rw [hvalLen, append_assoc, append_assoc]
    simp
  have hlen := congrArg List.length hkey
  have hread₁ := uvarintAt_put (by omega) (.tableFile .separatorLength) hkeyLen
  have hread₂ := uvarintAt_put (by omega) (.tableFile .handleLength) hvalLen
  have hread₃ := takeAt_eq (.tableFile .handleExceeds) hval
  have hread₄ := slice_eq hkey
  simp only [length_append] at hlen hread₂ hread₃ hread₄
  rw [parseEntry]
  dsimp only
  rw [hread₁, ok_bind]
  dsimp only
  rw [refuse_of_not (by omega), ok_bind, subtract_of_le (by omega), ok_bind,
    refuse_of_not (by omega), ok_bind, refuse_of_not (by omega),
    ok_bind, hread₂, ok_bind]
  dsimp only
  rw [hread₃, ok_bind]
  dsimp only
  rw [wholeHandle_encode hfits, ok_bind, checkDataHandle_of hlong hshort hin hfile,
    ok_bind, hread₄, ok_bind, checkSeparator_of hsep hprev, ok_bind]
  simp only [encodeBytes, length_append, Nat.add_assoc]
  rfl

theorem parseLoop_encode {file : Bytes} {next : Nat}
    (ents : List IndexEntry) {blocks : List (Bytes × BlockHandle)} {fuel : Nat}
    (hpayload : payload = pre ++ encodeIndex blocks) (hfile : dataEnd + footerLen ≤ file.length)
    (hwide : dataEnd < 2 ^ 64) (hchain : BlockChain dataEnd next prev blocks)
    (hfuel : blocks.length < fuel) :
    Checked.loop .endless (parseStep file payload dataEnd) fuel ⟨pre.length, next, prev, ents⟩ =
      .ok (ents ++ indexEntries pre.length blocks) := by
  induction blocks generalizing pre next prev ents fuel with
  | nil =>
    obtain ⟨fuel, rfl⟩ := Nat.exists_eq_add_one_of_ne_zero (Nat.ne_of_gt hfuel)
    have hend : ¬ pre.length < payload.length := by
      rw [hpayload]
      simp [encodeIndex]
    obtain rfl : next = dataEnd := hchain
    rw [Checked.loop, parseStep, if_neg hend, refuse_of_not (by simp)]
    simp [indexEntries]
  | cons b blocks ih =>
    obtain ⟨sep, h⟩ := b
    obtain ⟨fuel, rfl⟩ := Nat.exists_eq_add_one_of_ne_zero (show fuel ≠ 0 by omega)
    obtain ⟨rfl, hlong, hshort, hsep, hprev, hrest⟩ := hchain
    have hle := hrest.le
    have hsplit : payload = pre ++ ((encodeBytes sep ++ encodeBytes h.encode) ++
        encodeIndex blocks) := hpayload
    have hmore : pre.length < payload.length := by
      have hne := length_pos_iff.2 (Varint.put_ne_nil sep.length)
      rw [hsplit, encodeBytes]
      simp only [length_append]
      omega
    have hentry := parseEntry_encode ents hsplit hlong hshort ⟨by omega, by omega⟩ hle
      hfile hsep hprev
    have hnext : payload = (pre ++ (encodeBytes sep ++ encodeBytes h.encode)) ++
        encodeIndex blocks := by
      rw [hsplit, ← append_assoc]
    rw [length_cons] at hfuel
    have hloop := ih (ents ++ [⟨UInt32.ofNat (pre.length + (Varint.put sep.length).length),
      UInt32.ofNat sep.length, h.offset, h.length⟩]) hnext hrest
        (show blocks.length < fuel by omega)
    rw [length_append] at hloop
    rw [Checked.loop, parseStep, if_pos hmore, hentry]
    change Checked.loop .endless (parseStep file payload dataEnd) fuel _ = _
    rw [hloop, append_assoc]
    rfl

theorem parseIndex_encode {file : Bytes} {blocks : List (Bytes × BlockHandle)}
    (hfile : dataEnd + footerLen ≤ file.length) (hwide : dataEnd < 2 ^ 64)
    (hchain : BlockChain dataEnd 0 none blocks) :
    parseIndex file (encodeIndex blocks) dataEnd = .ok (indexEntries 0 blocks) := by
  have hcount : blocks.length ≤ (encodeIndex blocks).length := by
    clear hchain
    induction blocks with
    | nil => exact Nat.zero_le _
    | cons b blocks ih =>
      have hne := length_pos_iff.2 (Varint.put_ne_nil b.1.length)
      rw [encodeIndex, flatMap_cons, encodeBytes]
      simp only [length_append, length_cons]
      change _ ≤ _ + (encodeIndex blocks).length
      omega
  exact parseLoop_encode [] (show encodeIndex blocks = [] ++ encodeIndex blocks from rfl) hfile
    hwide hchain (Nat.lt_succ_of_le hcount)

theorem sliceBytes_encode {data : Bytes} (h : data.length < 2 ^ 64) (rest : Bytes) :
    sliceBytes (encodeBytes data ++ rest) = .ok (data, rest) := by
  have hlen := uvarintAt_put h .walBadLength
    (show encodeBytes data ++ rest = [] ++ (Varint.put data.length ++ (data ++ rest)) by
      simp [encodeBytes])
  rw [length_nil, Nat.zero_add] at hlen
  have htail : slice (encodeBytes data ++ rest) (Varint.put data.length).length
      (encodeBytes data ++ rest).length = .ok (data ++ rest) := by
    rw [encodeBytes, append_assoc]
    exact slice_back _ _
  rw [sliceBytes, hlen, ok_bind]
  dsimp only
  rw [htail, ok_bind, refuse_of_not (by simp), ok_bind, slice_front,
    ok_bind, slice_back, ok_bind]
  rfl

structure Recordable (rt : RangeTombstone) : Prop where
  order : rt.start < rt.stop
  start : rt.start.length < 2 ^ 64
  stop : rt.stop.length < 2 ^ 64
  seq : rt.seq < 2 ^ 64

theorem decodeRangeTombstone_encode {rt : RangeTombstone} (h : Recordable rt) (rest : Bytes) :
    decodeRangeTombstone (encodeRangeTombstone rt ++ rest) = .ok (rt, rest) := by
  have hstart := sliceBytes_encode h.start (encodeBytes rt.stop ++ (Varint.put rt.seq ++ rest))
  have hstop := sliceBytes_encode h.stop (Varint.put rt.seq ++ rest)
  have hseq := uvarintAt_put h.seq (.tableFile .rangeDelSeq)
    (show Varint.put rt.seq ++ rest = [] ++ (Varint.put rt.seq ++ rest) from rfl)
  rw [length_nil, Nat.zero_add] at hseq
  have hbytes : encodeRangeTombstone rt ++ rest =
      encodeBytes rt.start ++ (encodeBytes rt.stop ++ (Varint.put rt.seq ++ rest)) := by
    simp [encodeRangeTombstone]
  rw [hbytes, decodeRangeTombstone, hstart]
  change (sliceBytes (encodeBytes rt.stop ++ (Varint.put rt.seq ++ rest))).mapError _ >>= _ = _
  rw [hstop]
  change uvarintAt (Varint.put rt.seq ++ rest) 0 _ >>= _ = _
  rw [hseq, ok_bind]
  dsimp only
  rw [slice_back, ok_bind, refuse_of_not (not_le.2 h.order), ok_bind]
  rfl

theorem decodeRangeTombstones_encode (h : ∀ rt ∈ rts, Recordable rt)
    (rest : Bytes) :
    decodeRangeTombstones rts.length (rts.flatMap encodeRangeTombstone ++ rest) =
      .ok (rts, rest) := by
  induction rts with
  | nil => rfl
  | cons rt rts ih =>
    rw [forall_mem_cons] at h
    rw [flatMap_cons, append_assoc, length_cons, decodeRangeTombstones,
      decodeRangeTombstone_encode h.1, ok_bind]
    dsimp only
    rw [ih h.2, ok_bind]
    rfl

theorem length_le_encodeRangeTombstones (rts : List RangeTombstone) :
    rts.length ≤ (rts.flatMap encodeRangeTombstone).length := by
  induction rts with
  | nil => exact Nat.le_refl _
  | cons rt rts ih =>
    have hne := length_pos_iff.2 (Varint.put_ne_nil rt.seq)
    rw [flatMap_cons, length_append, length_cons, encodeRangeTombstone]
    simp only [length_append]
    omega

theorem decodeRangeDelBlock_encode (h : ∀ rt ∈ rts, Recordable rt)
    (hcount : rts.length < 2 ^ 64) : decodeRangeDelBlock (encodeRangeDelBlock rts) = .ok rts := by
  have hlen := uvarintAt_put hcount (.tableFile .rangeDelCount)
    (show encodeRangeDelBlock rts =
      [] ++ (Varint.put rts.length ++ rts.flatMap encodeRangeTombstone) from rfl)
  rw [length_nil, Nat.zero_add] at hlen
  have htail : slice (encodeRangeDelBlock rts) (Varint.put rts.length).length
      (encodeRangeDelBlock rts).length = .ok (rts.flatMap encodeRangeTombstone) := slice_back _ _
  have hdecode := decodeRangeTombstones_encode h []
  rw [append_nil] at hdecode
  rw [decodeRangeDelBlock, hlen, ok_bind]
  dsimp only
  rw [htail, ok_bind, refuse_of_not (Nat.not_lt.2 (length_le_encodeRangeTombstones rts)),
    ok_bind, hdecode, ok_bind]
  rfl

/-- The blocks of a table file on disk: all data blocks together, the range tombstones if
there are any, the filter and the index. -/
structure Parts where
  data : Bytes
  rangeDel : Bytes
  filter : Bytes
  index : Bytes

namespace Parts

def rangeDelBH (p : Parts) : BlockHandle :=
  if p.rangeDel = [] then ⟨0, 0⟩ else ⟨p.data.length, p.rangeDel.length⟩

def filterBH (p : Parts) : BlockHandle := ⟨(p.data ++ p.rangeDel).length, p.filter.length⟩

def indexBH (p : Parts) : BlockHandle :=
  ⟨(p.data ++ p.rangeDel ++ p.filter).length, p.index.length⟩

def blocks (p : Parts) : Bytes := p.data ++ p.rangeDel ++ p.filter ++ p.index

def file (p : Parts) : Bytes :=
  p.blocks ++ TableWriter.encodeFooter p.indexBH p.filterBH p.rangeDelBH

def reader (p : Parts) : TableReader := ⟨p.file, p.indexBH, p.filterBH, p.rangeDelBH, none⟩

theorem file_length (p : Parts) : p.file.length = p.blocks.length + footerLen := by
  rw [file, length_append, TableWriter.encodeFooter_length]

theorem hasRangeDel_iff (p : Parts) : hasRangeDel p.rangeDelBH ↔ p.rangeDel ≠ [] := by
  unfold hasRangeDel rangeDelBH
  split_ifs with h
  · simp [h]
  · simp [h]

theorem dataEnd_reader (p : Parts) : p.reader.dataEnd = p.data.length := by
  unfold TableReader.dataEnd
  by_cases h : p.rangeDel = []
  · rw [if_neg (by rw [reader, hasRangeDel_iff]; exact not_not.2 h)]
    change (p.data ++ p.rangeDel).length = _
    rw [h, append_nil]
  · rw [if_pos (by rw [reader, hasRangeDel_iff]; exact h)]
    change (rangeDelBH p).offset = _
    rw [rangeDelBH, if_neg h]

theorem newTableReaderOpt_file (p : Parts) (cs : Codecs) (lazyMeta : Bool)
    (hwide : p.blocks.length < 2 ^ 64) :
    newTableReaderOpt cs p.file lazyMeta =
      if lazyMeta then .ok p.reader
      else (p.reader.loadMeta cs).map fun m => { p.reader with parsed := some m } := by
  have hblocks : p.blocks.length =
      p.data.length + p.rangeDel.length + p.filter.length + p.index.length := by
    simp only [blocks, length_append]
  have hindex : p.indexBH.offset + p.indexBH.length = p.blocks.length := by
    simp only [indexBH, blocks, length_append]
  have hfilter : p.filterBH.offset + p.filterBH.length = p.indexBH.offset := by
    simp only [filterBH, indexBH, length_append]
  have hrange : p.rangeDelBH.offset + p.rangeDelBH.length ≤ p.filterBH.offset ∧
      (hasRangeDel p.rangeDelBH →
        p.rangeDelBH.offset + p.rangeDelBH.length = p.filterBH.offset) := by
    rw [hasRangeDel_iff]
    unfold rangeDelBH filterBH
    split_ifs with h
    · exact ⟨by simp, fun hne => absurd h hne⟩
    · simp
  have hfooter : slice p.file p.blocks.length p.file.length =
      .ok (TableWriter.encodeFooter p.indexBH p.filterBH p.rangeDelBH) := slice_back _ _
  have hlen := p.file_length
  have hsub : p.file.length - footerLen = p.blocks.length := by omega
  have hrangeLayout : checkRangeDelLayout p.blocks.length p.filterBH p.rangeDelBH = .ok () := by
    unfold checkRangeDelLayout
    split_ifs with h
    · rw [checkRange_of_le (by omega), ok_bind,
        refuse_of_not (not_not.2 (hrange.2 h))]
    · rfl
  have hlayout : checkLayout p.blocks.length p.indexBH p.filterBH = .ok () := by
    rw [checkLayout, checkRange_of_le (by omega), ok_bind, checkRange_of_le (by omega),
      ok_bind, refuse_of_not (not_not.2 hfilter), ok_bind,
      refuse_of_not (not_not.2 hindex)]
  rw [newTableReaderOpt, refuse_of_not (by omega), ok_bind, subtract_of_le (by omega),
    ok_bind, hsub, hfooter, ok_bind,
    decodeFooter_encode ⟨by omega, by omega⟩ ⟨by omega, by omega⟩ ⟨by omega, by omega⟩,
    ok_bind]
  dsimp only
  rw [hlayout, ok_bind, hrangeLayout, ok_bind]
  rfl

theorem readBlockRaw_filter {p : Parts} {cs : Codecs} {payload : Bytes}
    (h : decodeBlock cs p.filter = .ok payload) (hlong : blockTrailerLen ≤ p.filter.length) :
    readBlockRaw cs p.file p.filterBH = .ok payload := by
  have hfile : p.file = (p.data ++ p.rangeDel) ++ (p.filter ++
      (p.index ++ TableWriter.encodeFooter p.indexBH p.filterBH p.rangeDelBH)) := by
    simp [file, blocks]
  rw [hfile]
  refine readBlockRaw_of_append h hlong ?_
  rw [length_append, TableWriter.encodeFooter_length]
  omega

theorem readBlockRaw_index {p : Parts} {cs : Codecs} {payload : Bytes}
    (h : decodeBlock cs p.index = .ok payload) (hlong : blockTrailerLen ≤ p.index.length) :
    readBlockRaw cs p.file p.indexBH = .ok payload := by
  have hfile : p.file = (p.data ++ p.rangeDel ++ p.filter) ++ (p.index ++
      TableWriter.encodeFooter p.indexBH p.filterBH p.rangeDelBH) := by
    simp [file, blocks]
  rw [hfile]
  refine readBlockRaw_of_append h hlong ?_
  rw [TableWriter.encodeFooter_length]

theorem loadRangeDel_eq {p : Parts} {cs : Codecs} {rts : List RangeTombstone}
    (h : if rts = [] then p.rangeDel = []
      else decodeBlock cs p.rangeDel = .ok (encodeRangeDelBlock rts) ∧
        blockTrailerLen ≤ p.rangeDel.length)
    (hrts : ∀ rt ∈ rts, Recordable rt) (hcount : rts.length < 2 ^ 64) :
    p.reader.loadRangeDel cs = .ok rts := by
  unfold TableReader.loadRangeDel
  by_cases hnil : rts = []
  · rw [if_pos hnil] at h
    rw [if_neg (by rw [reader, hasRangeDel_iff]; exact not_not.2 h), hnil]
  · rw [if_neg hnil] at h
    have hne : p.rangeDel ≠ [] := by
      intro heq
      have hlen := h.2
      rw [heq] at hlen
      exact absurd hlen (by decide)
    have hfile : p.file = p.data ++ (p.rangeDel ++ (p.filter ++
        (p.index ++ TableWriter.encodeFooter p.indexBH p.filterBH p.rangeDelBH))) := by
      simp [file, blocks]
    have hread : readBlockRaw cs p.file p.rangeDelBH = .ok (encodeRangeDelBlock rts) := by
      have hhandle : p.rangeDelBH = ⟨p.data.length, p.rangeDel.length⟩ := if_neg hne
      rw [hhandle, hfile]
      refine readBlockRaw_of_append h.1 h.2 ?_
      rw [length_append, length_append, TableWriter.encodeFooter_length]
      omega
    rw [if_pos (by rw [reader, hasRangeDel_iff]; exact hne), reader, hread]
    exact decodeRangeDelBlock_encode hrts hcount

end Parts

theorem validateBloomFilter_of {k : UInt8} (hlong : 9 ≤ filter.length)
    (hpow : (filter.length - 1) &&& (filter.length - 1 - 1) = 0)
    (hlast : filter[filter.length - 1]? = some k) (hk : 1 ≤ k ∧ k ≤ 30) :
    validateBloomFilter filter = .ok () := by
  have hbyte : byteAt filter (filter.length - 1) = .ok k := by rw [byteAt, hlast]
  rw [validateBloomFilter, refuse_of_not (by omega), ok_bind,
    subtract_of_le (by omega), ok_bind, refuse_of_not (not_not.2 hpow), ok_bind,
    hbyte, ok_bind, refuse_of_not]
  rintro (h | h)
  · exact absurd h (not_lt.2 hk.1)
  · exact absurd h (not_lt.2 hk.2)

theorem validateBloomFilter_filled {k m : Nat} {hashes : List UInt32}
    (h : Filled k m hashes filter) (hpos : 1 ≤ k) (hle : k ≤ 30) :
    validateBloomFilter filter = .ok () := by
  have hm8 : 2 ^ 3 ≤ 2 ^ m := Nat.pow_le_pow_right (by omega) h.floor
  have hlen := h.length
  have hsub : filter.length - 1 = 2 ^ m := by omega
  have hlast := h.last
  have hnat : (UInt8.ofNat k).toNat = k := UInt8.toNat_ofNat_of_lt' (by change k < 256; omega)
  refine validateBloomFilter_of (k := UInt8.ofNat k) (by omega) ?_ ?_ ⟨?_, ?_⟩
  · rw [hsub]
    exact two_pow_and_pred m
  · rw [hsub]
    rw [getD_eq_getElem?_getD] at hlast
    rw [List.getElem?_eq_getElem (by omega)] at hlast ⊢
    exact congrArg some hlast
  · rw [UInt8.le_iff_toNat_le, hnat]
    exact hpos
  · rw [UInt8.le_iff_toNat_le, hnat]
    exact hle

theorem Parts.loadMeta_eq {p : Parts} {cs : Codecs}
    {blocks : List (Bytes × BlockHandle)}
    (hfilter : decodeBlock cs p.filter = .ok filter) (hfilterLen : blockTrailerLen ≤
      p.filter.length)
    (hvalid : validateBloomFilter filter = .ok ())
    (hindex : decodeBlock cs p.index = .ok (encodeIndex blocks))
    (hindexLen : blockTrailerLen ≤ p.index.length) (hwide : p.data.length < 2 ^ 64)
    (hchain : BlockChain p.data.length 0 none blocks) (hrange : p.reader.loadRangeDel cs =
      .ok rts) :
    p.reader.loadMeta cs = .ok ⟨filter, encodeIndex blocks, indexEntries 0 blocks, rts⟩ := by
  have hlen := p.file_length
  have hparse : parseIndex p.file (encodeIndex blocks) p.data.length =
    .ok (indexEntries 0 blocks) := by
    refine parseIndex_encode ?_ hwide hchain
    rw [hlen]
    simp only [Parts.blocks, length_append]
    omega
  rw [TableReader.loadMeta, dataEnd_reader]
  change (readBlockRaw cs p.file p.filterBH).mapError _ >>= _ = _
  rw [readBlockRaw_filter hfilter hfilterLen]
  change validateBloomFilter filter >>= _ = _
  rw [hvalid, ok_bind]
  change (readBlockRaw cs p.file p.indexBH).mapError _ >>= _ = _
  rw [readBlockRaw_index hindex hindexLen]
  change (parseIndex p.file (encodeIndex blocks) p.data.length).mapError _ >>= _ = _
  rw [hparse]
  change p.reader.loadRangeDel cs >>= _ = _
  rw [hrange]
  rfl

end TableFile

end LevisDB
