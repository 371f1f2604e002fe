import LevisDB.Core.RangeTomb
import LevisDB.Storage.Block
import LevisDB.Storage.Bloom

/-!
# Writing a table file

A table file is its data blocks, the block of its range tombstones if it has any, the
bloom filter, the index with one entry for each data block, and a footer of a fixed
length that says where the last three are. The index entry of a data block is written
when the next key comes in or the table is finished. Writes to the file succeed here;
sizes are counted without the wrap of their 64 bits.

While it writes, a compaction asks how long the file would be if it were finished now,
and moves on to the next file when that reaches its target.
-/

namespace LevisDB

namespace TableFile

def footerLen : Nat := 72

def magic : Nat := 0xdb1e510000000001

def encodeRangeTombstone (rt : RangeTombstone) : Bytes :=
  encodeBytes rt.start ++ (encodeBytes rt.stop ++ Varint.put rt.seq)

def encodeRangeDelBlock (rts : List RangeTombstone) : Bytes :=
  Varint.put rts.length ++ rts.flatMap encodeRangeTombstone

structure TableWriterConfig where
  codec : CodecID
  bloomBits : Int
  blockSize : Int

/-- The writer of one table: the bytes it has written, the blocks it is building, and the
handle of a data block whose index entry is still owed. -/
structure TableWriter where
  w : Bytes
  c : CodecID
  bloom : BloomFilter
  blockSize : Int
  offset : Nat
  data : DataBlockBuilder
  index : BlockBuilder
  hashes : List UInt32
  pendingBH : BlockHandle
  hasPending : Bool
  firstKey : Option Bytes
  lastKey : Option Bytes
  entries : Nat
  tombstones : Nat
  rangeDels : List RangeTombstone
  err : Option Err

def newTableWriter (cfg : TableWriterConfig) : TableWriter :=
  ⟨[], cfg.codec, newBloom cfg.bloomBits, cfg.blockSize, 0, .new 0, ⟨[], 0⟩, [],
    ⟨0, 0⟩, false, none,
    none, 0, 0, [], none⟩

namespace TableWriter

def setRangeTombstones (tw : TableWriter) (rts : List RangeTombstone) : TableWriter :=
  { tw with rangeDels := rts }

def bytesWritten (tw : TableWriter) : Nat := tw.offset

/-- What `Add` refuses: a key without a trailer, of an unknown kind, or not above the last. -/
def checkKey (tw : TableWriter) (internalKey : Bytes) : Except Err IKeyKind :=
  match ikeySeqKind internalKey with
  | none => .error (.tableFile .shortKey)
  | some (_, code) =>
    match validIKeyKind code with
    | none => .error (.tableFile (.unknownKind code))
    | some kind =>
      match tw.lastKey with
      | none => .ok kind
      | some last =>
        match ikeyCompareBytes internalKey last with
        | some .gt => .ok kind
        | some _ => .error .keysOutOfOrder
        | none => .error .sliceBounds

def writeBlock (cs : Codecs) (tw : TableWriter) (payload : Bytes) (c : CodecID) :
    BlockHandle × TableWriter :=
  let block := finishBlock cs payload c
  (⟨tw.offset, block.length⟩, { tw with w := tw.w ++ block, offset := tw.offset + block.length })

def flushDataBlock (cs : Codecs) (tw : TableWriter) : TableWriter :=
  if tw.data.empty then tw
  else
    let r := tw.writeBlock cs tw.data.finish tw.c
    { r.2 with data := tw.data.reset, pendingBH := r.1, hasPending := true }

/-- Writes the index entry that is owed, under the last key of its block. -/
def indexPending (tw : TableWriter) : TableWriter :=
  if tw.hasPending then
    { tw with
      index := tw.index.add (tw.lastKey.getD []) tw.pendingBH.encode
      hasPending := false }
  else tw

def append (tw : TableWriter) (internalKey value : Bytes) (kind : IKeyKind) : TableWriter :=
  { tw with
    data := tw.data.add internalKey value
    hashes := tw.hashes ++ [bloomHash (userPart internalKey)]
    firstKey := some (tw.firstKey.getD internalKey)
    lastKey := some internalKey
    entries := tw.entries + 1
    tombstones := if kind = .delete then tw.tombstones + 1 else tw.tombstones }

/-- A block that has reached the block size is flushed. -/
def flushFull (cs : Codecs) (tw : TableWriter) : TableWriter :=
  if tw.blockSize ≤ tw.data.size then tw.flushDataBlock cs else tw

def add (cs : Codecs) (tw : TableWriter) (internalKey value : Bytes) : TableWriter :=
  match tw.err with
  | some _ => tw
  | none =>
    match tw.checkKey internalKey with
    | .error err => { tw with err := some err }
    | .ok kind => (tw.indexPending.append internalKey value kind).flushFull cs

def addAll (cs : Codecs) (tw : TableWriter) (es : List (Bytes × Bytes)) : TableWriter :=
  es.foldl (fun tw e => tw.add cs e.1 e.2) tw

/-- The three handles, zeros up to the magic number, and the magic number. -/
def encodeFooter (index filter rangeDel : BlockHandle) : Bytes :=
  let p := index.encode ++ (filter.encode ++ rangeDel.encode)
  (p.take (footerLen - 8) ++ List.replicate (footerLen - 8 - p.length) 0) ++
    LittleEndian.put 8 magic

/-- The block of range tombstones, uncompressed; without any there is none. -/
def writeRangeDels (cs : Codecs) (tw : TableWriter) : BlockHandle × TableWriter :=
  if tw.rangeDels = [] then (⟨0, 0⟩, tw)
  else tw.writeBlock cs (encodeRangeDelBlock tw.rangeDels) .none

def writeTail (cs : Codecs) (tw : TableWriter) : TableWriter :=
  let rangeDel := tw.writeRangeDels cs
  let filter := rangeDel.2.writeBlock cs (tw.bloom.build tw.hashes) .none
  let index := filter.2.writeBlock cs tw.index.buf tw.c
  let footer := encodeFooter index.1 filter.1 rangeDel.1
  { index.2 with w := index.2.w ++ footer, offset := index.2.offset + footer.length }

def finish (cs : Codecs) (tw : TableWriter) : Except Err (Nat × Bytes) :=
  match tw.err with
  | some err => .error err
  | none =>
    let done := (tw.flushDataBlock cs).indexPending.writeTail cs
    .ok (done.offset, done.w)

def indexEntryOverhead : Nat := 32

def estimatedTrailerBytes (tw : TableWriter) : Nat :=
  let pendingData := if tw.data.empty then 0 else tw.data.size + blockTrailerLen
  let pendingIndexEntry :=
    if tw.data.empty then 0 else (tw.lastKey.getD []).length + indexEntryOverhead
  let bloom := pow2Bytes (tw.entries * tw.bloom.bitsPerKey) + 1 + blockTrailerLen
  let index := tw.index.buf.length + pendingIndexEntry + blockTrailerLen
  let rangeDel :=
    if tw.rangeDels = [] then 0 else (encodeRangeDelBlock tw.rangeDels).length + blockTrailerLen
  pendingData + bloom + index + rangeDel + footerLen

@[simp] theorem encodeFooter_length (index filter rangeDel : BlockHandle) :
    (encodeFooter index filter rangeDel).length = footerLen := by
  simp only [encodeFooter, List.length_append, List.length_take, List.length_replicate,
    LittleEndian.put_length, footerLen]
  omega

theorem build_length (b : BloomFilter) (hashes : List UInt32) :
    (b.build hashes).length = pow2Bytes (hashes.length * b.bitsPerKey) + 1 := by
  simp [BloomFilter.build, fillFilter, foldl_setBit_length]

theorem rangeDels_offset (cs : Codecs) (tw : TableWriter) :
    (tw.writeRangeDels cs).2.offset = tw.offset +
      if tw.rangeDels = [] then 0
      else (encodeRangeDelBlock tw.rangeDels).length + blockTrailerLen := by
  unfold writeRangeDels
  split_ifs
  · rfl
  · change tw.offset + (finishBlock cs _ .none).length = _
    rw [finishBlock_none_length]

theorem writeTail_offset (cs : Codecs) (tw : TableWriter) :
    (tw.writeTail cs).offset = (tw.writeRangeDels cs).2.offset +
      (pow2Bytes (tw.hashes.length * tw.bloom.bitsPerKey) + 1 + blockTrailerLen) +
      (finishBlock cs tw.index.buf tw.c).length + footerLen := by
  change (tw.writeRangeDels cs).2.offset + (finishBlock cs (tw.bloom.build tw.hashes) .none).length
    +
    (finishBlock cs tw.index.buf tw.c).length + (encodeFooter _ _ _).length = _
  rw [finishBlock_none_length, encodeFooter_length, build_length]

theorem index_entry_length_le (index : BlockBuilder) (key : Bytes) (h : BlockHandle) :
    (index.add key h.encode).buf.length < index.buf.length + key.length + indexEntryOverhead := by
  have hkey := Varint.put_length_le key.length
  have hoff := Varint.put_length_le h.offset
  have hlen := Varint.put_length_le h.length
  have hhandle : h.encode.length ≤ 20 := by
    rw [BlockHandle.encode, List.length_append]
    unfold Varint.maxLen at hoff hlen
    omega
  have hone : (Varint.put h.encode.length).length = 1 := by
    have hsmall : h.encode.length < 128 := by omega
    simp [Varint.put, Varint.putFuel, Varint.maxLen, hsmall]
  simp only [BlockBuilder.add, encodeBytes, List.length_append, hone]
  unfold Varint.maxLen at hkey
  unfold indexEntryOverhead
  omega

/-- Between two calls of `Add`: every entry has its hash, and an index entry is owed only
when the data block is empty. -/
structure Between (tw : TableWriter) : Prop where
  hashes : tw.hashes.length = tw.entries
  pending : tw.hasPending = true → tw.data.empty = true

theorem between_new (cfg : TableWriterConfig) : Between (newTableWriter cfg) :=
    ⟨rfl, fun h => by cases h⟩

theorem empty_add (b : DataBlockBuilder) (key value : Bytes) : (b.add key value).empty = false := by
  unfold DataBlockBuilder.add
  split_ifs <;> rfl

theorem Between.add {tw : TableWriter} (h : Between tw) (cs : Codecs) (key value : Bytes) :
    Between (tw.add cs key value) := by
  unfold TableWriter.add
  cases herr : tw.err with
  | some err => exact h
  | none =>
    dsimp only
    cases hkey : tw.checkKey key with
    | error err => exact ⟨h.hashes, h.pending⟩
    | ok kind =>
      have hdata : (tw.indexPending.append key value kind).data.empty = false := empty_add _ _ _
      have hhashes : (tw.indexPending.append key value kind).hashes.length =
          (tw.indexPending.append key value kind).entries := by
        unfold indexPending
        split_ifs <;> simp [append, h.hashes]
      have hpending : (tw.indexPending.append key value kind).hasPending = false := by
        unfold indexPending
        split_ifs with hp
        · rfl
        · simpa [append] using hp
      dsimp only
      unfold flushFull
      split_ifs
      · unfold flushDataBlock
        rw [if_neg (by simp [hdata])]
        exact ⟨hhashes, fun _ => rfl⟩
      · exact ⟨hhashes, fun hp => by rw [hpending] at hp; cases hp⟩

theorem between_addAll (cs : Codecs) (cfg : TableWriterConfig) (es : List (Bytes × Bytes)) :
    Between ((newTableWriter cfg).addAll cs es) := by
  have hrun : ∀ tw : TableWriter, Between tw → Between (tw.addAll cs es) := by
    induction es with
    | nil => exact fun tw h => h
    | cons e es ih => exact fun tw h => ih _ (h.add cs e.1 e.2)
  exact hrun _ (between_new cfg)

theorem Between.finish_le {tw : TableWriter} (h : Between tw) (cs : Codecs)
    (hpending : tw.hasPending = false) :
    ((tw.flushDataBlock cs).indexPending.writeTail cs).offset ≤
      tw.bytesWritten + tw.estimatedTrailerBytes := by
  rw [writeTail_offset, rangeDels_offset]
  unfold bytesWritten estimatedTrailerBytes flushDataBlock
  cases hdata : tw.data.empty with
  | true =>
    have hsame : tw.indexPending = tw := if_neg (by simp [hpending])
    simp only [if_true, hsame, h.hashes]
    have hindex := finishBlock_length_le cs tw.index.buf tw.c
    omega
  | false =>
    have hblock := finishBlock_length_le cs tw.data.finish tw.c
    have hfinish := tw.data.finish_length_le
    simp only [Bool.false_eq_true, if_false, writeBlock, indexPending, if_true, h.hashes]
    have hentry := index_entry_length_le tw.index (tw.lastKey.getD [])
      ⟨tw.offset, (finishBlock cs tw.data.finish tw.c).length⟩
    have hindex := finishBlock_length_le cs (tw.index.add (tw.lastKey.getD [])
      (BlockHandle.mk tw.offset (finishBlock cs tw.data.finish tw.c).length).encode).buf tw.c
    omega

theorem Between.finish_le_iff {tw : TableWriter} (h : Between tw) (cs : Codecs)
    (hpending : tw.hasPending = true) :
    ((tw.flushDataBlock cs).indexPending.writeTail cs).offset ≤
        tw.bytesWritten + tw.estimatedTrailerBytes ↔
      (finishBlock cs (tw.index.add (tw.lastKey.getD []) tw.pendingBH.encode).buf tw.c).length ≤
        tw.index.buf.length + blockTrailerLen := by
  rw [writeTail_offset, rangeDels_offset]
  unfold bytesWritten estimatedTrailerBytes flushDataBlock
  simp only [h.pending hpending, if_true, indexPending, hpending, h.hashes]
  omega

theorem Between.setRangeTombstones {tw : TableWriter} (h : Between tw) (rts : List RangeTombstone) :
    Between (tw.setRangeTombstones rts) := ⟨h.hashes, h.pending⟩

end TableWriter

end TableFile

open TableFile TableWriter

/-- Between two calls of `Add` the estimate covers the finished file unless an index entry
is owed; then it does only if compression makes up for that entry. -/
theorem finish_le_estimate (cs : Codecs) (cfg : TableWriterConfig) (es : List (Bytes × Bytes))
    (rts : List RangeTombstone) (tw : TableFile.TableWriter)
    (htw : tw = ((newTableWriter cfg).addAll cs es).setRangeTombstones rts) (hok : tw.err = none) :
    ∃ size file, tw.finish cs = .ok (size, file) ∧
      (tw.hasPending = false → size ≤ tw.bytesWritten + tw.estimatedTrailerBytes) ∧
      (tw.hasPending = true →
        (size ≤ tw.bytesWritten + tw.estimatedTrailerBytes ↔
          (finishBlock cs (tw.index.add (tw.lastKey.getD []) tw.pendingBH.encode).buf
            tw.c).length ≤ tw.index.buf.length + blockTrailerLen)) := by
  have hbetween : Between tw := htw ▸ (between_addAll cs cfg es).setRangeTombstones rts
  refine ⟨_, ((tw.flushDataBlock cs).indexPending.writeTail cs).w, ?_, hbetween.finish_le cs,
    hbetween.finish_le_iff cs⟩
  rw [TableFile.TableWriter.finish, hok]

def storeCodecs : Codecs := ⟨⟨id, some⟩, ⟨id, some⟩, ⟨id, some⟩⟩

def oneEntry (blockSize : Int) : TableFile.TableWriter :=
  (newTableWriter ⟨.none, 10, blockSize⟩).addAll storeCodecs [(ikeyEncode ⟨[97], 1, .set⟩, [118])]

theorem finish_le_estimate_openBlock :
    (oneEntry 4096).hasPending = false ∧
      ∃ size file, (oneEntry 4096).finish storeCodecs = .ok (size, file) ∧
        size ≤ (oneEntry 4096).bytesWritten + (oneEntry 4096).estimatedTrailerBytes := by
  have hpending : (oneEntry 4096).hasPending = false := by decide +kernel
  obtain ⟨size, file, hfinish, hle, -⟩ := finish_le_estimate storeCodecs ⟨.none, 10, 4096⟩
    [(ikeyEncode ⟨[97], 1, .set⟩, [118])] [] (oneEntry 4096) rfl (by decide +kernel)
  exact ⟨hpending, size, file, hfinish, hle hpending⟩

/-- An entry that fills its block leaves the index entry owed, and the finished file is
longer than estimated by that entry. -/
theorem finish_exceeds_estimate :
    (oneEntry 16).bytesWritten + (oneEntry 16).estimatedTrailerBytes = 117 ∧
      ∃ file, (oneEntry 16).finish storeCodecs = .ok (130, file) := by
  have herr : (oneEntry 16).err = none := by decide +kernel
  have hsize : (((oneEntry 16).flushDataBlock storeCodecs).indexPending.writeTail
      storeCodecs).offset = 130 := by decide +kernel
  refine ⟨by decide +kernel, (((oneEntry 16).flushDataBlock storeCodecs).indexPending.writeTail
    storeCodecs).w, ?_⟩
  rw [TableFile.TableWriter.finish, herr, ← hsize]

end LevisDB
