import LevisDB.Storage.Table
import LevisDB.Storage.TableFile

/-!
# Reading a table file

Opening a table checks the footer and where the blocks it names lie. The filter, the
index and the range tombstones are parsed at once or on the first read. A lookup asks
the filter, searches the index for the block that may hold the key, and scans that block
from a restart point. An iterator goes through the data blocks in order and reads the
file ahead in windows.

Slices, indexes, subtractions and loops are checked as in `Core.Wire`, and so is that a
block that is read lies before the footer; these checks are the model's own.
-/

namespace LevisDB

open Checked

namespace TableFile

/-- A block that is read lies before the footer. -/
def deref (file : Bytes) (h : BlockHandle) : Except Err Unit :=
  refuse (file.length < h.offset + h.length + footerLen) .handleOutside

/-- Refuses a handle that reaches behind `dataEnd`. -/
def checkRange (dataEnd : Nat) (h : BlockHandle) (err : Err) : Except Err Unit := do
  refuse (dataEnd < h.length) err
  let room ← subtract dataEnd h.length
  refuse (room < h.offset) err

def readBlockRaw (cs : Codecs) (file : Bytes) (h : BlockHandle) : Except Err Bytes := do
  refuse (file.length < footerLen) (.tableFile .handleRange)
  let dataSize ← subtract file.length footerLen
  refuse (h.length < blockTrailerLen) (.tableFile .handleRange)
  checkRange dataSize h (.tableFile .handleRange)
  deref file h
  let buf ← slice file h.offset (h.offset + h.length)
  decodeBlock cs buf

def validateBloomFilter (filter : Bytes) : Except Err Unit := do
  refuse (filter.length < 9) (.tableFile .bloomTooShort)
  let nbytes ← subtract filter.length 1
  refuse (nbytes &&& (nbytes - 1) ≠ 0) (.tableFile .bloomSize)
  let k ← byteAt filter nbytes
  refuse (k < 1 ∨ 30 < k) (.tableFile (.bloomProbes k.toNat))

def probe (filter : Bytes) : List UInt32 → Except Err Bool
  | [] => .ok true
  | bit :: bits => do
      let b ← byteAt filter (byteIndex bit)
      if b &&& bitMask bit = 0 then .ok false else probe filter bits

/-- `bloomMayContain`, probe by probe. -/
def mayContain (filter : Bytes) (hash : UInt32) : Except Err Bool :=
  if filter.length < 2 then .ok false
  else do
    let nbytes ← subtract filter.length 1
    let k ← byteAt filter nbytes
    if 30 < k.toNat then .ok true
    else
      let nbits := UInt32.ofNat (nbytes * 8)
      if nbytes &&& (nbytes - 1) = 0 then
        probe filter (probeBits k.toNat (nbits - 1) (rotateLeft15 hash) hash)
      else do
        refuse (nbits = 0 ∧ 0 < k.toNat) .divideByZero
        probe filter (bloomMayContain.moduloBits k.toNat nbits (rotateLeft15 hash) hash)

/-- A data block: where its separator is in the index block, and its handle. -/
structure IndexEntry where
  sepOff : UInt32
  sepLen : UInt32
  offset : Nat
  length : Nat
  deriving DecidableEq

/-- What has been parsed of the index: the position, the end of the last block, its
separator and the entries. -/
structure IndexState where
  pos : Nat
  nextOffset : Nat
  previousSep : Option Bytes
  ents : List IndexEntry
  deriving DecidableEq

/-- Refuses a key that is not above the one before it. -/
def checkOrder (previous : Option Bytes) (key : Bytes) (err : Err) : Except Err Unit :=
  match previous with
  | none => .ok ()
  | some prev => do
      let o ← DataBlockIter.compareKeys prev key
      refuse (o ≠ .lt) err

/-- Separators have a known kind and ascend. -/
def checkSeparator (previousSep : Option Bytes) (sep : Bytes) : Except Err Unit :=
  match ikeySeqKind sep with
  | none => .error .sliceBounds
  | some (_, kind) =>
    match validIKeyKind kind with
    | none => .error (.tableFile (.separatorKind kind))
    | some _ => checkOrder previousSep sep (.tableFile .separatorOrder)

/-- The handle of a data block starts where the block before it ended. -/
def checkDataHandle (file : Bytes) (dataEnd nextOffset : Nat) (h : BlockHandle) : Except Err Unit :=
    do
  refuse (2 ^ 32 - 1 < h.length) (.tableFile .badHandle)
  let dataSize ← subtract file.length footerLen
  refuse (h.length < blockTrailerLen) (.tableFile .indexHandleRange)
  checkRange dataSize h (.tableFile .indexHandleRange)
  refuse (h.offset ≠ nextOffset) (.tableFile .indexLayout)
  let room ← subtract dataEnd h.offset
  refuse (room < h.length) (.tableFile .indexLayout)

def wholeHandle (bytes : Bytes) : Except Err BlockHandle := do
  match ← decodeHandle bytes 0 with
  | none => .error (.tableFile .badHandle)
  | some (h, used) => do
      refuse (used ≠ bytes.length) (.tableFile .badHandle)
      pure h

def parseEntry (file payload : Bytes) (dataEnd : Nat) (s : IndexState) : Except Err IndexState := do
  let (keyLen, keyStart) ← uvarintAt payload s.pos (.tableFile .separatorLength)
  refuse (keyLen < trailerLen) (.tableFile .separatorExceeds)
  let left ← subtract payload.length keyStart
  refuse (left < keyLen) (.tableFile .separatorExceeds)
  refuse (2 ^ 32 - 1 < keyLen) (.tableFile .separatorExceeds)
  let (valLen, pos) ← uvarintAt payload (keyStart + keyLen) (.tableFile .handleLength)
  let (handleBytes, pos) ← takeAt payload pos valLen (.tableFile .handleExceeds)
  let h ← wholeHandle handleBytes
  checkDataHandle file dataEnd s.nextOffset h
  let sep ← slice payload keyStart (keyStart + keyLen)
  checkSeparator s.previousSep sep
  pure ⟨pos, h.offset + h.length, some sep,
    s.ents ++ [⟨UInt32.ofNat keyStart, UInt32.ofNat keyLen, h.offset, h.length⟩]⟩

def parseStep (file payload : Bytes) (dataEnd : Nat) (s : IndexState) :
    Except Err (List IndexEntry ⊕ IndexState) :=
  if s.pos < payload.length then do
    let s' ← parseEntry file payload dataEnd s
    pure (.inr s')
  else do
    refuse (s.nextOffset ≠ dataEnd) (.tableFile .indexCoverage)
    pure (.inl s.ents)

def parseIndex (file payload : Bytes) (dataEnd : Nat) : Except Err (List IndexEntry) :=
  Checked.loop .endless (parseStep file payload dataEnd) (payload.length + 1) ⟨0, 0, none, []⟩

/-- A byte string behind its length, and what follows it. -/
def sliceBytes (rest : Bytes) : Except Err (Bytes × Bytes) := do
  let (length, pos) ← uvarintAt rest 0 .walBadLength
  let rest ← slice rest pos rest.length
  refuse (rest.length < length) .walTruncatedData
  let data ← slice rest 0 length
  let remaining ← slice rest length rest.length
  pure (data, remaining)

def decodeRangeTombstone (rest : Bytes) : Except Err (RangeTombstone × Bytes) := do
  let (start, r) ← (sliceBytes rest).mapError (.wrapped "table: range-del start")
  let (stop, r2) ← (sliceBytes r).mapError (.wrapped "table: range-del end")
  let (seq, pos) ← uvarintAt r2 0 (.tableFile .rangeDelSeq)
  let rest ← slice r2 pos r2.length
  refuse (stop ≤ start) (.tableFile .rangeDelOrder)
  pure (⟨start, stop, seq⟩, rest)

def decodeRangeTombstones : Nat → Bytes → Except Err (List RangeTombstone × Bytes)
  | 0, rest => .ok ([], rest)
  | count + 1, rest => do
      let (rt, rest) ← decodeRangeTombstone rest
      let (rts, rest) ← decodeRangeTombstones count rest
      pure (rt :: rts, rest)

def decodeRangeDelBlock (payload : Bytes) : Except Err (List RangeTombstone) := do
  let (count, pos) ← uvarintAt payload 0 (.tableFile .rangeDelCount)
  let rest ← slice payload pos payload.length
  refuse (rest.length < count) (.tableFile (.rangeDelCountExceeds count))
  let (rts, rest) ← decodeRangeTombstones count rest
  refuse (rest.length ≠ 0) (.tableFile .rangeDelTrailing)
  pure rts

structure MetaBlocks where
  filter : Bytes
  indexBuf : Bytes
  indexEnt : List IndexEntry
  rangeDel : List RangeTombstone
  deriving DecidableEq

/-- An open table: the file, the handles of its footer, and what has been parsed. -/
structure TableReader where
  file : Bytes
  indexBH : BlockHandle
  filterBH : BlockHandle
  rangeDelBH : BlockHandle
  parsed : Option MetaBlocks
  deriving DecidableEq

def footerHandle (footer : Bytes) (pos : Nat) (err : Err) : Except Err (BlockHandle × Nat) := do
  match ← decodeHandle footer pos with
  | none => .error err
  | some r => pure r

def decodeFooter (footer : Bytes) : Except Err (BlockHandle × BlockHandle × BlockHandle) := do
  let tail ← slice footer (footerLen - 8) footer.length
  let m ← leUint64 tail
  refuse (m ≠ magic) (.tableFile .badMagic)
  let (indexBH, n) ← footerHandle footer 0 (.tableFile .badIndexHandle)
  let (filterBH, n) ← footerHandle footer n (.tableFile .badFilterHandle)
  let (rangeDelBH, n) ← footerHandle footer n (.tableFile .badRangeDelHandle)
  refuse (footerLen - 8 < n) (.tableFile .badRangeDelHandle)
  let padding ← slice footer n (footerLen - 8)
  refuse (∃ b ∈ padding, b ≠ 0) (.tableFile .footerPadding)
  pure (indexBH, filterBH, rangeDelBH)

/-- Filter and index are the last blocks in front of the footer. -/
def checkLayout (dataEnd : Nat) (indexBH filterBH : BlockHandle) : Except Err Unit := do
  checkRange dataEnd filterBH (.tableFile .metadataLayout)
  checkRange dataEnd indexBH (.tableFile .metadataLayout)
  refuse (filterBH.offset + filterBH.length ≠ indexBH.offset) (.tableFile .metadataLayout)
  refuse (indexBH.offset + indexBH.length ≠ dataEnd) (.tableFile .metadataLayout)

/-- A table without range tombstones has a zero handle for them. -/
def hasRangeDel (rangeDelBH : BlockHandle) : Prop := rangeDelBH.length ≠ 0 ∨ rangeDelBH.offset ≠ 0

instance (h : BlockHandle) : Decidable (hasRangeDel h) := inferInstanceAs (Decidable (_ ∨ _))

/-- The range tombstones are the block in front of the filter. -/
def checkRangeDelLayout (dataEnd : Nat) (filterBH rangeDelBH : BlockHandle) : Except Err Unit :=
  if hasRangeDel rangeDelBH then do
    checkRange dataEnd rangeDelBH (.tableFile .rangeDelLayout)
    refuse (rangeDelBH.offset + rangeDelBH.length ≠ filterBH.offset)
      (.tableFile .rangeDelLayout)
  else .ok ()

namespace TableReader

/-- Where the data blocks end. -/
def dataEnd (tr : TableReader) : Nat :=
  if hasRangeDel tr.rangeDelBH then tr.rangeDelBH.offset else tr.filterBH.offset

def loadRangeDel (cs : Codecs) (tr : TableReader) : Except Err (List RangeTombstone) :=
  if hasRangeDel tr.rangeDelBH then do
    let payload ← (readBlockRaw cs tr.file tr.rangeDelBH).mapError
      (.wrapped "table: read range-del")
    decodeRangeDelBlock payload
  else .ok []

def loadMeta (cs : Codecs) (tr : TableReader) : Except Err MetaBlocks := do
  let filter ← (readBlockRaw cs tr.file tr.filterBH).mapError (.wrapped "table: read filter")
  validateBloomFilter filter
  let payload ← (readBlockRaw cs tr.file tr.indexBH).mapError (.wrapped "table: read index")
  let ents ← (parseIndex tr.file payload tr.dataEnd).mapError (.wrapped "table: parse index")
  let rangeDel ← tr.loadRangeDel cs
  pure ⟨filter, payload, ents, rangeDel⟩

/-- The parsed blocks, from the file when they are not at hand. -/
def ensureMeta (cs : Codecs) (tr : TableReader) : Except Err MetaBlocks :=
  match tr.parsed with
  | some m => .ok m
  | none => tr.loadMeta cs

def rangeTombstones (cs : Codecs) (tr : TableReader) : Except Err (List RangeTombstone) := do
  let m ← tr.ensureMeta cs
  pure m.rangeDel

end TableReader

/-- Opens a table; a lazy open leaves the blocks it names unread. -/
def newTableReaderOpt (cs : Codecs) (file : Bytes) (lazyMeta : Bool) : Except Err TableReader := do
  refuse (file.length < footerLen) (.tableFile .fileTooSmall)
  let dataEnd ← subtract file.length footerLen
  let footer ← slice file dataEnd file.length
  let (indexBH, filterBH, rangeDelBH) ← decodeFooter footer
  checkLayout dataEnd indexBH filterBH
  checkRangeDelLayout dataEnd filterBH rangeDelBH
  let tr : TableReader := ⟨file, indexBH, filterBH, rangeDelBH, none⟩
  if lazyMeta then pure tr
  else do
    let m ← tr.ensureMeta cs
    pure { tr with parsed := some m }

namespace MetaBlocks

/-- The separator of a data block; the bounds are 32-bit sums. -/
def sep (m : MetaBlocks) (i : Nat) : Except Err Bytes :=
  match m.indexEnt[i]? with
  | none => .error .sliceBounds
  | some e => slice m.indexBuf e.sepOff.toNat (e.sepOff + e.sepLen).toNat

def blockHandleAt (m : MetaBlocks) (i : Nat) : Except Err BlockHandle :=
  match m.indexEnt[i]? with
  | none => .error .sliceBounds
  | some e => .ok ⟨e.offset, e.length⟩

def findStep (m : MetaBlocks) (lookup : Bytes) (s : Nat × Nat) : Except Err (Nat ⊕ (Nat × Nat)) :=
  let (lo, hi) := s
  if lo < hi then do
    let mid := (lo + hi) / 2
    let sep ← m.sep mid
    match ← DataBlockIter.compareKeys sep lookup with
    | .lt => pure (.inr (mid + 1, hi))
    | _ => pure (.inr (lo, mid))
  else pure (.inl lo)

def findBlock (m : MetaBlocks) (lookup : Bytes) : Except Err Nat :=
  Checked.loop .endless (m.findStep lookup) (m.indexEnt.length + 1) (0, m.indexEnt.length)

end MetaBlocks

/-- One entry of the scan for the newest visible version. -/
def scanStep (userKey : Key) (seq : Nat) (now : Time) (s : DataBlockIter × Option Bytes) :
    Except Err (Option VersionAt ⊕ (DataBlockIter × Option Bytes)) := do
  match ← s.1.next with
  | none => pure (.inl none)
  | some it => do
      match ikeyUserKey it.key, ikeySeqKind it.key with
      | some entryUser, some (kseq, code) => do
          checkOrder s.2 it.key (.tableFile .blockKeyOrder)
          if userKey < entryUser then pure (.inl none)
          else if entryUser < userKey then pure (.inr (it, some it.key))
          else
            match validIKeyKind code with
            | none => .error (.tableFile (.unknownKind code))
            | some kind =>
              if seq < kseq then pure (.inr (it, some it.key))
              else do
                let v ← LevisDB.TableReader.entryVersion ⟨⟨entryUser, kseq, kind⟩, it.value⟩ now
                pure (.inl (some v))
      | _, _ => .error (.tableFile .shortKey)

/-- The newest visible version in a block, from a restart point on. -/
def scanBlock (payload : Bytes) (userKey : Key) (seq : Nat) (now : Time) :
    Except Err (Option VersionAt) := do
  let (entries, restarts, nRestart) ← splitDataBlock payload
  let it ← (DataBlockIter.start entries restarts nRestart).seek
    (ikeyEncode (ikeyLookupKey userKey seq))
  Checked.loop .endless (scanStep userKey seq now) (entries.length + 1) (it, none)

/-- What a lookup found, and whether the filter let it read a block. -/
structure LookupResult where
  version : Option VersionAt
  bloomPassed : Bool

namespace TableReader

def lookupPastBloom (cs : Codecs) (tr : TableReader) (m : MetaBlocks) (userKey : Key) (seq : Nat)
    (now : Time) : Except Err (Option VersionAt) := do
  let i ← m.findBlock (ikeyEncode (ikeyLookupKey userKey seq))
  if m.indexEnt.length ≤ i then pure none
  else do
    let h ← m.blockHandleAt i
    let payload ← readBlockRaw cs tr.file h
    scanBlock payload userKey seq now

def lookupAtTime (cs : Codecs) (tr : TableReader) (userKey : Key) (seq : Nat) (now : Time) :
    Except Err LookupResult := do
  let m ← tr.ensureMeta cs
  let passed ← mayContain m.filter (bloomHash userKey)
  if passed then do
    let version ← tr.lookupPastBloom cs m userKey seq now
    pure ⟨version, true⟩
  else pure ⟨none, false⟩

end TableReader

def tableReadAheadSize : Nat := 256 * 1024

/-- An iterator: the parsed blocks once it was started, how many data blocks it has gone
into, its place in the last of them, the last key, and the window it read ahead. -/
structure TableIterator where
  tr : TableReader
  parsed : Option MetaBlocks
  blk : Nat
  inner : DataBlockIter
  loaded : Bool
  lastKey : Option Bytes
  win : Option Bytes
  winOff : Nat

def TableReader.newIterator (tr : TableReader) : TableIterator :=
  ⟨tr, none, 0, .start [] [] 0, false, none, none, 0⟩

namespace TableIterator

/-- Fills the window from the start of a block. The array of the window has a fixed size. -/
def fillWindow (it : TableIterator) (h : BlockHandle) : Except Err TableIterator := do
  let stop := min (h.offset + tableReadAheadSize) it.tr.file.length
  let n ← subtract stop h.offset
  refuse (tableReadAheadSize < n) .sliceBounds
  let buf ← slice it.tr.file h.offset (h.offset + n)
  pure { it with win := some buf, winOff := h.offset }

def misses (it : TableIterator) (h : BlockHandle) : Prop :=
  match it.win with
  | none => True
  | some win => h.offset < it.winOff ∨ it.winOff + win.length < h.offset + h.length

instance (it : TableIterator) (h : BlockHandle) : Decidable (it.misses h) := by
  unfold misses
  split <;> infer_instance

/-- The bytes of a data block, by way of the window unless the block is longer. -/
def blockRaw (it : TableIterator) (h : BlockHandle) : Except Err (Bytes × TableIterator) := do
  deref it.tr.file h
  if tableReadAheadSize < h.length then do
    let buf ← slice it.tr.file h.offset (h.offset + h.length)
    pure (buf, it)
  else do
    let it ← if it.misses h then it.fillWindow h else pure it
    let first ← subtract h.offset it.winOff
    let raw ← slice (it.win.getD []) first (first + h.length)
    pure (raw, it)

def checkEntry (it : TableIterator) (key : Bytes) : Except Err Unit :=
  match ikeySeqKind key with
  | none => .error (.tableFile .shortKey)
  | some (_, code) =>
    match validIKeyKind code with
    | none => .error (.tableFile (.unknownKind code))
    | some _ => checkOrder it.lastKey key (.tableFile .keyOrder)

def loadBlock (cs : Codecs) (it : TableIterator) (h : BlockHandle) : Except Err TableIterator := do
  let (raw, it) ← it.blockRaw h
  let payload ← decodeBlock cs raw
  let (entries, _, _) ← splitDataBlock payload
  pure { it with inner := it.inner.resetEntries entries, loaded := true, blk := it.blk + 1 }

def nextInner (it : TableIterator) : Except Err (Option TableIterator) :=
  if it.loaded then do
    match ← it.inner.next with
    | none => pure none
    | some inner => do
        it.checkEntry inner.key
        pure (some { it with inner := inner, lastKey := some inner.key })
  else pure none

def nextStep (cs : Codecs) (m : MetaBlocks) (it : TableIterator) :
    Except Err (Option TableIterator ⊕ TableIterator) := do
  match ← it.nextInner with
  | some it' => pure (.inl (some it'))
  | none =>
    if m.indexEnt.length ≤ it.blk then pure (.inl none)
    else do
      let h ← m.blockHandleAt it.blk
      let it' ← it.loadBlock cs h
      pure (.inr it')

/-- `Next`: the iterator at the next entry, none at the end. The parsed blocks are kept
from the first call on. -/
def next (cs : Codecs) (it : TableIterator) : Except Err (Option TableIterator) := do
  let m ← match it.parsed with
    | some m => pure m
    | none => it.tr.ensureMeta cs
  Checked.loop .endless (nextStep cs m) (m.indexEnt.length + 2) { it with parsed := some m }

/-- Runs the iterator to its end: the entries it yields and the error it stops with. It
is nothing when the fuel is used up first. -/
def drain (cs : Codecs) : Nat → TableIterator → Option (List (Bytes × Bytes) × Option Err)
  | 0, _ => none
  | fuel + 1, it =>
    match it.next cs with
    | .error err => some ([], some err)
    | .ok none => some ([], none)
    | .ok (some it') =>
      (it'.drain cs fuel).map fun r => ((it'.inner.key, it'.inner.value) :: r.1, r.2)

end TableIterator

end TableFile

end LevisDB
