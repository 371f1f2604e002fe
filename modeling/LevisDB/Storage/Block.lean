import LevisDB.Core.InternalKey
import LevisDB.Core.Wire
import LevisDB.Storage.Journal

/-!
# Blocks

A table file is a sequence of blocks. On disk a block is its payload, compressed unless
that does not shrink it, one byte that names the codec and a checksum over both. The
index block is flat: keys and values with their lengths. A data block compresses key
prefixes: an entry holds the length of the prefix it shares with the key before it and
the rest of its key. Every so many entries a restart point holds a whole key, and the
payload ends with the offsets of the restart points, which a seek searches.
-/

namespace LevisDB

open Checked

/-- Codec id (1) and checksum (4). -/
def blockTrailerLen : Nat := 5

structure BlockHandle where
  offset : Nat
  length : Nat
  deriving DecidableEq

def BlockHandle.encode (h : BlockHandle) : Bytes := Varint.put h.offset ++ Varint.put h.length

/-- The handle at a position, and the position behind it; none when it is malformed. -/
def decodeHandle (src : Bytes) (pos : Nat) : Except Err (Option (BlockHandle × Nat)) := do
  let tail ← slice src pos src.length
  match uvarint tail with
  | none => pure none
  | some (offset, n) => do
      let rest ← slice tail n tail.length
      match uvarint rest with
      | none => pure none
      | some (length, n') => pure (some (⟨offset, length⟩, pos + (n + n')))

inductive CodecID where
  | none
  | s2
  | zstd
  | flate
  deriving DecidableEq

namespace CodecID

def byte : CodecID → UInt8
  | none => 0
  | s2 => 1
  | zstd => 2
  | flate => 3

def name : CodecID → String
  | none => "none"
  | s2 => "s2"
  | zstd => "zstd"
  | flate => "flate"

end CodecID

/-- A compression library; decompressing may fail. -/
structure Compressor where
  compress : Bytes → Bytes
  decompress : Bytes → Option Bytes

structure Codecs where
  s2 : Compressor
  zstd : Compressor
  flate : Compressor

def Codecs.library (cs : Codecs) : CodecID → Compressor
  | .none => ⟨id, some⟩
  | .s2 => cs.s2
  | .zstd => cs.zstd
  | .flate => cs.flate

def codecFromID (id : UInt8) : Except Err CodecID :=
  match id with
  | 0 => .ok .none
  | 1 => .ok .s2
  | 2 => .ok .zstd
  | 3 => .ok .flate
  | _ => .error (.tableFile (.unknownCodec id.toNat))

theorem codecFromID_byte (id : CodecID) : codecFromID id.byte = .ok id := by
  cases id <;> rfl

/-- `crc32.Checksum` with the Castagnoli polynomial. -/
def blockChecksum (data : Bytes) : Nat := (Journal.crcUpdate 0 data).toNat

/-- A stored payload under its codec id, with the checksum. -/
def sealBlock (id : CodecID) (out : Bytes) : Bytes :=
  (out ++ [id.byte]) ++ LittleEndian.put 4 (blockChecksum (out ++ [id.byte]))

/-- The block of a payload; a payload the codec does not shrink is stored as it is. -/
def finishBlock (cs : Codecs) (payload : Bytes) (c : CodecID) : Bytes :=
  let out := (cs.library c).compress payload
  if c ≠ .none ∧ payload.length ≤ out.length then sealBlock .none payload else sealBlock c out

def decodeBlock (cs : Codecs) (raw : Bytes) : Except Err Bytes := do
  refuse (raw.length < blockTrailerLen) (.tableFile .blockTooShort)
  let stop ← subtract raw.length 4
  let body ← slice raw 0 stop
  let tail ← slice raw stop raw.length
  let want ← leUint32 tail
  refuse (blockChecksum body ≠ want) (.tableFile .blockChecksum)
  let last ← subtract body.length 1
  let id ← byteAt body last
  let comp ← slice body 0 last
  let c ← codecFromID id
  match (cs.library c).decompress comp with
  | none => .error (.tableFile (.decompress c.name))
  | some payload => pure payload

@[simp] theorem sealBlock_length (id : CodecID) (out : Bytes) :
    (sealBlock id out).length = out.length + blockTrailerLen := by
  simp [sealBlock, blockTrailerLen]

theorem finishBlock_length_le (cs : Codecs) (payload : Bytes) (c : CodecID) :
    (finishBlock cs payload c).length ≤ payload.length + blockTrailerLen := by
  unfold finishBlock
  dsimp only
  split_ifs with h
  · rw [sealBlock_length]
  · rw [sealBlock_length, Nat.add_le_add_iff_right]
    cases c with
    | none => exact Nat.le_refl _
    | s2 => exact Nat.le_of_not_le fun hle => h ⟨by decide, hle⟩
    | zstd => exact Nat.le_of_not_le fun hle => h ⟨by decide, hle⟩
    | flate => exact Nat.le_of_not_le fun hle => h ⟨by decide, hle⟩

theorem finishBlock_none_length (cs : Codecs) (payload : Bytes) :
    (finishBlock cs payload .none).length = payload.length + blockTrailerLen :=
  sealBlock_length .none payload

structure BlockBuilder where
  buf : Bytes
  entries : Nat
  deriving DecidableEq

def BlockBuilder.add (b : BlockBuilder) (key value : Bytes) : BlockBuilder :=
  ⟨b.buf ++ (encodeBytes key ++ encodeBytes value), b.entries + 1⟩

def defaultRestartInterval : Nat := 16

/-- The data block that is being built; `counter` is the number of entries since the last
restart point. The first entry is a restart point that is not listed. -/
structure DataBlockBuilder where
  buf : Bytes
  restarts : List UInt32
  entries : Nat
  counter : Nat
  restartInterval : Nat
  lastKey : Bytes
  deriving DecidableEq

namespace DataBlockBuilder

def new (restartInterval : Nat) : DataBlockBuilder := ⟨[], [], 0, 0, restartInterval, []⟩

def restartEvery (b : DataBlockBuilder) : Nat :=
  if 0 < b.restartInterval then b.restartInterval else defaultRestartInterval

def sharedLen : Bytes → Bytes → Nat
  | a :: as, b :: bs => if a = b then sharedLen as bs + 1 else 0
  | _, _ => 0

/-- An entry behind a key it shares `shared` bytes with. -/
def encodeEntry (shared : Nat) (key value : Bytes) : Bytes :=
  Varint.put shared ++ (Varint.put (key.length - shared) ++ (Varint.put value.length ++
    (key.drop shared ++ value)))

def add (b : DataBlockBuilder) (key value : Bytes) : DataBlockBuilder :=
  if b.counter < b.restartEvery then
    { b with
      buf := b.buf ++ encodeEntry (sharedLen b.lastKey key) key value
      lastKey := key
      entries := b.entries + 1
      counter := b.counter + 1 }
  else
    { b with
      buf := b.buf ++ encodeEntry 0 key value
      restarts := b.restarts ++ [UInt32.ofNat b.buf.length]
      lastKey := key
      entries := b.entries + 1
      counter := 1 }

def empty (b : DataBlockBuilder) : Bool := b.entries == 0

def size (b : DataBlockBuilder) : Nat := b.buf.length + (b.restarts.length + 1) * 4 + 4

def reset (b : DataBlockBuilder) : DataBlockBuilder := new b.restartInterval

def allRestarts (b : DataBlockBuilder) : List UInt32 :=
  if 0 < b.entries then 0 :: b.restarts else b.restarts

def encodeRestarts (restarts : List UInt32) : Bytes :=
  restarts.flatMap fun r => LittleEndian.put 4 r.toNat

def finish (b : DataBlockBuilder) : Bytes :=
  b.buf ++ (encodeRestarts b.allRestarts ++ LittleEndian.put 4 b.allRestarts.length)

theorem encodeRestarts_length (restarts : List UInt32) :
    (encodeRestarts restarts).length = restarts.length * 4 := by
  induction restarts with
  | nil => rfl
  | cons r restarts ih =>
    rw [encodeRestarts, List.flatMap_cons, List.length_append, LittleEndian.put_length,
      List.length_cons]
    change 4 + (encodeRestarts restarts).length = _
    omega

theorem finish_length_le (b : DataBlockBuilder) : b.finish.length ≤ b.size := by
  have hrestarts : b.allRestarts.length ≤ b.restarts.length + 1 := by
    unfold allRestarts
    split_ifs
    · rw [List.length_cons]
    · omega
  rw [finish, List.length_append, List.length_append, encodeRestarts_length,
    LittleEndian.put_length, size]
  omega

end DataBlockBuilder

/-- Separates the entries of a payload from the restart offsets. -/
def splitDataBlock (payload : Bytes) : Except Err (Bytes × Bytes × Nat) := do
  refuse (payload.length < 4) (.tableFile .dataTooShort)
  let stop ← subtract payload.length 4
  let tail ← slice payload stop payload.length
  let n ← leUint32 tail
  refuse (payload.length < (n + 1) * 4) (.tableFile .restartCount)
  let entryEnd ← subtract payload.length ((n + 1) * 4)
  let entries ← slice payload 0 entryEnd
  let restarts ← slice payload entryEnd stop
  pure (entries, restarts, n)

/-- A position in the entries of a data block. The current key is in the buffer `which`
names, if there is one; the next key is built in the other buffer. -/
structure DataBlockIter where
  entries : Bytes
  restarts : Bytes
  nRestart : Nat
  pos : Nat
  bufs : Bytes × Bytes
  which : Bool
  hasKey : Bool
  value : Bytes
  deriving DecidableEq

namespace DataBlockIter

def start (entries restarts : Bytes) (nRestart : Nat) : DataBlockIter :=
  ⟨entries, restarts, nRestart, 0, ([], []), false, false, []⟩

/-- The iterator over the entries of the next block; the buffers stay. -/
def resetEntries (it : DataBlockIter) (entries : Bytes) : DataBlockIter :=
  { it with entries := entries, restarts := [], nRestart := 0, pos := 0, which := false,
            hasKey := false, value := [] }

def buf (it : DataBlockIter) (which : Bool) : Bytes := if which then it.bufs.2 else it.bufs.1

def setBuf (it : DataBlockIter) (which : Bool) (b : Bytes) : DataBlockIter :=
  { it with bufs := if which then (it.bufs.1, b) else (b, it.bufs.2) }

def key (it : DataBlockIter) : Bytes := if it.hasKey then it.buf it.which else []

/-- The entry offset of a restart point, none when it lies outside the entries. -/
def restartOffset (it : DataBlockIter) (i : Nat) : Except Err (Option Nat) :=
  if it.restarts.length < (i + 1) * 4 then pure none
  else do
    let tail ← slice it.restarts (i * 4) it.restarts.length
    let off ← leUint32 tail
    pure (if it.entries.length ≤ off then none else some off)

/-- The whole key of the entry at an offset, none when there is no restart entry. -/
def keyAt (it : DataBlockIter) (off : Nat) : Except Err (Option Bytes) :=
  if it.entries.length ≤ off then pure none
  else do
    let tail ← slice it.entries off it.entries.length
    match uvarint tail with
    | none => pure none
    | some (shared, n) => do
        let tail ← slice it.entries (off + n) it.entries.length
        match uvarint tail with
        | none => pure none
        | some (nonShared, n') => do
            let tail ← slice it.entries (off + n + n') it.entries.length
            match uvarint tail with
            | none => pure none
            | some (_, n'') => do
                let left ← subtract it.entries.length (off + n + n' + n'')
                if shared ≠ 0 ∨ nonShared < trailerLen ∨ left < nonShared then pure none
                else do
                  let k ← slice it.entries (off + n + n' + n'') (off + n + n' + n'' + nonShared)
                  pure (some k)

def restartKey (it : DataBlockIter) (i : Nat) : Except Err (Option Bytes) := do
  match ← it.restartOffset i with
  | none => pure none
  | some off => it.keyAt off

/-- A comparison of internal keys; one without a trailer panics. -/
def compareKeys (a b : Bytes) : Except Err Ordering :=
  match ikeyCompareBytes a b with
  | some o => .ok o
  | none => .error .sliceBounds

/-- One round of the search for the first restart point not below the target. It ends
with the bound, or with nothing at a malformed restart point. -/
def seekStep (it : DataBlockIter) (target : Bytes) (s : Nat × Nat) :
    Except Err (Option Nat ⊕ (Nat × Nat)) :=
  let (lo, hi) := s
  if lo < hi then do
    let mid := (lo + hi) / 2
    match ← it.restartKey mid with
    | none => pure (.inl none)
    | some k => do
        match ← compareKeys k target with
        | .lt => pure (.inr (mid + 1, hi))
        | _ => pure (.inr (lo, mid))
  else pure (.inl (some lo))

/-- Positions the iterator in front of the first entry not below the target, a restart
interval ahead of it at most. -/
def seek (it : DataBlockIter) (target : Bytes) : Except Err DataBlockIter := do
  match ← Checked.loop .endless (it.seekStep target) (it.nRestart + 1) (0, it.nRestart) with
  | none => pure { it with pos := 0, hasKey := false }
  | some lo =>
    if it.nRestart = 0 then pure { it with pos := 0, hasKey := false }
    else do
      let off ← it.restartOffset (lo - 1)
      pure { it with pos := off.getD 0, hasKey := false }

/-- The next entry, none behind the last one. -/
def next (it : DataBlockIter) : Except Err (Option DataBlockIter) :=
  if it.entries.length ≤ it.pos then pure none
  else do
    let (shared, pos) ← uvarintAt it.entries it.pos (.tableFile .sharedLength)
    let (nonShared, pos) ← uvarintAt it.entries pos (.tableFile .nonSharedLength)
    let (valLen, pos) ← uvarintAt it.entries pos (.tableFile .valueLength)
    let prev := it.key
    refuse (prev.length < shared) (.tableFile .sharedExceeds)
    let (delta, pos) ← takeAt it.entries pos nonShared (.tableFile .keyExceeds)
    let common ← slice prev 0 shared
    let it' := it.setBuf (!it.which) (common ++ delta)
    let (value, pos) ← takeAt it.entries pos valLen (.tableFile .valueExceeds)
    pure (some { it' with which := !it.which, hasKey := true, value := value, pos := pos })

end DataBlockIter

end LevisDB
