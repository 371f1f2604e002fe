import LevisDB.Core.Bytes
import LevisDB.Lib.LittleEndian

/-!
# The journal

The write-ahead log is a stream of records framed for crash recovery. A record is
cut into chunks that fit blocks of 32 KiB; every chunk carries a checksum, its
length and whether it is the whole record or its first, middle or last part. Fewer
bytes than a header at the end of a block are zero padding. The writer keeps the
current block in memory, and a flush may hand over a part of it; the reader takes
one block at a time from the file.
-/

namespace LevisDB

namespace Journal

def blockSize : Nat := 32 * 1024

/-- Checksum (4), length (2) and type (1). -/
def headerSize : Nat := 7

def chunkFull : UInt8 := 1

def chunkFirst : UInt8 := 2

def chunkMiddle : UInt8 := 3

def chunkLast : UInt8 := 4

/-- The Castagnoli polynomial, reflected. -/
def castagnoli : UInt32 := 0x82f63b78

/-- One entry of the table `crc32.MakeTable` builds. -/
def crcTable (i : UInt32) : UInt32 :=
  (List.range 8).foldl (fun c _ => if c &&& 1 = 1 then (c >>> 1) ^^^ castagnoli else c >>> 1) i

/-- `crc32.Update`. -/
def crcUpdate (crc : UInt32) (p : Bytes) : UInt32 :=
  ~~~ p.foldl (fun c b => crcTable ((c ^^^ b.toUInt32) &&& 0xff) ^^^ (c >>> 8)) (~~~ crc)

/-- The checksum of a chunk covers its type and its data. -/
def checksum (typ : UInt8) (data : Bytes) : UInt32 := crcUpdate (crcUpdate 0 [typ]) data

def chunk (typ : UInt8) (data : Bytes) : Bytes :=
  LittleEndian.put 4 (checksum typ data).toNat ++ LittleEndian.put 2 data.length ++ typ :: data

def chunkType (first last : Bool) : UInt8 :=
  if first then if last then chunkFull else chunkFirst
  else if last then chunkLast else chunkMiddle

/-- The writer: what it has handed to the batching buffer of the file, the current
block up to `blockOffset`, and how much of that block has been handed over. The
buffer passes bytes on in order; a flush drains it. -/
structure Writer where
  out : Bytes
  block : Bytes
  flushedOffset : Nat
  deriving DecidableEq

namespace Writer

def new : Writer := ⟨[], [], 0⟩

def flushBlock (w : Writer) : Writer := ⟨w.out ++ w.block.drop w.flushedOffset, [], 0⟩

/-- Pads a block that has no room for a header and starts the next one. -/
def rollOver (w : Writer) : Writer :=
  if blockSize - w.block.length < headerSize then
    flushBlock { w with block := w.block ++ List.replicate (blockSize - w.block.length) 0 }
  else w

def emitChunk (w : Writer) (typ : UInt8) (data : Bytes) : Writer :=
  { w with block := w.block ++ chunk typ data }

/-- The rounds of `Write`; `first` is whether nothing of the record is out yet. -/
def writeLoop : Nat → Writer → Bool → Bytes → Writer
  | 0, w, _, _ => w
  | fuel + 1, w, first, record =>
    let w := w.rollOver
    let chunkLen := min record.length (blockSize - w.block.length - headerSize)
    let last := decide (chunkLen = record.length)
    let w := w.emitChunk (chunkType first last) (record.take chunkLen)
    if last then w else writeLoop fuel w false (record.drop chunkLen)

def write (w : Writer) (record : Bytes) : Writer := writeLoop (record.length + 1) w true record

def flush (w : Writer) : Writer :=
  if w.flushedOffset = w.block.length then w
  else if w.block.length = blockSize then flushBlock w
  else { w with
    out := w.out ++ w.block.drop w.flushedOffset
    flushedOffset := w.block.length }

def position (w : Writer) : Nat := w.out.length + (w.block.length - w.flushedOffset)

end Writer

inductive Op where
  | write (record : Bytes)
  | flush
  deriving DecidableEq

def Writer.step (w : Writer) : Op → Writer
  | .write record => w.write record
  | .flush => w.flush

def Writer.run (w : Writer) (ops : List Op) : Writer := ops.foldl Writer.step w

def Writer.ends : Writer → List Op → List (Bytes × Nat)
  | _, [] => []
  | w, .write record :: ops => (record, (w.write record).position) :: ends (w.write record) ops
  | w, .flush :: ops => ends w.flush ops

/-- `io.EOF` or `errJournalCorrupt`. -/
inductive ReadErr where
  | eof
  | corrupt
  deriving DecidableEq

/-- The reader: what the file still holds, the block it has and how much of that is
used up. `strictTail` is set where a record cut short is not acceptable. -/
structure Reader where
  src : Bytes
  block : Bytes
  blockOffset : Nat
  eof : Bool
  strictTail : Bool

namespace Reader

def new (strictTail : Bool) (src : Bytes) : Reader := ⟨src, [], 0, false, strictTail⟩

/-- Takes the next block. -/
def fill (r : Reader) : Except ReadErr Reader :=
  if r.eof = true ∨ r.src = [] then .error .eof
  else
    .ok { r with
      src := r.src.drop blockSize
      block := r.src.take blockSize
      blockOffset := 0
      eof := decide (r.src.length < blockSize) }

/-- The chunk at the offset, once a header is there. -/
def parseChunk (r : Reader) : Except ReadErr (UInt8 × Bytes × Reader) :=
  let here := r.block.drop r.blockOffset
  let length := LittleEndian.get ((here.drop 4).take 2)
  let typ := here.getD 6 0
  let data := (here.drop headerSize).take length
  if typ = 0 ∧ length = 0 then .error .corrupt
  else if r.block.length < r.blockOffset + headerSize + length then
    if r.block.length < blockSize ∧ r.strictTail = false then .error .eof else .error .corrupt
  else if (checksum typ data).toNat ≠ LittleEndian.get (here.take 4) then .error .corrupt
  else .ok (typ, data, { r with blockOffset := r.blockOffset + headerSize + length })

def readChunk (r : Reader) : Except ReadErr (UInt8 × Bytes × Reader) :=
  if r.block.length - r.blockOffset < headerSize then
    if r.strictTail = true ∧ r.block.length < blockSize ∧ r.blockOffset < r.block.length then
      .error .corrupt
    else
      match r.fill with
      | .error err => .error err
      | .ok r =>
        if r.block.length - r.blockOffset < headerSize then
          .error (if r.strictTail then .corrupt else .eof)
        else r.parseChunk
  else r.parseChunk

inductive Assembled where
  | done (record : Bytes)
  | more (record : Bytes)
  | bad

/-- Adds a chunk to a record; `inProgress` is whether the record has begun. -/
def assemble (inProgress : Bool) (record : Bytes) (typ : UInt8) (data : Bytes) : Assembled :=
  if typ = chunkFull then if inProgress then .bad else .done data
  else if typ = chunkFirst then if inProgress then .bad else .more (record ++ data)
  else if typ = chunkMiddle then if inProgress then .more (record ++ data) else .bad
  else if typ = chunkLast then if inProgress then .done (record ++ data) else .bad
  else .bad

def nextLoop : Nat → Bool → Bytes → Reader → Except ReadErr (Bytes × Reader)
  | 0, _, _, _ => .error .corrupt
  | fuel + 1, inProgress, record, r =>
    match r.readChunk with
    | .error .corrupt => .error .corrupt
    | .error .eof => .error (if inProgress && r.strictTail then .corrupt else .eof)
    | .ok (typ, data, r) =>
      match assemble inProgress record typ data with
      | .bad => .error .corrupt
      | .done record => .ok (record, r)
      | .more record => nextLoop fuel true record r

/-- The bytes not used up; every chunk takes at least a header off them. -/
def remaining (r : Reader) : Nat := r.block.length - r.blockOffset + r.src.length

def next (r : Reader) : Except ReadErr (Bytes × Reader) := nextLoop (r.remaining + 1) false [] r

def readAll : Nat → Reader → List Bytes × ReadErr
  | 0, _ => ([], .corrupt)
  | fuel + 1, r =>
    match r.next with
    | .error err => ([], err)
    | .ok (record, r) => (record :: (readAll fuel r).1, (readAll fuel r).2)

end Reader

def readFile (strictTail : Bool) (src : Bytes) : List Bytes × ReadErr :=
  Reader.readAll (src.length + 1) (.new strictTail src)

end Journal

end LevisDB
