import LevisDB.Core.Wire
import LevisDB.Lib.Varint
import LevisDB.Storage.Manifest

/-!
# Manifest records

An edit is one record of tagged fields: the format version, the sequence watermark,
the recovery boundary, and one field for every table or blob file added or deleted.
An end tag closes the record. A length of zero stands for an unknown key bound, so
an empty bound reads back as unknown.
-/

namespace LevisDB

open List

def tagEnd : UInt8 := 0
def tagIdentity : UInt8 := 1
def tagAdd : UInt8 := 2
def tagDelete : UInt8 := 3
def tagLastSeq : UInt8 := 4
def tagReplayLog : UInt8 := 5
def tagAddBlob : UInt8 := 6
def tagDelBlob : UInt8 := 7

def manifestVersion : Nat := 1

def appendKeyBound (bound : Option Key) : Bytes :=
  Varint.put (bound.getD []).length ++ bound.getD []

def TableInfo.encode (t : TableInfo) : Bytes :=
  Varint.put t.num ++ (Varint.put t.depth ++ (Varint.put t.size ++ (appendKeyBound t.minKey ++
    (appendKeyBound t.maxKey ++ (Varint.put t.entries ++ Varint.put t.tombstones)))))

def BlobInfo.encode (b : BlobInfo) : Bytes := Varint.put b.num ++ Varint.put b.size

def ManifestEdit.encode (e : ManifestEdit) : Bytes :=
  (if e.hasIdentity then tagIdentity :: Varint.put manifestVersion else []) ++
    ((e.lastSeq.elim [] fun seq => tagLastSeq :: Varint.put seq) ++
    ((if e.replayLogNum ≠ 0 then tagReplayLog :: Varint.put e.replayLogNum else []) ++
    (e.added.flatMap (fun t => tagAdd :: t.encode) ++
    (e.deleted.flatMap (fun num => tagDelete :: Varint.put num) ++
    (e.addedBlobs.flatMap (fun b => tagAddBlob :: b.encode) ++
    (e.deletedBlobs.flatMap (fun num => tagDelBlob :: Varint.put num) ++ [tagEnd]))))))

def readUvarint (err : Err) (record : Bytes) : Except Err (Nat × Bytes) :=
  match Varint.get record with
  | none => .error err
  | some r => .ok r

/-- The bytes of a bound; none when the length is zero. -/
def takeBound (length : Nat) (record : Bytes) : Except Err (Option Key × Bytes) := do
  let data ← cut length .manifestBadTable record
  pure (if length = 0 then none else some data.1, data.2)

def readKeyBound (record : Bytes) : Except Err (Option Key × Bytes) := do
  let length ← readUvarint .manifestBadTable record
  takeBound length.1 length.2

def readTableRest (num depth size : Nat) (record : Bytes) : Except Err (TableInfo × Bytes) := do
  let minKey ← readKeyBound record
  let maxKey ← readKeyBound minKey.2
  let entries ← readUvarint .manifestBadTable maxKey.2
  let tombstones ← readUvarint .manifestBadTable entries.2
  if 2 ^ 63 - 1 < entries.1 ∨ 2 ^ 63 - 1 < tombstones.1 then .error .manifestBadTable
  else pure (⟨num, depth, size, minKey.1, maxKey.1, entries.1, tombstones.1⟩, tombstones.2)

def readTable (record : Bytes) : Except Err (TableInfo × Bytes) := do
  let num ← readUvarint .manifestBadTable record
  let depth ← readUvarint .manifestBadTable num.2
  let size ← readUvarint .manifestBadTable depth.2
  if 2 ^ 32 - 1 < num.1 ∨ 2 ^ 63 - 1 < depth.1 ∨ 2 ^ 63 - 1 < size.1 then .error .manifestBadTable
  else readTableRest num.1 depth.1 size.1 size.2

/-- A blob field: a number, and for an added blob its size. -/
def readBlobTag (e : ManifestEdit) (tag : UInt8) (record : Bytes) :
    Except Err (ManifestEdit × Bytes) := do
  let num ← readUvarint .manifestBadBlob record
  if num.1 = 0 ∨ 2 ^ 32 - 1 < num.1 then .error .manifestBadBlob
  else if tag = tagDelBlob then pure ({ e with deletedBlobs := e.deletedBlobs ++ [num.1] }, num.2)
  else do
    let size ← readUvarint .manifestBadBlobSize num.2
    if 2 ^ 63 - 1 < size.1 then .error .manifestBadBlobSize
    else pure ({ e with addedBlobs := e.addedBlobs ++ [⟨num.1, size.1⟩] }, size.2)

def readIdentity (e : ManifestEdit) (record : Bytes) : Except Err (ManifestEdit × Bytes) :=
  if e.hasIdentity then .error .manifestDuplicateIdentity
  else do
    let version ← readUvarint .manifestBadVersion record
    if version.1 ≠ manifestVersion then .error (.manifestUnsupportedVersion version.1)
    else pure ({ e with hasIdentity := true }, version.2)

def readLastSeq (e : ManifestEdit) (record : Bytes) : Except Err (ManifestEdit × Bytes) :=
  if e.lastSeq.isSome then .error .manifestDuplicateLastSeq
  else do
    let seq ← readUvarint .manifestBadLastSeq record
    if maxIKeySeq < seq.1 then .error .manifestLastSeqRange
    else pure ({ e with lastSeq := some seq.1 }, seq.2)

def readReplayLog (e : ManifestEdit) (record : Bytes) : Except Err (ManifestEdit × Bytes) := do
  let num ← readUvarint .manifestBadBoundary record
  if num.1 = 0 ∨ 2 ^ 32 - 1 < num.1 ∨ e.replayLogNum ≠ 0 then .error .manifestBadBoundary
  else pure ({ e with replayLogNum := num.1 }, num.2)

def readDelete (e : ManifestEdit) (record : Bytes) : Except Err (ManifestEdit × Bytes) := do
  let num ← readUvarint .manifestBadDelete record
  if 2 ^ 32 - 1 < num.1 then .error .manifestDeleteRange
  else pure ({ e with deleted := e.deleted ++ [num.1] }, num.2)

/-- The field behind a tag other than the end tag. -/
def readTag (e : ManifestEdit) (tag : UInt8) (record : Bytes) : Except Err (ManifestEdit × Bytes) :=
  if tag = tagIdentity then readIdentity e record
  else if tag = tagLastSeq then readLastSeq e record
  else if tag = tagReplayLog then readReplayLog e record
  else if tag = tagAdd then do
    let t ← readTable record
    pure ({ e with added := e.added ++ [t.1] }, t.2)
  else if tag = tagDelete then readDelete e record
  else if tag = tagAddBlob ∨ tag = tagDelBlob then readBlobTag e tag record
  else .error (.manifestUnknownTag tag.toNat)

/-- The loop over the tags. Every tag takes a byte, so the length of the record bounds
the rounds. -/
def decodeTags : Nat → ManifestEdit → Bytes → Except Err ManifestEdit
  | _, _, [] => .error .manifestMissingEnd
  | 0, _, _ :: _ => .error .endless
  | fuel + 1, e, tag :: record =>
    if tag = tagEnd then if record = [] then .ok e else .error .manifestTrailing
    else do
      let r ← readTag e tag record
      decodeTags fuel r.1 r.2

def ManifestEdit.empty : ManifestEdit := ⟨false, none, 0, [], [], [], []⟩

def decodeEdit (record : Bytes) : Except Err ManifestEdit :=
  decodeTags record.length .empty record

theorem readUvarint_local (err : Err) (herr : ¬ err.Fault) :
    Reader.Local Err.Fault (readUvarint err) where
  uses bytes n rest h := by
    unfold readUvarint at h
    cases hget : Varint.get bytes with
    | none =>
      rw [hget] at h
      cases h
    | some r =>
      rw [hget] at h
      cases h
      obtain ⟨used, _, hbytes, hused⟩ := Varint.get_local hget
      refine ⟨used, hbytes, fun tail => ?_⟩
      rw [readUvarint, hused tail]
  safe bytes := by
    unfold readUvarint
    split
    · exact herr
    · trivial

theorem takeBound_local (length : Nat) : Reader.Local Err.Fault (takeBound length) := by
  have hchain := (cut_local length .manifestBadTable id).bind fun data =>
    Reader.local_pure (if length = 0 then none else some data)
  exact hchain

theorem readKeyBound_local : Reader.Local Err.Fault readKeyBound := by
  have hchain := (readUvarint_local .manifestBadTable id).bind takeBound_local
  exact hchain

theorem readTableRest_local (num depth size : Nat) :
    Reader.Local Err.Fault (readTableRest num depth size) := by
  have hchain := readKeyBound_local.bind fun minKey => readKeyBound_local.bind fun maxKey =>
    (readUvarint_local .manifestBadTable id).bind fun entries =>
    (readUvarint_local .manifestBadTable id).bind fun tombstones =>
      Reader.Local.ite (p := 2 ^ 63 - 1 < entries ∨ 2 ^ 63 - 1 < tombstones)
        (fun _ => Reader.local_error Err.manifestBadTable id)
        (fun _ => Reader.local_pure (TableInfo.mk num depth size minKey maxKey entries tombstones))
  exact hchain

theorem readTable_local : Reader.Local Err.Fault readTable := by
  have hchain := (readUvarint_local .manifestBadTable id).bind fun num =>
    (readUvarint_local .manifestBadTable id).bind fun depth =>
    (readUvarint_local .manifestBadTable id).bind fun size =>
      Reader.Local.ite (p := 2 ^ 32 - 1 < num ∨ 2 ^ 63 - 1 < depth ∨ 2 ^ 63 - 1 < size)
        (fun _ => Reader.local_error Err.manifestBadTable id)
        (fun _ => readTableRest_local num depth size)
  exact hchain

theorem readBlobTag_local (e : ManifestEdit) (tag : UInt8) : Reader.Local Err.Fault
    (readBlobTag e tag) := by
  have hsize := fun num => (readUvarint_local .manifestBadBlobSize id).bind fun size =>
    Reader.Local.ite (p := 2 ^ 63 - 1 < size)
      (fun _ => Reader.local_error Err.manifestBadBlobSize id)
      (fun _ => Reader.local_pure { e with addedBlobs := e.addedBlobs ++ [BlobInfo.mk num size] })
  have hchain := (readUvarint_local .manifestBadBlob id).bind fun num =>
    Reader.Local.ite (p := num = 0 ∨ 2 ^ 32 - 1 < num)
      (fun _ => Reader.local_error Err.manifestBadBlob id)
      (fun _ => Reader.Local.ite (p := tag = tagDelBlob)
        (fun _ => Reader.local_pure { e with deletedBlobs := e.deletedBlobs ++ [num] })
        (fun _ => hsize num))
  exact hchain

theorem readIdentity_local (e : ManifestEdit) : Reader.Local Err.Fault (readIdentity e) := by
  refine Reader.Local.ite (fun _ => Reader.local_error _ id) fun _ => ?_
  have hchain := (readUvarint_local .manifestBadVersion id).bind fun version =>
    Reader.Local.ite (p := version ≠ manifestVersion)
      (fun _ => Reader.local_error (Err.manifestUnsupportedVersion version) id)
      (fun _ => Reader.local_pure { e with hasIdentity := true })
  exact hchain

theorem readLastSeq_local (e : ManifestEdit) : Reader.Local Err.Fault (readLastSeq e) := by
  refine Reader.Local.ite (fun _ => Reader.local_error _ id) fun _ => ?_
  have hchain := (readUvarint_local .manifestBadLastSeq id).bind fun seq =>
    Reader.Local.ite (p := maxIKeySeq < seq)
    (fun _ => Reader.local_error Err.manifestLastSeqRange id)
      (fun _ => Reader.local_pure { e with lastSeq := some seq })
  exact hchain

theorem readReplayLog_local (e : ManifestEdit) : Reader.Local Err.Fault (readReplayLog e) := by
  have hchain := (readUvarint_local .manifestBadBoundary id).bind fun num =>
    Reader.Local.ite (p := num = 0 ∨ 2 ^ 32 - 1 < num ∨ e.replayLogNum ≠ 0)
      (fun _ => Reader.local_error Err.manifestBadBoundary id)
      (fun _ => Reader.local_pure { e with replayLogNum := num })
  exact hchain

theorem readDelete_local (e : ManifestEdit) : Reader.Local Err.Fault (readDelete e) := by
  have hchain := (readUvarint_local .manifestBadDelete id).bind fun num =>
    Reader.Local.ite (p := 2 ^ 32 - 1 < num)
    (fun _ => Reader.local_error Err.manifestDeleteRange id)
      (fun _ => Reader.local_pure { e with deleted := e.deleted ++ [num] })
  exact hchain

theorem readTag_local (e : ManifestEdit) (tag : UInt8) : Reader.Local Err.Fault (readTag e tag) :=
    by
  have hadd := readTable_local.bind fun t =>
    Reader.local_pure (ε := Err) { e with added := e.added ++ [t] }
  exact .ite (fun _ => readIdentity_local e) fun _ => .ite (fun _ => readLastSeq_local e) fun _ =>
    .ite (fun _ => readReplayLog_local e) fun _ => .ite (fun _ => hadd) fun _ =>
    .ite (fun _ => readDelete_local e) fun _ => .ite (fun _ => readBlobTag_local e tag) fun _ =>
    Reader.local_error _ id

theorem decodeTags_fuel {fuel fuel' : Nat} {record : Bytes} (h : record.length ≤ fuel)
    (h' : record.length ≤ fuel') (e : ManifestEdit) :
    decodeTags fuel e record = decodeTags fuel' e record := by
  induction fuel generalizing fuel' e record with
  | zero =>
    obtain rfl := length_eq_zero_iff.1 (Nat.le_zero.1 h)
    simp [decodeTags]
  | succ fuel ih =>
    cases record with
    | nil => simp [decodeTags]
    | cons tag record =>
      rw [length_cons] at h h'
      obtain ⟨fuel', rfl⟩ := Nat.exists_eq_add_one.2 (Nat.lt_of_lt_of_le (Nat.succ_pos _) h')
      rw [decodeTags, decodeTags]
      cases hread : readTag e tag record with
      | error err => rfl
      | ok r =>
        obtain ⟨used, rfl, _⟩ := (readTag_local e tag).uses record r.1 r.2 hread
        rw [length_append] at h h'
        have hrest := ih (show r.2.length ≤ fuel by omega)
          (show r.2.length ≤ fuel' by omega) r.1
        split_ifs
        · rfl
        · rfl
        · exact hrest

/-- The rounds left to do from an edit read so far. -/
def decodeFrom (e : ManifestEdit) (record : Bytes) : Except Err ManifestEdit :=
  decodeTags record.length e record

theorem decodeFrom_end (e : ManifestEdit) : decodeFrom e [tagEnd] = .ok e := rfl

theorem decodeFrom_cons {tag : UInt8} (htag : tag ≠ tagEnd) (e : ManifestEdit) (record : Bytes) :
    decodeFrom e (tag :: record) = readTag e tag record >>= fun r => decodeFrom r.1 r.2 := by
  rw [decodeFrom, length_cons, decodeTags, if_neg htag]
  cases hread : readTag e tag record with
  | error err => rfl
  | ok r =>
    obtain ⟨used, rfl, _⟩ := (readTag_local e tag).uses record r.1 r.2 hread
    exact decodeTags_fuel (by simp) (Nat.le_refl _) r.1

theorem decodeFrom_of_readTag {tag : UInt8} (htag : tag ≠ tagEnd) {e e' : ManifestEdit}
    {record rest : Bytes} (h : readTag e tag record = .ok (e', rest)) :
    decodeFrom e (tag :: record) = decodeFrom e' rest := by
  rw [decodeFrom_cons htag, h]
  rfl

theorem readUvarint_put (err : Err) {n : Nat} (h : n < 2 ^ 64) (rest : Bytes) :
    readUvarint err (Varint.put n ++ rest) = .ok (n, rest) := by
  rw [readUvarint, Varint.get_put_append h]

theorem readKeyBound_append {bound : Option Key} (h : (bound.getD []).length < 2 ^ 64)
    (rest : Bytes) :
    readKeyBound (appendKeyBound bound ++ rest) = .ok (recordedBound bound, rest) := by
  have htake : takeBound (bound.getD []).length (bound.getD [] ++ rest) =
      .ok (recordedBound bound, rest) := by
    rw [takeBound, cut_append, Except.ok_bind]
    cases bound with
    | none => rfl
    | some key =>
      cases key with
      | nil => rfl
      | cons b key => rfl
  rw [readKeyBound, appendKeyBound, append_assoc, readUvarint_put _ h]
  exact htake

structure TableInfo.Representable (t : TableInfo) : Prop where
  num : t.num < 2 ^ 32
  depth : t.depth < 2 ^ 63
  size : t.size < 2 ^ 63
  minKey : (t.minKey.getD []).length < 2 ^ 63
  maxKey : (t.maxKey.getD []).length < 2 ^ 63
  entries : t.entries < 2 ^ 63
  tombstones : t.tombstones < 2 ^ 63

def TableInfo.recorded (t : TableInfo) : TableInfo :=
  { t with minKey := recordedBound t.minKey, maxKey := recordedBound t.maxKey }

theorem TableInfo.Representable.readTableRest {t : TableInfo} (h : t.Representable) (rest : Bytes) :
    readTableRest t.num t.depth t.size (appendKeyBound t.minKey ++ (appendKeyBound t.maxKey ++
      (Varint.put t.entries ++ (Varint.put t.tombstones ++ rest)))) = .ok (t.recorded, rest) := by
  obtain ⟨_, _, _, hmin, hmax, hentries, htombstones⟩ := h
  rw [LevisDB.readTableRest, readKeyBound_append (by omega)]
  dsimp only [bind, Except.bind]
  rw [readKeyBound_append (by omega)]
  dsimp only
  rw [readUvarint_put _ (by omega)]
  dsimp only
  rw [readUvarint_put _ (by omega)]
  dsimp only
  rw [if_neg (by omega)]
  rfl

theorem TableInfo.Representable.readTable {t : TableInfo} (h : t.Representable) (rest : Bytes) :
    readTable (t.encode ++ rest) = .ok (t.recorded, rest) := by
  obtain ⟨hnum, hdepth, hsize, _⟩ := id h
  simp only [LevisDB.readTable, TableInfo.encode, append_assoc]
  rw [readUvarint_put _ (by omega)]
  dsimp only [bind, Except.bind]
  rw [readUvarint_put _ (by omega)]
  dsimp only
  rw [readUvarint_put _ (by omega)]
  dsimp only
  rw [if_neg (by omega), h.readTableRest]

def BlobInfo.Representable (b : BlobInfo) : Prop := b.num ≠ 0 ∧ b.num < 2 ^ 32 ∧ b.size < 2 ^ 63

theorem decodeFrom_added {ts : List TableInfo} (h : ∀ t ∈ ts, t.Representable) (e : ManifestEdit)
    (rest : Bytes) :
    decodeFrom e (ts.flatMap (fun t => tagAdd :: t.encode) ++ rest) =
      decodeFrom { e with added := e.added ++ ts.map TableInfo.recorded } rest := by
  induction ts generalizing e with
  | nil => simp
  | cons t ts ih =>
    rw [forall_mem_cons] at h
    have hread : readTag e tagAdd (t.encode ++ (ts.flatMap (fun t => tagAdd :: t.encode) ++ rest)) =
        .ok ({ e with added := e.added ++ [t.recorded] },
          ts.flatMap (fun t => tagAdd :: t.encode) ++ rest) := by
      simp only [readTag, h.1.readTable]
      rfl
    rw [flatMap_cons, cons_append, cons_append, append_assoc,
      decodeFrom_of_readTag (by decide) hread, ih h.2]
    simp

theorem decodeFrom_deleted {nums : List Nat} (h : ∀ num ∈ nums, num < 2 ^ 32) (e : ManifestEdit)
    (rest : Bytes) :
    decodeFrom e (nums.flatMap (fun num => tagDelete :: Varint.put num) ++ rest) =
      decodeFrom { e with deleted := e.deleted ++ nums } rest := by
  induction nums generalizing e with
  | nil => simp
  | cons num nums ih =>
    rw [forall_mem_cons] at h
    have hread (tail : Bytes) : readTag e tagDelete (Varint.put num ++ tail) =
        .ok ({ e with deleted := e.deleted ++ [num] }, tail) := by
      have hdelete : readDelete e (Varint.put num ++ tail) =
          .ok ({ e with deleted := e.deleted ++ [num] }, tail) := by
        rw [readDelete, readUvarint_put _ (by omega)]
        exact if_neg (by dsimp only; omega)
      exact hdelete
    rw [flatMap_cons, cons_append, cons_append, append_assoc,
      decodeFrom_of_readTag (by decide) (hread _), ih h.2]
    simp

theorem decodeFrom_addedBlobs {bs : List BlobInfo} (h : ∀ b ∈ bs, b.Representable)
    (e : ManifestEdit) (rest : Bytes) :
    decodeFrom e (bs.flatMap (fun b => tagAddBlob :: b.encode) ++ rest) =
      decodeFrom { e with addedBlobs := e.addedBlobs ++ bs } rest := by
  induction bs generalizing e with
  | nil => simp
  | cons b bs ih =>
    rw [forall_mem_cons] at h
    obtain ⟨hzero, hnum, hsize⟩ := h.1
    have hread (tail : Bytes) : readTag e tagAddBlob (b.encode ++ tail) =
        .ok ({ e with addedBlobs := e.addedBlobs ++ [b] }, tail) := by
      have hblob : readBlobTag e tagAddBlob (b.encode ++ tail) =
          .ok ({ e with addedBlobs := e.addedBlobs ++ [b] }, tail) := by
        rw [readBlobTag, BlobInfo.encode, append_assoc, readUvarint_put _ (by omega)]
        dsimp only [bind, Except.bind]
        rw [if_neg (by omega), if_neg (by decide), readUvarint_put _ (by omega)]
        exact if_neg (by dsimp only; omega)
      exact hblob
    rw [flatMap_cons, cons_append, cons_append, append_assoc,
      decodeFrom_of_readTag (by decide) (hread _), ih h.2]
    simp

theorem decodeFrom_deletedBlobs {nums : List Nat} (h : ∀ num ∈ nums, num ≠ 0 ∧ num < 2 ^ 32)
    (e : ManifestEdit) (rest : Bytes) :
    decodeFrom e (nums.flatMap (fun num => tagDelBlob :: Varint.put num) ++ rest) =
      decodeFrom { e with deletedBlobs := e.deletedBlobs ++ nums } rest := by
  induction nums generalizing e with
  | nil => simp
  | cons num nums ih =>
    rw [forall_mem_cons] at h
    obtain ⟨hzero, hnum⟩ := h.1
    have hread (tail : Bytes) : readTag e tagDelBlob (Varint.put num ++ tail) =
        .ok ({ e with deletedBlobs := e.deletedBlobs ++ [num] }, tail) := by
      have hblob : readBlobTag e tagDelBlob (Varint.put num ++ tail) =
          .ok ({ e with deletedBlobs := e.deletedBlobs ++ [num] }, tail) := by
        rw [readBlobTag, readUvarint_put _ (by omega)]
        dsimp only [bind, Except.bind]
        rw [if_neg (by omega)]
        rfl
      exact hblob
    rw [flatMap_cons, cons_append, cons_append, append_assoc,
      decodeFrom_of_readTag (by decide) (hread _), ih h.2]
    simp

/-- The edits whose fields fit their encodings: numbers of 32 bits, signed sizes and
counts that are not negative, blob numbers other than zero. -/
structure ManifestEdit.Representable (e : ManifestEdit) : Prop where
  lastSeq : ∀ seq ∈ e.lastSeq, seq ≤ maxIKeySeq
  replayLogNum : e.replayLogNum < 2 ^ 32
  added : ∀ t ∈ e.added, t.Representable
  deleted : ∀ num ∈ e.deleted, num < 2 ^ 32
  addedBlobs : ∀ b ∈ e.addedBlobs, b.Representable
  deletedBlobs : ∀ num ∈ e.deletedBlobs, num ≠ 0 ∧ num < 2 ^ 32

def ManifestEdit.recorded (e : ManifestEdit) : ManifestEdit :=
  { e with added := e.added.map TableInfo.recorded }

theorem decodeFrom_identity (flag : Bool) (e : ManifestEdit) (he : e.hasIdentity = false)
    (rest : Bytes) :
    decodeFrom e ((if flag then tagIdentity :: Varint.put manifestVersion else []) ++ rest) =
      decodeFrom { e with hasIdentity := flag } rest := by
  cases flag with
  | false =>
    have hsame : { e with hasIdentity := false } = e := by rw [← he]
    rw [hsame]
    rfl
  | true =>
    have hread : readTag e tagIdentity (Varint.put manifestVersion ++ rest) =
        .ok ({ e with hasIdentity := true }, rest) := by
      have hid : readIdentity e (Varint.put manifestVersion ++ rest) =
          .ok ({ e with hasIdentity := true }, rest) := by
        rw [readIdentity, if_neg (by simp [he]), readUvarint_put _ (by decide)]
        rfl
      exact hid
    exact decodeFrom_of_readTag (by decide) hread

theorem decodeFrom_lastSeq {last : Option Nat} (h : ∀ seq ∈ last, seq ≤ maxIKeySeq)
    (e : ManifestEdit) (he : e.lastSeq = none) (rest : Bytes) :
    decodeFrom e ((last.elim [] fun seq => tagLastSeq :: Varint.put seq) ++ rest) =
      decodeFrom { e with lastSeq := last } rest := by
  cases last with
  | none =>
    have hsame : { e with lastSeq := none } = e := by rw [← he]
    rw [hsame]
    rfl
  | some seq =>
    have hseq : seq ≤ maxIKeySeq := h seq rfl
    have hmax : maxIKeySeq < 2 ^ 64 := by decide
    have hread : readTag e tagLastSeq (Varint.put seq ++ rest) =
        .ok ({ e with lastSeq := some seq }, rest) := by
      have hlast : readLastSeq e (Varint.put seq ++ rest) =
          .ok ({ e with lastSeq := some seq }, rest) := by
        rw [readLastSeq, if_neg (by simp [he]), readUvarint_put _ (by omega)]
        exact if_neg (by dsimp only; omega)
      exact hlast
    exact decodeFrom_of_readTag (by decide) hread

theorem decodeFrom_replayLog {num : Nat} (h : num < 2 ^ 32) (e : ManifestEdit)
    (he : e.replayLogNum = 0) (rest : Bytes) :
    decodeFrom e ((if num ≠ 0 then tagReplayLog :: Varint.put num else []) ++ rest) =
      decodeFrom { e with replayLogNum := num } rest := by
  by_cases hzero : num = 0
  · rw [if_neg (by simpa using hzero), hzero, ← he]
    rfl
  · have hread : readTag e tagReplayLog (Varint.put num ++ rest) =
        .ok ({ e with replayLogNum := num }, rest) := by
      have hlog : readReplayLog e (Varint.put num ++ rest) =
          .ok ({ e with replayLogNum := num }, rest) := by
        rw [readReplayLog, readUvarint_put _ (by omega)]
        exact if_neg (by dsimp only; omega)
      exact hlog
    rw [if_pos hzero]
    exact decodeFrom_of_readTag (by decide) hread

theorem ManifestEdit.Representable.decodeEdit {e : ManifestEdit} (h : e.Representable) :
    decodeEdit e.encode = .ok e.recorded := by
  obtain ⟨hseq, hlog, hadded, hdeleted, hblobs, hdelBlobs⟩ := h
  change decodeFrom .empty e.encode = _
  rw [encode, decodeFrom_identity _ _ rfl, decodeFrom_lastSeq hseq _ rfl,
    decodeFrom_replayLog hlog _ rfl, decodeFrom_added hadded, decodeFrom_deleted hdeleted,
    decodeFrom_addedBlobs hblobs, decodeFrom_deletedBlobs hdelBlobs, decodeFrom_end]
  rfl

/-- Fields that are read one after the other, each alike whatever follows it. None of
them starts with the end tag. -/
inductive ReadsFields : ManifestEdit → List Bytes → ManifestEdit → Prop
  | nil (e : ManifestEdit) : ReadsFields e [] e
  | cons {e e₁ e₂ : ManifestEdit} {tag : UInt8} {body : Bytes} {fields : List Bytes}
      (htag : tag ≠ tagEnd) (hread : ∀ tail, readTag e tag (body ++ tail) = .ok (e₁, tail))
      (hrest : ReadsFields e₁ fields e₂) : ReadsFields e ((tag :: body) :: fields) e₂

theorem readsFields_of_decodeTags {fuel : Nat} {e e' : ManifestEdit} {record : Bytes}
    (h : decodeTags fuel e record = .ok e') :
    ∃ fields, record = fields.flatten ++ [tagEnd] ∧ ReadsFields e fields e' := by
  induction fuel generalizing e record with
  | zero => cases record <;> cases h
  | succ fuel ih =>
    cases record with
    | nil => cases h
    | cons tag record =>
      rw [decodeTags] at h
      split_ifs at h with htag hnil
      · obtain rfl := Except.ok.inj h
        exact ⟨[], by rw [htag, hnil]; rfl, .nil e⟩
      · cases hread : readTag e tag record with
        | error err =>
          rw [hread] at h
          cases h
        | ok r =>
          rw [hread] at h
          obtain ⟨fields, hrest, hfields⟩ := ih h
          obtain ⟨used, rfl, hused⟩ := (readTag_local e tag).uses record r.1 r.2 hread
          refine ⟨(tag :: used) :: fields, ?_, .cons htag hused hfields⟩
          rw [hrest]
          simp

theorem decodeTags_ends {fuel : Nat} {record : Bytes} (h : record.length ≤ fuel)
    (e : ManifestEdit) : Ends (fun _ => True) (decodeTags fuel e record) := by
  induction fuel generalizing e record with
  | zero =>
    obtain rfl := length_eq_zero_iff.1 (Nat.le_zero.1 h)
    exact id
  | succ fuel ih =>
    cases record with
    | nil => exact id
    | cons tag record =>
      rw [decodeTags]
      split_ifs
      · trivial
      · exact id
      · cases hread : readTag e tag record with
        | error err => exact (hread ▸ (readTag_local e tag).safe record :)
        | ok r =>
          obtain ⟨used, rfl, _⟩ := (readTag_local e tag).uses record r.1 r.2 hread
          rw [length_cons, length_append] at h
          exact ih (by omega) r.1

/-- An edit whose fields fit reads back as it was written, unknown bounds for empty
ones. On any bytes the loop ends within a round a byte and faults nowhere. It accepts
only fields followed by one end tag and nothing else, and what a field reads as is
decided by its own bytes. -/
theorem manifest_edits_round_trip :
    (∀ e : ManifestEdit, e.Representable → decodeEdit e.encode = .ok e.recorded) ∧
      (∀ (record : Bytes) (fuel : Nat), record.length ≤ fuel →
        decodeTags fuel .empty record = decodeEdit record) ∧
      (∀ record : Bytes, Ends (fun _ => True) (decodeEdit record)) ∧
      (∀ (e : ManifestEdit) (tag : UInt8), Reader.Local Err.Fault (readTag e tag)) ∧
      ∀ (record : Bytes) (e : ManifestEdit), decodeEdit record = .ok e →
        ∃ fields, record = fields.flatten ++ [tagEnd] ∧ ReadsFields .empty fields e := by
  refine ⟨fun e h => h.decodeEdit, fun record fuel h => ?_, fun record => ?_, readTag_local,
    fun record e h => ?_⟩
  · exact decodeTags_fuel h (Nat.le_refl _) .empty
  · exact decodeTags_ends (Nat.le_refl _) .empty
  · exact readsFields_of_decodeTags h

def tableEdit : ManifestEdit :=
  ⟨true, some 5, 3, [⟨7, 0, 300, some [], some [1, 2], 4, 1⟩], [6], [⟨9, 4096⟩], [8]⟩

theorem tableEdit_representable : tableEdit.Representable := by
  refine ⟨?_, by decide, ?_, by decide, ?_, by decide⟩
  · simp [tableEdit, maxIKeySeq]
  · intro t ht
    obtain rfl := mem_singleton.1 ht
    constructor <;> decide
  · intro b hb
    obtain rfl := mem_singleton.1 hb
    refine ⟨by decide, by decide, by decide⟩

theorem manifest_edits_round_trip_bounds :
    (decodeEdit tableEdit.encode).toOption = some tableEdit.recorded ∧
      decodeTags 200 .empty tableEdit.encode = decodeEdit tableEdit.encode ∧
      ∃ fields, tableEdit.encode = fields.flatten ++ [tagEnd] ∧
        ReadsFields .empty fields tableEdit.recorded := by
  obtain ⟨hround, hfuel, _, _, haccept⟩ := manifest_edits_round_trip
  have hread := hround tableEdit tableEdit_representable
  refine ⟨by rw [hread]; rfl, hfuel _ 200 (by decide), haccept _ _ hread⟩

end LevisDB
