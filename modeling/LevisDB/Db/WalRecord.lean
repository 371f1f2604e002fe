import LevisDB.Core.Wire
import LevisDB.Db.Batch
import Mathlib.Algebra.Order.BigOperators.Group.List

/-!
# Log records

A batch is one record of the log: the sequence of its first entry, the number of
entries and the entries one behind the other. The sequences of the others are
counted up on reading. A record the database wrote reads back as the batch it was.
-/

namespace LevisDB

open List LevisDB.Except

variable {b : List WalEntry} {base : Nat} {e : WalEntry}

def WalKind.byte : WalKind → UInt8
  | put => 0
  | delete => 1
  | putTTL => 2
  | rangeDelete => 3

def WalKind.ofByte : UInt8 → Option WalKind
  | 0 => some .put
  | 1 => some .delete
  | 2 => some .putTTL
  | 3 => some .rangeDelete
  | _ => none

theorem WalKind.ofByte_byte (kind : WalKind) : ofByte kind.byte = some kind := by
  cases kind <;> rfl

/-- One entry; a delete has no value, only a put with a deadline has one. -/
def encodeEntry (e : WalEntry) : Bytes :=
  e.kind.byte :: (encodeBytes e.key ++
    ((if e.kind = .putTTL then Varint.putSigned e.expiresAt.toInt else []) ++
      if e.kind = .delete then [] else encodeBytes e.value))

def encodeBatch (baseSeq : Nat) (entries : List WalEntry) : Bytes :=
  LittleEndian.put 8 baseSeq ++ (Varint.put entries.length ++ entries.flatMap encodeEntry)

/-- A failed read, with the part of the entry it was for. -/
def readField (field : String) (rest : Bytes) : Except Err (Bytes × Bytes) :=
  (readBytes rest).mapError (Err.wrapped field)

def readExpiry (kind : WalKind) (rest : Bytes) : Except Err (Time × Bytes) :=
  if kind = .putTTL then
    match Varint.getSigned rest with
    | none => .error .walInvalidExpiration
    | some (expiresAt, rest) =>
      if expiresAt ≤ 0 then .error .walInvalidExpiration else .ok (Int64.ofInt expiresAt, rest)
  else .ok (0, rest)

def readValue (kind : WalKind) (rest : Bytes) : Except Err (Bytes × Bytes) :=
  if kind = .delete then .ok ([], rest) else readField "wal: value" rest

def readKind : Bytes → Except Err (WalKind × Bytes)
  | [] => .error .walTruncatedKind
  | byte :: rest =>
    match WalKind.ofByte byte with
    | none => .error (.walUnknownKind byte.toNat)
    | some kind => .ok (kind, rest)

def decodeEntry (seq : Nat) (rest : Bytes) : Except Err (WalEntry × Bytes) := do
  let kind ← readKind rest
  let key ← readField "wal: key" kind.2
  let expiresAt ← readExpiry kind.1 key.2
  let value ← readValue kind.1 expiresAt.2
  pure (⟨seq, kind.1, key.1, value.1, expiresAt.1⟩, value.2)

def decodeEntries : Nat → Nat → Bytes → Except Err (List WalEntry × Bytes)
  | 0, _, rest => .ok ([], rest)
  | count + 1, seq, rest => do
      let e ← decodeEntry seq rest
      let es ← decodeEntries count (seq + 1) e.2
      pure (e.1 :: es.1, es.2)

/-- The entries of a record whose count has been read. -/
def decodeCounted (baseSeq count : Nat) (rest : Bytes) : Except Err (List WalEntry) :=
  if rest.length < count then .error (.walCountExceeds count)
  else if 0 < count ∧ 2 ^ 64 - 1 - (count - 1) < baseSeq then .error .walSequenceOverflow
  else do
    let es ← decodeEntries count baseSeq rest
    if es.2 = [] then pure es.1 else .error .walTrailingBytes

def decodeBatch (record : Bytes) : Except Err (List WalEntry) := do
  let (base, rest) ← cut 8 .walShortRecord record
  match Varint.get rest with
  | none => .error .walBadCount
  | some (count, rest) => decodeCounted (LittleEndian.get base) count rest

/-- A field an entry does not have is empty. -/
structure WalEntry.Canonical (e : WalEntry) : Prop where
  value : e.kind = .delete → e.value = []
  expiresAt : e.kind ≠ .putTTL → e.expiresAt = 0

/-- An entry a record can hold: slice lengths are machine integers, a deadline is
positive. -/
structure WalEntry.Encodable (e : WalEntry) : Prop extends e.Canonical where
  keyLen : e.key.length < 2 ^ 63
  valueLen : e.value.length < 2 ^ 63
  ttl : e.kind = .putTTL → 0 < e.expiresAt

theorem WalEntry.Canonical.encodable (hc : e.Canonical) (he : e.Valid) :
    e.Encodable := by
  have hsize := he.size
  unfold WalEntry.size maxEntrySize at hsize
  exact ⟨hc, by omega, by omega, he.ttl⟩

theorem readField_encode (field : String) {data : Bytes} (h : data.length < 2 ^ 64)
    (rest : Bytes) : readField field (encodeBytes data ++ rest) = .ok (data, rest) := by
  rw [readField, readBytes_encode h]
  rfl

theorem readExpiry_encode (he : e.Encodable) (rest : Bytes) :
    readExpiry e.kind
        ((if e.kind = .putTTL then Varint.putSigned e.expiresAt.toInt else []) ++ rest) =
      .ok (e.expiresAt, rest) := by
  unfold readExpiry
  by_cases hkind : e.kind = .putTTL
  · have hpos : 0 < e.expiresAt.toInt := by simpa [Int64.lt_iff_toInt_lt] using he.ttl hkind
    rw [if_pos hkind, if_pos hkind, Varint.getSigned_putSigned_append
      (Int64.le_toInt _) (Int64.toInt_lt _)]
    simp only [Int64.ofInt_toInt]
    rw [if_neg (by omega)]
  · rw [if_neg hkind, if_neg hkind, he.expiresAt hkind, nil_append]

theorem readValue_encode (hc : e.Canonical) (hlen : e.value.length < 2 ^ 64)
    (rest : Bytes) :
    readValue e.kind ((if e.kind = .delete then [] else encodeBytes e.value) ++ rest) =
      .ok (e.value, rest) := by
  unfold readValue
  by_cases hkind : e.kind = .delete
  · rw [if_pos hkind, if_pos hkind, hc.value hkind, nil_append]
  · rw [if_neg hkind, if_neg hkind, readField_encode _ hlen]

theorem decodeEntry_encode (he : e.Encodable) (rest : Bytes) :
    decodeEntry e.seq (encodeEntry e ++ rest) = .ok (e, rest) := by
  have hkey := he.keyLen
  have hvalue := he.valueLen
  unfold decodeEntry encodeEntry
  simp only [cons_append, append_assoc, readKind, WalKind.ofByte_byte, ok_bind]
  rw [readField_encode _ (by omega), ok_bind, readExpiry_encode he, ok_bind,
    readValue_encode he.toCanonical (by omega), ok_bind]
  rfl

structure Logged (b : List WalEntry) : Prop where
  ne : b ≠ []
  consecutive : ∃ base, assignSeqs base b = b
  valid : ∀ e ∈ b, e.Valid
  canonical : ∀ e ∈ b, e.Canonical
  total : (b.map WalEntry.size).sum ≤ maxEntrySize

theorem logged_singleton (he : e.Valid) (hc : e.Canonical) : Logged [e] where
  ne := by simp
  consecutive := ⟨e.seq, rfl⟩
  valid := by simpa using he
  canonical := by simpa using hc
  total := by simpa using he.size

/-- The record of a batch; its base is the sequence of its first entry. -/
def record (b : List WalEntry) : Bytes := encodeBatch ((b.head?.map (·.seq)).getD 0) b

theorem decodeEntries_encode (hseq : assignSeqs base b = b)
    (henc : ∀ e ∈ b, e.Encodable) (rest : Bytes) :
    decodeEntries b.length base (b.flatMap encodeEntry ++ rest) = .ok (b, rest) := by
  induction b generalizing base with
  | nil => rfl
  | cons e es ih =>
    obtain ⟨hfirst, hseqs⟩ := List.cons.inj hseq
    have hbase : e.seq = base := (congrArg WalEntry.seq hfirst).symm
    have hhead := decodeEntry_encode (henc e (by simp)) (es.flatMap encodeEntry ++ rest)
    have htail := ih hseqs fun x hx => henc x (by simp [hx])
    rw [hbase] at hhead
    rw [flatMap_cons, append_assoc, length_cons, decodeEntries, hhead,
      ok_bind, htail, ok_bind]
    rfl

theorem length_le_flatMap_encodeEntry (b : List WalEntry) :
    b.length ≤ (b.flatMap encodeEntry).length := by
  induction b with
  | nil => simp
  | cons e es ih =>
    rw [flatMap_cons, length_append, length_cons]
    have : 0 < (encodeEntry e).length := by simp [encodeEntry]
    omega

theorem WalEntry.Valid.size_pos (he : e.Valid) : 0 < e.size := by
  have := length_pos_iff.mpr he.key
  unfold WalEntry.size
  omega

theorem length_le_sum_size (hvalid : ∀ e ∈ b, e.Valid) :
    b.length ≤ (b.map WalEntry.size).sum := by
  induction b with
  | nil => simp
  | cons e es ih =>
    have hpos := (hvalid e (by simp)).size_pos
    have hle := ih fun x hx => hvalid x (by simp [hx])
    rw [map_cons, sum_cons, length_cons]
    omega

/-- A batch numbered from `base` on within 64 bits. -/
structure Numbered (base : Nat) (b : List WalEntry) : Prop where
  fits : base < 2 ^ 64
  seqs : assignSeqs base b = b
  room : base + b.length ≤ 2 ^ 64
  count : b.length < 2 ^ 63
  encodable : ∀ e ∈ b, e.Encodable

theorem Numbered.decodeBatch (h : Numbered base b) :
    decodeBatch (encodeBatch base b) = .ok b := by
  have hbase := h.fits
  have hroom := h.room
  have hcount := h.count
  have hlt : base < 256 ^ 8 := by
    have hpow : (256 : Nat) ^ 8 = 2 ^ 64 := by decide
    omega
  have hentries := decodeEntries_encode h.seqs h.encodable []
  rw [append_nil] at hentries
  have hcut := cut_append (LittleEndian.put 8 base)
    (Varint.put b.length ++ b.flatMap encodeEntry) .walShortRecord
  rw [LittleEndian.put_length] at hcut
  rw [LevisDB.decodeBatch, encodeBatch, hcut, ok_bind]
  dsimp only
  rw [Varint.get_put_append (by omega), LittleEndian.get_put_of_lt hlt]
  change decodeCounted base b.length (b.flatMap encodeEntry) = _
  unfold decodeCounted
  rw [if_neg (Nat.not_lt.2 (length_le_flatMap_encodeEntry _)), if_neg (by omega), hentries,
    ok_bind]
  rfl

theorem Logged.numbered (h : Logged b) :
    Numbered ((b.head?.map (·.seq)).getD 0) b := by
  obtain ⟨base, hseq⟩ := h.consecutive
  obtain ⟨e, es, rfl⟩ := exists_cons_of_ne_nil h.ne
  have hbase : e.seq = base := (congrArg WalEntry.seq (List.cons.inj hseq).1).symm
  have hmax := (h.valid e (by simp)).seqMax
  have hcount := Nat.le_trans (length_le_sum_size h.valid) h.total
  unfold maxIKeySeq at hmax
  unfold maxEntrySize at hcount
  change Numbered e.seq (e :: es)
  rw [hbase]
  exact ⟨by omega, hseq, by omega, by omega,
    fun x hx => (h.canonical x hx).encodable (h.valid x hx)⟩

theorem decodeBatch_record (h : Logged b) : decodeBatch (record b) = .ok b :=
  h.numbered.decodeBatch

theorem Numbered.eq_of_encodeBatch_eq {base' : Nat} {b' : List WalEntry}
    (h : Numbered base b) (h' : Numbered base' b') (heq : encodeBatch base b =
      encodeBatch base' b') :
    base = base' ∧ b = b' := by
  have hpow : (256 : Nat) ^ 8 = 2 ^ 64 := by decide
  constructor
  · have hget (n : Nat) (hn : n < 2 ^ 64) (es : List WalEntry) :
        LittleEndian.get ((encodeBatch n es).take 8) = n :=
      LittleEndian.get_take_put_append (by omega) _
    rw [← hget base h.fits b, heq, hget base' h'.fits b']
  · have hdecode := h.decodeBatch
    rw [heq, h'.decodeBatch] at hdecode
    exact (Except.ok.inj hdecode).symm

theorem readBytes_local : Reader.Local Err.Fault readBytes where
  uses bytes data rest h := by
    unfold readBytes at h
    cases hget : Varint.get bytes with
    | none =>
      rw [hget] at h
      cases h
    | some r =>
      rw [hget] at h
      obtain ⟨used, _, rfl, hused⟩ := Varint.get_local hget
      obtain ⟨used', hrest, hused'⟩ := (cut_local r.1 .walTruncatedData id).uses r.2 data rest h
      refine ⟨used ++ used', by rw [hrest, append_assoc], fun tail => ?_⟩
      rw [readBytes, append_assoc, hused]
      exact hused' tail
  safe bytes := by
    unfold readBytes
    split
    · exact id
    · exact (cut_local _ _ id).safe _

theorem readField_local (field : String) : Reader.Local Err.Fault (readField field) :=
  readBytes_local.mapError _ fun _ herr => herr

theorem readKind_local : Reader.Local Err.Fault readKind where
  uses bytes kind rest h := by
    cases bytes with
    | nil => cases h
    | cons byte bytes =>
      rw [readKind] at h
      cases hbyte : WalKind.ofByte byte with
      | none =>
        rw [hbyte] at h
        cases h
      | some k =>
        rw [hbyte] at h
        cases h
        refine ⟨[byte], rfl, fun tail => ?_⟩
        rw [singleton_append, readKind, hbyte]
  safe bytes := by
    unfold readKind
    split
    · exact id
    · split
      · exact id
      · trivial

theorem readExpiry_local (kind : WalKind) : Reader.Local Err.Fault (readExpiry kind) := by
  refine Reader.Local.ite (fun _ => ⟨fun bytes t rest h => ?_, fun bytes => ?_⟩)
    (fun _ => Reader.local_pure 0)
  · cases hget : Varint.get bytes with
    | none =>
      rw [Varint.getSigned, hget] at h
      cases h
    | some r =>
      rw [Varint.getSigned, hget] at h
      dsimp only [Option.map_some] at h
      split_ifs at h with hneg
      cases h
      obtain ⟨used, _, hbytes, hused⟩ := Varint.get_local hget
      refine ⟨used, hbytes, fun tail => ?_⟩
      rw [Varint.getSigned, hused tail]
      dsimp only [Option.map_some]
      rw [if_neg hneg]
  · split
    · exact id
    · split_ifs
      · exact id
      · trivial

theorem readValue_local (kind : WalKind) : Reader.Local Err.Fault (readValue kind) :=
  Reader.Local.ite (fun _ => Reader.local_pure []) fun _ => readField_local _

theorem decodeEntry_local (seq : Nat) : Reader.Local Err.Fault (decodeEntry seq) := by
  have hchain := readKind_local.bind fun kind => (readField_local "wal: key").bind fun key =>
    (readExpiry_local kind).bind fun expiresAt => (readValue_local kind).bind fun value =>
      Reader.local_pure (WalEntry.mk seq kind key value expiresAt)
  exact hchain

theorem decodeEntries_eq_ok {count seq : Nat} {bytes rest : Bytes} {es : List WalEntry}
    (h : decodeEntries count seq bytes = .ok (es, rest)) :
    es.length = count ∧ assignSeqs seq es = es ∧ ∃ parts : List Bytes,
      bytes = parts.flatten ++ rest ∧
        List.Forall₂ (fun part e => ∀ tail, decodeEntry e.seq (part ++ tail) = .ok (e, tail))
          parts es := by
  induction count generalizing seq bytes es with
  | zero =>
    cases h
    exact ⟨rfl, rfl, [], rfl, .nil⟩
  | succ count ih =>
    unfold decodeEntries at h
    obtain ⟨⟨e, more⟩, hentry, h⟩ := bind_eq_ok.1 h
    obtain ⟨⟨es', rest'⟩, hrest, h⟩ := bind_eq_ok.1 h
    cases h
    obtain ⟨hlen, hseqs, parts, rfl, hparts⟩ := ih hrest
    obtain ⟨used, hbytes, hused⟩ := (decodeEntry_local seq).uses bytes e _ hentry
    have hseq : e.seq = seq := by
      unfold decodeEntry at hentry
      obtain ⟨_, _, hentry⟩ := bind_eq_ok.1 hentry
      obtain ⟨_, _, hentry⟩ := bind_eq_ok.1 hentry
      obtain ⟨_, _, hentry⟩ := bind_eq_ok.1 hentry
      obtain ⟨_, _, hentry⟩ := bind_eq_ok.1 hentry
      rw [← (Prod.mk.inj (Except.ok.inj hentry)).1]
    refine ⟨by simp [hlen], ?_, used :: parts, ?_, .cons (fun tail => ?_) hparts⟩
    · rw [assignSeqs, hseqs, ← hseq]
    · rw [hbytes, flatten_cons, append_assoc]
    · rw [hseq, hused tail]

theorem decodeBatch_eq_ok {bytes : Bytes} {es : List WalEntry} (h : decodeBatch bytes = .ok es) :
    ∃ base count parts, bytes = base ++ (count ++ flatten parts) ∧ base.length = 8 ∧
      (∀ tail, Varint.get (count ++ tail) = some (es.length, tail)) ∧
      List.Forall₂ (fun part e => ∀ tail, decodeEntry e.seq (part ++ tail) = .ok (e, tail)) parts
      es ∧
      assignSeqs (LittleEndian.get base) es = es ∧
      (es ≠ [] → LittleEndian.get base + es.length ≤ 2 ^ 64) := by
  obtain ⟨⟨base, more⟩, hcut, h⟩ := bind_eq_ok.1 h
  rcases Nat.lt_or_ge bytes.length 8 with hshort | hlong
  · rw [cut_of_lt hshort] at hcut
    cases hcut
  rw [cut_of_le hlong] at hcut
  cases hcut
  dsimp only at h
  cases hcount : Varint.get (bytes.drop 8) with
  | none =>
    rw [hcount] at h
    cases h
  | some r =>
    rw [hcount] at h
    dsimp only at h
    unfold decodeCounted at h
    split_ifs at h with hexceeds hover
    obtain ⟨⟨es', rest⟩, hentries, h⟩ := bind_eq_ok.1 h
    dsimp only at h
    split_ifs at h with hdone
    obtain rfl := Except.ok.inj h
    obtain ⟨hlen, hseqs, parts, hparts, hfor⟩ := decodeEntries_eq_ok hentries
    obtain ⟨used, _, hdrop, hused⟩ := Varint.get_local hcount
    refine ⟨bytes.take 8, used, parts, ?_, ?_, ?_, hfor, hseqs, fun hne => ?_⟩
    · rw [hdone, append_nil] at hparts
      rw [← hparts, ← hdrop, take_append_drop]
    · rw [length_take]
      omega
    · rw [hlen]
      exact hused
    · have hpos : 0 < es'.length := length_pos_iff.2 hne
      have hwide := Varint.get_lt hcount
      omega

theorem decodeEntries_ends (count seq : Nat) (rest : Bytes) :
    Ends (fun _ => True) (decodeEntries count seq rest) := by
  induction count generalizing seq rest with
  | zero => trivial
  | succ count ih =>
    exact ((decodeEntry_local seq).safe rest).bind fun e _ =>
      (ih (seq + 1) e.2).bind fun _ _ => trivial

theorem decodeBatch_ends (bytes : Bytes) : Ends (fun _ => True) (decodeBatch bytes) := by
  refine ((cut_local 8 .walShortRecord id).safe bytes).bind fun r _ => ?_
  dsimp only
  split
  · exact id
  · unfold decodeCounted
    split_ifs
    · exact id
    · exact id
    · refine (decodeEntries_ends _ _ _).bind fun es _ => ?_
      split_ifs
      · trivial
      · exact id

/-- Records of batches read back, and no two batches share a record. No bytes make the
reader fault. Whatever bytes decode are used up by entries numbered in turn within 64
bits, and every field reads alike whatever follows it. -/
theorem batch_records_round_trip :
    (∀ base b, Numbered base b → decodeBatch (encodeBatch base b) = .ok b) ∧
    (∀ base b base' b', Numbered base b → Numbered base' b' →
      encodeBatch base b = encodeBatch base' b' → base = base' ∧ b = b') ∧
    (∀ bytes, Ends (fun _ => True) (decodeBatch bytes)) ∧
    (∀ bytes es, decodeBatch bytes = .ok es →
      ∃ base count parts, bytes = base ++ (count ++ flatten parts) ∧ base.length = 8 ∧
        (∀ tail, Varint.get (count ++ tail) = some (es.length, tail)) ∧
        List.Forall₂ (fun part e => ∀ tail, decodeEntry e.seq (part ++ tail) = .ok (e, tail))
          parts es ∧
        assignSeqs (LittleEndian.get base) es = es ∧
        (es ≠ [] → LittleEndian.get base + es.length ≤ 2 ^ 64)) :=
  ⟨fun _ _ h => h.decodeBatch, fun _ _ _ _ h h' => h.eq_of_encodeBatch_eq h', decodeBatch_ends,
    fun _ _ h => decodeBatch_eq_ok h⟩

/-- The largest sequence with an empty key and a deadline. -/
theorem batch_records_round_trip_last :
    decodeBatch (encodeBatch (2 ^ 64 - 1) [⟨2 ^ 64 - 1, .putTTL, [], [7], 5⟩]) =
      .ok [⟨2 ^ 64 - 1, .putTTL, [], [7], 5⟩] := by
  refine batch_records_round_trip.1 _ _ ⟨by decide, rfl, by decide, by decide, fun e he => ?_⟩
  obtain rfl := mem_singleton.1 he
  exact ⟨⟨by simp, by simp⟩, by decide, by decide, fun _ => by decide⟩

end LevisDB
