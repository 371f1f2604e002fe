import LevisDB.Core.Err
import LevisDB.Lib.LittleEndian
import LevisDB.Lib.Mvcc

/-!
# Internal keys and stored values

An internal key is a user key with a sequence and a value kind packed into one
trailer. Internal keys sort by user key ascending and then by trailer
descending, so the newest version of a user key comes first. The kind says how
the stored bytes are read: a plain value, a value behind an expiry prefix, or a
pointer into a blob file. Sequences are the 56-bit numbers for which packing
into the trailer is exact.
-/

namespace LevisDB

inductive IKeyKind where
  | delete
  | set
  | blobRef
  | setTTL
  deriving DecidableEq, Repr

namespace IKeyKind

def code : IKeyKind → Nat
  | delete => 0
  | set => 1
  | blobRef => 2
  | setTTL => 3

theorem code_lt (kind : IKeyKind) : kind.code < 256 := by
  cases kind <;> decide

theorem code_injective {a b : IKeyKind} (h : a.code = b.code) : a = b := by
  cases a <;> cases b <;> first | rfl | cases h

end IKeyKind

def maxPersistedKind : IKeyKind := .setTTL

/-- The largest sequence the 56 high bits of a trailer represent. -/
def maxIKeySeq : Nat := 2 ^ 56 - 1

structure IKey where
  user : Key
  seq : Nat
  kind : IKeyKind
  deriving DecidableEq

namespace IKey

/-- The packed trailer, `(seq << 8) | kind`. -/
def trailer (k : IKey) : Nat := k.seq * 256 + k.kind.code

theorem trailer_lt_iff {a b : IKey} :
    a.trailer < b.trailer ↔ a.seq < b.seq ∨ (a.seq = b.seq ∧ a.kind.code < b.kind.code) := by
  have ha := a.kind.code_lt
  have hb := b.kind.code_lt
  unfold trailer
  omega

theorem trailer_injective {a b : IKey} (h : a.trailer = b.trailer) :
    a.seq = b.seq ∧ a.kind = b.kind := by
  have ha := a.kind.code_lt
  have hb := b.kind.code_lt
  unfold trailer at h
  exact ⟨by omega, IKeyKind.code_injective (by omega)⟩

instance : LE IKey := ⟨fun a b => a.user < b.user ∨ (a.user = b.user ∧ b.trailer ≤ a.trailer)⟩

instance : LT IKey := ⟨fun a b => a.user < b.user ∨ (a.user = b.user ∧ b.trailer < a.trailer)⟩

theorem le_def {a b : IKey} :
    a ≤ b ↔ a.user < b.user ∨ (a.user = b.user ∧ b.trailer ≤ a.trailer) := Iff.rfl

theorem lt_def {a b : IKey} :
    a < b ↔ a.user < b.user ∨ (a.user = b.user ∧ b.trailer < a.trailer) := Iff.rfl

instance : LinearOrder IKey where
  le_refl a := Or.inr ⟨rfl, Nat.le_refl _⟩
  le_trans a b c := by
    rintro (hab | ⟨hab, htab⟩) (hbc | ⟨hbc, htbc⟩)
    · exact Or.inl (lt_trans hab hbc)
    · exact Or.inl (hbc ▸ hab)
    · exact Or.inl (hab ▸ hbc)
    · exact Or.inr ⟨hab.trans hbc, Nat.le_trans htbc htab⟩
  le_antisymm a b := by
    rintro (hab | ⟨hab, htab⟩) (hba | ⟨hba, htba⟩)
    · exact absurd hba (lt_asymm hab)
    · exact absurd hba.symm (ne_of_lt hab)
    · exact absurd hab.symm (ne_of_lt hba)
    · obtain ⟨hseq, hkind⟩ := trailer_injective (Nat.le_antisymm htba htab)
      cases a; cases b
      simp_all
  le_total a b := by
    rcases lt_trichotomy a.user b.user with h | h | h
    · exact Or.inl (Or.inl h)
    · rcases Nat.le_total a.trailer b.trailer with ht | ht
      · exact Or.inr (Or.inr ⟨h.symm, ht⟩)
      · exact Or.inl (Or.inr ⟨h, ht⟩)
    · exact Or.inr (Or.inl h)
  lt_iff_le_not_ge a b := by
    rw [lt_def, le_def, le_def]
    constructor
    · rintro (h | ⟨h, ht⟩)
      · exact ⟨Or.inl h, by rintro (h' | ⟨h', _⟩)
                            · exact lt_asymm h h'
                            · exact ne_of_lt h h'.symm⟩
      · exact ⟨Or.inr ⟨h, Nat.le_of_lt ht⟩, by rintro (h' | ⟨_, ht'⟩)
                                               · exact ne_of_lt h' h.symm
                                               · omega⟩
    · rintro ⟨h | ⟨h, ht⟩, hn⟩
      · exact Or.inl h
      · refine Or.inr ⟨h, ?_⟩
        by_contra hlt
        exact hn (Or.inr ⟨h.symm, by omega⟩)
  toDecidableLE a b := inferInstanceAs (Decidable (_ ∨ _))
  toDecidableLT a b := inferInstanceAs (Decidable (_ ∨ _))
  toDecidableEq := inferInstance

end IKey

def ikeyCompare (a b : IKey) : Ordering :=
  if a.user < b.user then .lt
  else if b.user < a.user then .gt
  else if b.trailer < a.trailer then .lt
  else if a.trailer < b.trailer then .gt
  else .eq

/-- The key a point lookup seeks: the user key at `seq` with the largest kind. -/
def ikeyLookupKey (user : Key) (seq : Nat) : IKey := ⟨user, seq, maxPersistedKind⟩

theorem ikeyCompare_eq_lt_iff {a b : IKey} : ikeyCompare a b = .lt ↔ a < b := by
  rw [IKey.lt_def]
  unfold ikeyCompare
  rcases lt_trichotomy a.user b.user with h | h | h
  · simp [h]
  · by_cases ht : b.trailer < a.trailer
    · simp [h, ht]
    · by_cases ht' : a.trailer < b.trailer <;> simp [h, ht, ht']
  · have hn : ¬ a.user < b.user := lt_asymm h
    simp [hn, h, (ne_of_lt h).symm]

theorem ikeyLookupKey_le_iff {user : Key} {seq : Nat} {k : IKey} :
    ikeyLookupKey user seq ≤ k ↔ user < k.user ∨ (user = k.user ∧ k.seq ≤ seq) := by
  have hk : k.kind.code ≤ 3 := by cases k.kind <;> decide
  have htrailer : k.trailer ≤ (ikeyLookupKey user seq).trailer ↔ k.seq ≤ seq := by
    have : (ikeyLookupKey user seq).trailer = seq * 256 + 3 := rfl
    rw [this]
    unfold IKey.trailer
    omega
  rw [IKey.le_def, htrailer]
  rfl

def expiryPrefixLen : Nat := 8

def encodeExpiringValue (value : Bytes) (expiresAt : Time) : Bytes :=
  LittleEndian.put expiryPrefixLen expiresAt.toUInt64.toNat ++ value

def decodeExpiringValue (stored : Bytes) : Except Err (Bytes × Time) :=
  if stored.length < expiryPrefixLen then .error .ttlTruncated
  else
    let expiresAt := (UInt64.ofNat (LittleEndian.get (stored.take expiryPrefixLen))).toInt64
    if expiresAt ≤ 0 then .error (.ttlInvalid expiresAt)
    else .ok (stored.drop expiryPrefixLen, expiresAt)

theorem decodeExpiringValue_encode_eq (value : Bytes) (expiresAt : Time) :
    decodeExpiringValue (encodeExpiringValue value expiresAt) =
      if expiresAt ≤ 0 then .error (.ttlInvalid expiresAt) else .ok (value, expiresAt) := by
  have hbound : expiresAt.toUInt64.toNat < 256 ^ expiryPrefixLen :=
    lt_of_lt_of_eq (UInt64.toNat_lt _) (by decide)
  have hlen : ¬ (encodeExpiringValue value expiresAt).length < expiryPrefixLen := by
    simp [encodeExpiringValue]
  have hget : LittleEndian.get ((encodeExpiringValue value expiresAt).take expiryPrefixLen) =
      expiresAt.toUInt64.toNat := LittleEndian.get_take_put_append hbound value
  have hdrop : (encodeExpiringValue value expiresAt).drop expiryPrefixLen = value :=
    LittleEndian.drop_put_append _ _ value
  unfold decodeExpiringValue
  simp [hlen, hget, hdrop]

theorem decodeExpiringValue_encode {value : Bytes} {expiresAt : Time} (h : 0 < expiresAt) :
    decodeExpiringValue (encodeExpiringValue value expiresAt) = .ok (value, expiresAt) := by
  rw [decodeExpiringValue_encode_eq, if_neg (not_le_of_gt h)]

theorem decodeExpiringValue_length {stored value : Bytes} {expiresAt : Time}
    (h : decodeExpiringValue stored = .ok (value, expiresAt)) : value.length ≤ stored.length := by
  unfold decodeExpiringValue at h
  split at h
  · cases h
  · dsimp only at h
    split at h
    · cases h
    · obtain ⟨rfl, _⟩ := Prod.mk.inj (Except.ok.inj h)
      rw [List.length_drop]
      omega

theorem decodeExpiringValue_pos {stored value : Bytes} {expiresAt : Time}
    (h : decodeExpiringValue stored = .ok (value, expiresAt)) : 0 < expiresAt := by
  unfold decodeExpiringValue at h
  split at h
  · cases h
  · dsimp only at h
    split at h
    · cases h
    · next hpos =>
        simp only [Except.ok.injEq, Prod.mk.injEq] at h
        rw [← h.2]
        exact lt_of_not_ge hpos

structure BlobPointer where
  num : UInt32
  offset : UInt64
  length : UInt32
  expiresAt : Time
  deriving DecidableEq

def blobPointerLen : Nat := 4 + 8 + 4 + 8

def encodeBlobPointer (p : BlobPointer) : Bytes :=
  LittleEndian.put 4 p.num.toNat ++ (LittleEndian.put 8 p.offset.toNat ++
    (LittleEndian.put 4 p.length.toNat ++ LittleEndian.put 8 p.expiresAt.toUInt64.toNat))

def decodeBlobPointer (v : Bytes) : Except Err BlobPointer :=
  if v.length ≠ blobPointerLen then .error (.blobPointerLength v.length)
  else
    .ok {
      num := UInt32.ofNat (LittleEndian.get (v.take 4))
      offset := UInt64.ofNat (LittleEndian.get ((v.drop 4).take 8))
      length := UInt32.ofNat (LittleEndian.get (((v.drop 4).drop 8).take 4))
      expiresAt := (UInt64.ofNat (LittleEndian.get (((v.drop 4).drop 8).drop 4))).toInt64 }

theorem decodeBlobPointer_encode (p : BlobPointer) :
    decodeBlobPointer (encodeBlobPointer p) = .ok p := by
  have hnum : p.num.toNat < 256 ^ 4 := lt_of_lt_of_eq (UInt32.toNat_lt _) (by decide)
  have hoff : p.offset.toNat < 256 ^ 8 := lt_of_lt_of_eq (UInt64.toNat_lt _) (by decide)
  have hlen : p.length.toNat < 256 ^ 4 := lt_of_lt_of_eq (UInt32.toNat_lt _) (by decide)
  have hexp : p.expiresAt.toUInt64.toNat < 256 ^ 8 :=
    lt_of_lt_of_eq (UInt64.toNat_lt _) (by decide)
  have hsize : (encodeBlobPointer p).length = blobPointerLen := by
    simp [encodeBlobPointer, blobPointerLen]
  unfold decodeBlobPointer
  rw [if_neg (by simp [hsize])]
  simp only [encodeBlobPointer, LittleEndian.get_take_put_append hnum,
    LittleEndian.drop_put_append, LittleEndian.get_take_put_append hoff,
    LittleEndian.get_take_put_append hlen, LittleEndian.get_put_of_lt hexp]
  simp

/-- One stored record: an internal key and its value bytes. -/
structure Entry extends IKey where
  value : Bytes
  deriving DecidableEq

/-- The stored form of one mutation of a key. -/
structure Payload where
  kind : IKeyKind
  value : Bytes
  deriving DecidableEq

def Entry.payload (e : Entry) : Payload := ⟨e.kind, e.value⟩

def Entry.version (e : Entry) : Mvcc.Version Key Payload := ⟨e.user, e.seq, e.payload⟩

@[simp] theorem Entry.version_key (e : Entry) : e.version.key = e.user := rfl

@[simp] theorem Entry.version_seq (e : Entry) : e.version.seq = e.seq := rfl

@[simp] theorem Entry.version_payload (e : Entry) : e.version.payload = e.payload := rfl

inductive Content where
  | inline (value : Bytes)
  | blob (ptr : BlobPointer)
  deriving DecidableEq

/-- A live value: its content and its deadline, zero when it never expires. -/
structure Live where
  content : Content
  expiresAt : Time
  deriving DecidableEq

/-- What a stored form means at time `now`: nothing for a tombstone or a value
past its deadline, the value and its deadline otherwise. -/
def Payload.liveAt (p : Payload) (now : Time) : Option Live :=
  match p.kind with
  | .delete => none
  | .set => some ⟨.inline p.value, 0⟩
  | .setTTL =>
    match decodeExpiringValue p.value with
    | .ok (value, expiresAt) => if expiresAt ≤ now then none else some ⟨.inline value, expiresAt⟩
    | .error _ => none
  | .blobRef =>
    match decodeBlobPointer p.value with
    | .ok ptr =>
      if ptr.expiresAt ≠ 0 ∧ ptr.expiresAt ≤ now then none else some ⟨.blob ptr, ptr.expiresAt⟩
    | .error _ => none

theorem Payload.liveAt_ages {p : Payload} {now : Time} {live : Live}
    (h : p.liveAt now = some live) (t : Time) :
    p.liveAt t = if live.expiresAt ≠ 0 ∧ live.expiresAt ≤ t then none else some live := by
  unfold Payload.liveAt at h ⊢
  cases hk : p.kind with
  | delete => simp [hk] at h
  | set =>
    simp only [hk, Option.some.injEq] at h
    subst h
    simp
  | setTTL =>
    simp only [hk] at h ⊢
    split at h
    · next value expiresAt hdec =>
        have hpos := decodeExpiringValue_pos hdec
        split_ifs at h with hle
        cases h
        simp [ne_of_gt hpos]
    · cases h
  | blobRef =>
    simp only [hk] at h ⊢
    split at h
    · next ptr hdec =>
        split_ifs at h with hle
        cases h
        simp
    · cases h

/-- The stored bytes decode under their kind, to a deadline a writer could have set. -/
def Payload.Decodes (p : Payload) : Prop :=
  match p.kind with
  | .setTTL => ∃ r, decodeExpiringValue p.value = .ok r
  | .blobRef => ∃ ptr, decodeBlobPointer p.value = .ok ptr ∧ 0 ≤ ptr.expiresAt
  | _ => True

end LevisDB
