import LevisDB.Core.Entry

/-!
# Internal keys as bytes

Memtables and tables hold an internal key as the user key followed by its eight-byte
trailer. Slicing the trailer off a shorter key panics, which is `none` here. On the
keys the engine encodes, comparing the bytes is comparing the keys.
-/

namespace LevisDB

open Option

def trailerLen : Nat := 8

def ikeyEncode (k : IKey) : Bytes := k.user ++ LittleEndian.put trailerLen k.trailer

def ikeyUserKey (ik : Bytes) : Option Bytes :=
  if trailerLen ≤ ik.length then some (ik.take (ik.length - trailerLen)) else none

def ikeyTrailer (ik : Bytes) : Option Nat :=
  if trailerLen ≤ ik.length then some (LittleEndian.get (ik.drop (ik.length - trailerLen)))
  else none

def validIKeyKind (kind : Nat) : Option IKeyKind :=
  match kind with
  | 0 => some .delete
  | 1 => some .set
  | 2 => some .blobRef
  | 3 => some .setTTL
  | _ => none

def ikeySeqKind (ik : Bytes) : Option (Nat × Nat) :=
  (ikeyTrailer ik).map fun t => (t / 256, t % 256)

/-- The order on the parts of an internal key. -/
def compareParts (ua : Bytes) (ta : Nat) (ub : Bytes) (tb : Nat) : Ordering :=
  if ua < ub then .lt
  else if ub < ua then .gt
  else if tb < ta then .lt
  else if ta < tb then .gt
  else .eq

def ikeyCompareBytes (a b : Bytes) : Option Ordering := do
  let ua ← ikeyUserKey a
  let ub ← ikeyUserKey b
  let ta ← ikeyTrailer a
  let tb ← ikeyTrailer b
  pure (compareParts ua ta ub tb)

def WholeKey (ik : Bytes) : Prop := trailerLen ≤ ik.length

instance (ik : Bytes) : Decidable (WholeKey ik) := inferInstanceAs (Decidable (_ ≤ _))

def userPart (ik : Bytes) : Bytes := ik.take (ik.length - trailerLen)

def trailerPart (ik : Bytes) : Nat := LittleEndian.get (ik.drop (ik.length - trailerLen))

/-- The order `ikeyCompareBytes` decides on whole keys. -/
def IKeyBytesLe (a b : Bytes) : Prop :=
  userPart a < userPart b ∨ (userPart a = userPart b ∧ trailerPart b ≤ trailerPart a)

instance : DecidableRel IKeyBytesLe := fun _ _ => inferInstanceAs (Decidable (_ ∨ _))

instance : Std.Refl IKeyBytesLe := ⟨fun _ => .inr ⟨rfl, Nat.le_refl _⟩⟩

instance : IsTrans Bytes IKeyBytesLe := ⟨by
  rintro a b c (hab | ⟨hab, htab⟩) (hbc | ⟨hbc, htbc⟩)
  · exact .inl (lt_trans hab hbc)
  · exact .inl (hbc ▸ hab)
  · exact .inl (hab ▸ hbc)
  · exact .inr ⟨hab.trans hbc, Nat.le_trans htbc htab⟩⟩

theorem ikeyCompareBytes_whole {a b : Bytes} (ha : WholeKey a) (hb : WholeKey b) :
    ikeyCompareBytes a b =
      some (compareParts (userPart a) (trailerPart a) (userPart b) (trailerPart b)) := by
  unfold WholeKey at ha hb
  simp [ikeyCompareBytes, ikeyUserKey, ikeyTrailer, ha, hb, userPart, trailerPart]

theorem compareParts_lt_iff {a b : Bytes} :
    compareParts (userPart a) (trailerPart a) (userPart b) (trailerPart b) = .lt ↔
      ¬ IKeyBytesLe b a := by
  unfold compareParts IKeyBytesLe
  rcases lt_trichotomy (userPart a) (userPart b) with hlt | heq | hgt
  · simp [hlt, lt_asymm hlt, ne_of_gt hlt]
  · rw [heq, if_neg (lt_irrefl _), if_neg (lt_irrefl _)]
    simp only [lt_irrefl, true_and, false_or, not_le]
    split_ifs <;> simp_all
  · simp [hgt, lt_asymm hgt]

theorem IKeyBytesLe.of_not {a b : Bytes} (h : ¬ IKeyBytesLe b a) : IKeyBytesLe a b := by
  rcases lt_trichotomy (userPart a) (userPart b) with hlt | heq | hgt
  · exact .inl hlt
  · refine .inr ⟨heq, ?_⟩
    by_contra htrailer
    exact h (.inr ⟨heq.symm, by omega⟩)
  · exact absurd (.inl hgt) h

theorem ikeyCompareBytes_lt_iff {a b : Bytes} (ha : WholeKey a) (hb : WholeKey b) :
    ikeyCompareBytes a b = some .lt ↔ ¬ IKeyBytesLe b a := by
  rw [ikeyCompareBytes_whole ha hb, some_inj, compareParts_lt_iff]

theorem ikeyCompareBytes_lt_trans {a b c : Bytes} (ha : WholeKey a) (hb : WholeKey b)
    (hc : WholeKey c) (hab : ikeyCompareBytes a b = some .lt)
    (hbc : ikeyCompareBytes b c = some .lt) : ikeyCompareBytes a c = some .lt := by
  rw [ikeyCompareBytes_lt_iff ha hb] at hab
  rw [ikeyCompareBytes_lt_iff hb hc] at hbc
  rw [ikeyCompareBytes_lt_iff ha hc]
  exact fun hca => hbc (Trans.trans hca (IKeyBytesLe.of_not hab))

def Entry.bytes (e : Entry) : Bytes × Bytes := (ikeyEncode e.toIKey, e.value)

@[simp] theorem ikeyEncode_length (k : IKey) : (ikeyEncode k).length = k.user.length + trailerLen :=
    by
  simp [ikeyEncode]

@[simp] theorem ikeyUserKey_encode (k : IKey) : ikeyUserKey (ikeyEncode k) = some k.user := by
  unfold ikeyUserKey
  rw [if_pos (by simp)]
  simp [ikeyEncode]

theorem IKey.trailer_lt {k : IKey} (h : k.seq ≤ maxIKeySeq) : k.trailer < 256 ^ trailerLen := by
  have hcode := k.kind.code_lt
  unfold trailer trailerLen
  unfold maxIKeySeq at h
  omega

theorem ikeyTrailer_encode {k : IKey} (h : k.seq ≤ maxIKeySeq) :
    ikeyTrailer (ikeyEncode k) = some k.trailer := by
  unfold ikeyTrailer
  rw [if_pos (by simp)]
  simp [ikeyEncode, LittleEndian.get_put_of_lt (IKey.trailer_lt h)]

theorem userPart_encode (k : IKey) : userPart (ikeyEncode k) = k.user := by
  simp [userPart, ikeyEncode]

theorem trailerPart_encode {k : IKey} (h : k.seq ≤ maxIKeySeq) :
    trailerPart (ikeyEncode k) = k.trailer := by
  simp [trailerPart, ikeyEncode, LittleEndian.get_put_of_lt (IKey.trailer_lt h)]

theorem wholeKey_encode (k : IKey) : WholeKey (ikeyEncode k) := by simp [WholeKey]

theorem iKeyBytesLe_encode {a b : IKey} (ha : a.seq ≤ maxIKeySeq) (hb : b.seq ≤ maxIKeySeq) :
    IKeyBytesLe (ikeyEncode a) (ikeyEncode b) ↔ a ≤ b := by
  rw [IKeyBytesLe, userPart_encode, userPart_encode, trailerPart_encode ha, trailerPart_encode hb]
  rfl

theorem ikeySeqKind_encode {k : IKey} (h : k.seq ≤ maxIKeySeq) :
    ikeySeqKind (ikeyEncode k) = some (k.seq, k.kind.code) := by
  have hcode := k.kind.code_lt
  rw [ikeySeqKind, ikeyTrailer_encode h]
  simp only [map_some, Option.some.injEq, Prod.mk.injEq, IKey.trailer]
  omega

theorem ikeyCompareBytes_encode {a b : IKey} (ha : a.seq ≤ maxIKeySeq) (hb : b.seq ≤ maxIKeySeq) :
    ikeyCompareBytes (ikeyEncode a) (ikeyEncode b) = some (ikeyCompare a b) := by
  simp only [ikeyCompareBytes, ikeyUserKey_encode, ikeyTrailer_encode ha, ikeyTrailer_encode hb]
  rfl

theorem IKey.trailer_eq_shift {k : IKey} (h : k.seq ≤ maxIKeySeq) :
    ((UInt64.ofNat k.seq <<< 8) ||| UInt64.ofNat k.kind.code).toNat = k.trailer := by
  have hcode := k.kind.code_lt
  unfold maxIKeySeq at h
  have hseq : (UInt64.ofNat k.seq).toNat = k.seq :=
    UInt64.toNat_ofNat_of_lt' (by change _ < 2 ^ 64; omega)
  have hkind : (UInt64.ofNat k.kind.code).toNat = k.kind.code :=
    UInt64.toNat_ofNat_of_lt' (by change _ < 2 ^ 64; omega)
  have hshift : k.seq <<< 8 % 2 ^ 64 = k.seq <<< 8 := by
    rw [Nat.shiftLeft_eq]
    exact Nat.mod_eq_of_lt (by omega)
  rw [UInt64.toNat_or, UInt64.toNat_shiftLeft, hseq, hkind]
  change k.seq <<< 8 % 2 ^ 64 ||| k.kind.code = _
  rw [hshift, ← Nat.shiftLeft_add_eq_or_of_lt (by omega : k.kind.code < 2 ^ 8), Nat.shiftLeft_eq]
  rfl

/-- User key ascending, then sequence descending, then kind descending. -/
def IKey.Before (a b : IKey) : Prop :=
  a.user < b.user ∨ (a.user = b.user ∧
    (b.seq < a.seq ∨ (b.seq = a.seq ∧ b.kind.code < a.kind.code)))

theorem IKey.before_iff {a b : IKey} : a.Before b ↔ a < b := by
  rw [IKey.lt_def, IKey.trailer_lt_iff]
  rfl

theorem ikeyCompare_eq_gt_iff {a b : IKey} : ikeyCompare a b = .gt ↔ b < a := by
  rw [IKey.lt_def]
  unfold ikeyCompare
  rcases lt_trichotomy a.user b.user with h | h | h
  · simp [h, lt_asymm h, (ne_of_lt h).symm]
  · by_cases ht : b.trailer < a.trailer
    · simp [h, ht, Nat.le_of_lt ht]
    · by_cases ht' : a.trailer < b.trailer <;> simp [h, ht, ht']
  · simp [h, lt_asymm h]

theorem ikeyCompare_eq_eq_iff {a b : IKey} : ikeyCompare a b = .eq ↔ a = b := by
  rcases lt_trichotomy a b with h | h | h
  · rw [ikeyCompare_eq_lt_iff.2 h]
    exact ⟨(fun heq => by cases heq), fun heq => absurd heq (ne_of_lt h)⟩
  · subst h
    cases hc : ikeyCompare a a with
    | lt => exact absurd (ikeyCompare_eq_lt_iff.1 hc) (lt_irrefl a)
    | eq => exact ⟨fun _ => rfl, fun _ => rfl⟩
    | gt => exact absurd (ikeyCompare_eq_gt_iff.1 hc) (lt_irrefl a)
  · rw [ikeyCompare_eq_gt_iff.2 h]
    exact ⟨(fun heq => by cases heq), fun heq => absurd heq.symm (ne_of_lt h)⟩

theorem ikeyEncode_injective {a b : IKey} (ha : a.seq ≤ maxIKeySeq) (hb : b.seq ≤ maxIKeySeq)
    (h : ikeyEncode a = ikeyEncode b) : a = b := by
  have hself := ikeyCompareBytes_encode ha hb
  rw [h, ikeyCompareBytes_encode hb hb, some_inj] at hself
  exact ikeyCompare_eq_eq_iff.1 (hself.symm.trans (ikeyCompare_eq_eq_iff.2 rfl))

/-- The byte comparison decides the order of the triples, which is total; encoding is
exact; and the lookup key separates the visible versions of its user key from the newer ones. -/
theorem internalKey_order :
    (∀ a b : IKey, a.seq ≤ maxIKeySeq → b.seq ≤ maxIKeySeq →
      (ikeyCompareBytes (ikeyEncode a) (ikeyEncode b) = some .lt ↔ a.Before b) ∧
        (ikeyCompareBytes (ikeyEncode a) (ikeyEncode b) = some .gt ↔ b.Before a) ∧
        (ikeyCompareBytes (ikeyEncode a) (ikeyEncode b) = some .eq ↔ a = b) ∧
        (ikeyEncode a = ikeyEncode b → a = b)) ∧
      (∀ a b c : IKey, ¬ a.Before a ∧ (a.Before b → b.Before c → a.Before c) ∧
        (a.Before b ∨ a = b ∨ b.Before a)) ∧
      (∀ a : IKey, a.seq ≤ maxIKeySeq →
        ikeyEncode a = a.user ++ LittleEndian.put trailerLen
          ((UInt64.ofNat a.seq <<< 8) ||| UInt64.ofNat a.kind.code).toNat ∧
        ikeyUserKey (ikeyEncode a) = some a.user ∧
        ikeySeqKind (ikeyEncode a) = some (a.seq, a.kind.code)) ∧
      ∀ (seq : Nat) (k : IKey), seq ≤ maxIKeySeq → k.seq ≤ maxIKeySeq →
        ((∃ o, ikeyCompareBytes (ikeyEncode (ikeyLookupKey k.user seq)) (ikeyEncode k) = some o ∧
          o ≠ .gt) ↔ k.seq ≤ seq) ∧
        (ikeyCompareBytes (ikeyEncode (ikeyLookupKey k.user seq)) (ikeyEncode k) = some .gt ↔
          seq < k.seq) := by
  refine ⟨?_, ?_, ?_, ?_⟩
  · intro a b ha hb
    rw [ikeyCompareBytes_encode ha hb, some_inj, some_inj, some_inj,
      IKey.before_iff, IKey.before_iff]
    exact ⟨ikeyCompare_eq_lt_iff, ikeyCompare_eq_gt_iff, ikeyCompare_eq_eq_iff,
      ikeyEncode_injective ha hb⟩
  · intro a b c
    simp only [IKey.before_iff]
    exact ⟨lt_irrefl a, lt_trans, lt_trichotomy a b⟩
  · intro a ha
    exact ⟨by rw [ikeyEncode, IKey.trailer_eq_shift ha], ikeyUserKey_encode a,
      ikeySeqKind_encode ha⟩
  · intro seq k hseq hk
    have hle : ikeyLookupKey k.user seq ≤ k ↔ k.seq ≤ seq := by
      rw [ikeyLookupKey_le_iff]
      simp
    have hgt : ikeyCompareBytes (ikeyEncode (ikeyLookupKey k.user seq)) (ikeyEncode k) = some .gt ↔
        ¬ k.seq ≤ seq := by
      rw [ikeyCompareBytes_encode hseq hk, some_inj, ikeyCompare_eq_gt_iff, ← not_le, hle]
    refine ⟨?_, hgt.trans Nat.not_le⟩
    rw [← not_iff_not, ← hgt, ikeyCompareBytes_encode hseq hk]
    simp

theorem internalKey_order_prefix :
    ikeyCompareBytes (ikeyEncode ⟨[97], 7, .set⟩) (ikeyEncode ⟨[97, 0], 9, .delete⟩) = some .lt ∧
      ikeyCompareBytes (ikeyEncode (ikeyLookupKey [97] 6)) (ikeyEncode ⟨[97], 7, .set⟩) =
      some .gt :=
  ⟨(internalKey_order.1 ⟨[97], 7, .set⟩ ⟨[97, 0], 9, .delete⟩ (by decide) (by decide)).1.2
      (.inl (by decide)),
    (internalKey_order.2.2.2 6 ⟨[97], 7, .set⟩ (by decide) (by decide)).2.2 (by decide)⟩

end LevisDB
