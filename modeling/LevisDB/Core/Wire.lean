import LevisDB.Core.Err
import LevisDB.Lib.LittleEndian
import LevisDB.Lib.Reader
import LevisDB.Lib.Varint

/-!
# Byte access

How the readers get at the bytes of a buffer: slices, integers of a fixed width, and
integers and byte strings that carry their own length. A slice that leaves the buffer
and an unsigned subtraction below zero are faults. A reader goes through a buffer by its
position; the lemmas say where it stands afterwards, on any buffer and on one that was
written.
-/

namespace LevisDB

open List LevisDB.Except Checked

variable {b pre : Bytes} {n v : Nat}

/-- What must not happen: a run-time panic, a wrapped subtraction, a block read outside
the data area, a loop that goes on forever. -/
def Err.Fault : Err → Prop
  | nilBlobPath | sliceBounds | divideByZero | offsetUnderflow | handleOutside | endless => True
  | wrapped _ cause => cause.Fault
  | _ => False

/-- The computation does not fault, and its value satisfies the postcondition. -/
abbrev Ends {α : Type} (post : α → Prop) (r : Except Err α) : Prop := Checked.Ends Err.Fault post r

theorem ends_wrapped {α : Type} {post : α → Prop} {r : Except Err α} (context : String)
    (h : Ends post r) : Ends post (r.mapError (.wrapped context)) :=
  h.mapError fun _ herr => herr

/-- `b[lo:hi]`. -/
def slice (b : Bytes) (lo hi : Nat) : Except Err Bytes :=
  if lo ≤ hi ∧ hi ≤ b.length then .ok ((b.take hi).drop lo) else .error .sliceBounds

/-- `b[i]`. -/
def byteAt (b : Bytes) (i : Nat) : Except Err UInt8 :=
  match b[i]? with
  | some x => .ok x
  | none => .error .sliceBounds

def subtract (a b : Nat) : Except Err Nat := if b ≤ a then .ok (a - b) else .error .offsetUnderflow

theorem slice_ends {lo hi : Nat} (hlo : lo ≤ hi) (hhi : hi ≤ b.length) :
    Ends (fun s => s.length = hi - lo) (slice b lo hi) := by
  rw [slice, if_pos ⟨hlo, hhi⟩]
  change ((b.take hi).drop lo).length = hi - lo
  rw [length_drop, length_take, Nat.min_eq_left hhi]

theorem slice_eq {mid post : Bytes} (h : b = pre ++ (mid ++ post)) :
    slice b pre.length (pre.length + mid.length) = .ok mid := by
  subst h
  rw [slice, if_pos (by simp)]
  congr 1
  rw [take_append, take_of_length_le (by omega), Nat.add_sub_cancel_left,
    take_left' rfl, drop_left' rfl]

theorem slice_front (b post : Bytes) : slice (b ++ post) 0 b.length = .ok b := by
  have h := slice_eq (show b ++ post = [] ++ (b ++ post) from rfl)
  rwa [length_nil, Nat.zero_add] at h

theorem slice_back (pre b : Bytes) : slice (pre ++ b) pre.length (pre ++ b).length = .ok b := by
  have h := slice_eq (show pre ++ b = pre ++ (b ++ []) by rw [append_nil])
  rwa [length_append]

theorem slice_slice {w : Bytes} {lo hi : Nat} (h : slice b lo hi = .ok w) {i j : Nat} (hij : i ≤ j)
    (hj : lo + j ≤ hi) : slice w i j = slice b (lo + i) (lo + j) := by
  unfold slice at h
  split_ifs at h with hin
  cases h
  have hlen : ((b.take hi).drop lo).length = hi - lo := by
    rw [length_drop, length_take, Nat.min_eq_left hin.2]
  rw [slice, if_pos ⟨hij, by omega⟩, slice, if_pos ⟨by omega, by omega⟩, take_drop,
    take_take, Nat.min_eq_left hj, drop_drop]

theorem byteAt_ends {i : Nat} (h : i < b.length) : Ends (fun _ => True) (byteAt b i) := by
  rw [byteAt, List.getElem?_eq_getElem h]
  trivial

theorem byteAt_append (pre post : Bytes) (x : UInt8) :
    byteAt (pre ++ x :: post) pre.length = .ok x := by
  simp [byteAt]

theorem subtract_of_le {a b : Nat} (h : b ≤ a) : subtract a b = .ok (a - b) := if_pos h

theorem subtract_ends {a b : Nat} (h : b ≤ a) : Ends (fun d => d = a - b) (subtract a b) := by
  rw [subtract_of_le h]
  rfl

/-- `binary.LittleEndian.Uint32`. -/
def leUint32 (b : Bytes) : Except Err Nat := do
  let w ← slice b 0 4
  pure (LittleEndian.get w)

/-- `binary.LittleEndian.Uint64`. -/
def leUint64 (b : Bytes) : Except Err Nat := do
  let w ← slice b 0 8
  pure (LittleEndian.get w)

theorem leUint32_ends (h : 4 ≤ b.length) : Ends (fun n => n < 2 ^ 32) (leUint32 b) := by
  refine (slice_ends (Nat.zero_le 4) h).bind fun w hw => ?_
  change LittleEndian.get w < 2 ^ 32
  exact lt_of_lt_of_eq (LittleEndian.get_lt w) (by rw [hw]; decide)

theorem leUint64_ends (h : 8 ≤ b.length) : Ends (fun _ => True) (leUint64 b) :=
  (slice_ends (Nat.zero_le 8) h).bind fun _ _ => trivial

theorem leUint32_put (h : n < 2 ^ 32) (post : Bytes) :
    leUint32 (LittleEndian.put 4 n ++ post) = .ok n := by
  have hslice := slice_front (LittleEndian.put 4 n) post
  rw [LittleEndian.put_length] at hslice
  rw [leUint32, hslice]
  exact congrArg Except.ok (LittleEndian.get_put_of_lt (lt_of_lt_of_eq h (by decide)))

theorem leUint64_put (h : n < 2 ^ 64) (post : Bytes) :
    leUint64 (LittleEndian.put 8 n ++ post) = .ok n := by
  have hslice := slice_front (LittleEndian.put 8 n) post
  rw [LittleEndian.put_length] at hslice
  rw [leUint64, hslice]
  exact congrArg Except.ok (LittleEndian.get_put_of_lt (lt_of_lt_of_eq h (by decide)))

/-- `binary.Uvarint`: the value and how many bytes it took, none when it is malformed. -/
def uvarint (b : Bytes) : Option (Nat × Nat) :=
  (Varint.get b).map fun r => (r.1, b.length - r.2.length)

/-- The integer at a position, and the position behind it. -/
def uvarintAt (b : Bytes) (pos : Nat) (err : Err) : Except Err (Nat × Nat) := do
  let tail ← slice b pos b.length
  match uvarint tail with
  | none => .error err
  | some (v, n) => pure (v, pos + n)

theorem uvarint_bounds (h : uvarint b = some (v, n)) :
    0 < n ∧ n ≤ b.length ∧ v < 2 ^ 64 := by
  obtain ⟨⟨v', rest⟩, hget, heq⟩ := Option.map_eq_some_iff.1 h
  obtain ⟨rfl, rfl⟩ := Prod.mk.inj heq
  obtain ⟨used, hne, hb, _⟩ := Varint.get_local hget
  have hpos : 0 < used.length := length_pos_iff.2 hne
  have hlen : b.length = used.length + rest.length := by rw [hb, length_append]
  dsimp only
  exact ⟨by omega, by omega, Varint.get_lt hget⟩

theorem uvarint_put (h : v < 2 ^ 64) (rest : Bytes) :
    uvarint (Varint.put v ++ rest) = some (v, (Varint.put v).length) := by
  rw [uvarint, Varint.get_put_append h, Option.map_some, length_append, Nat.add_sub_cancel]

theorem uvarintAt_ends {pos : Nat} {err : Err} (hpos : pos ≤ b.length)
    (herr : ¬ err.Fault) :
    Ends (fun r => pos < r.2 ∧ r.2 ≤ b.length ∧ r.1 < 2 ^ 64) (uvarintAt b pos err) := by
  refine (slice_ends hpos (Nat.le_refl _)).bind fun tail htail => ?_
  cases h : uvarint tail with
  | none => exact herr
  | some r =>
    obtain ⟨hn, hle, hv⟩ := uvarint_bounds h
    exact ⟨by omega, by omega, hv⟩

theorem uvarintAt_put (h : v < 2 ^ 64) {rest : Bytes} (err : Err)
    (hb : b = pre ++ (Varint.put v ++ rest)) :
    uvarintAt b pre.length err = .ok (v, pre.length + (Varint.put v).length) := by
  subst hb
  rw [uvarintAt, slice_back, ok_bind, uvarint_put h]
  rfl

/-- The next `n` bytes, and the position behind them. -/
def takeAt (b : Bytes) (pos n : Nat) (err : Err) : Except Err (Bytes × Nat) := do
  let left ← subtract b.length pos
  refuse (left < n) err
  let data ← slice b pos (pos + n)
  pure (data, pos + n)

theorem takeAt_ends {pos : Nat} {err : Err} (hpos : pos ≤ b.length)
    (herr : ¬ err.Fault) :
    Ends (fun r => r.2 = pos + n ∧ r.2 ≤ b.length ∧ r.1.length = n) (takeAt b pos n err) := by
  refine (subtract_ends hpos).bind fun left hleft => ?_
  refine (ends_refuse herr).bind fun _ hn => ?_
  refine (slice_ends (Nat.le_add_right pos n) (by omega)).bind fun data hdata => ?_
  change pos + n = pos + n ∧ pos + n ≤ b.length ∧ data.length = n
  exact ⟨rfl, by omega, by omega⟩

theorem takeAt_eq {data rest : Bytes} (err : Err) (hb : b = pre ++ (data ++ rest)) :
    takeAt b pre.length data.length err = .ok (data, pre.length + data.length) := by
  have hlen : b.length = pre.length + (data.length + rest.length) := by
    rw [hb, length_append, length_append]
  rw [takeAt, subtract_of_le (by omega), ok_bind, refuse_of_not (by omega),
    ok_bind, slice_eq hb]
  rfl

/-- `rest[:n]` and `rest[n:]`, once `rest` is known to be that long. -/
def cut (n : Nat) (err : Err) (rest : Bytes) : Except Err (Bytes × Bytes) := do
  refuse (rest.length < n) err
  let data ← slice rest 0 n
  let remaining ← slice rest n rest.length
  pure (data, remaining)

theorem cut_of_lt {rest : Bytes} (h : rest.length < n) (err : Err) : cut n err rest = .error err :=
    by
  rw [cut, refuse, if_pos h]
  rfl

theorem cut_of_le {rest : Bytes} (h : n ≤ rest.length) (err : Err) :
    cut n err rest = .ok (rest.take n, rest.drop n) := by
  rw [cut, refuse_of_not (Nat.not_lt.2 h), ok_bind, slice,
    if_pos ⟨Nat.zero_le n, h⟩, ok_bind, slice, if_pos ⟨h, Nat.le_refl _⟩, take_length]
  rfl

theorem cut_append (data rest : Bytes) (err : Err) :
    cut data.length err (data ++ rest) = .ok (data, rest) := by
  rw [cut_of_le (by simp), take_left, drop_left]

theorem cut_local (n : Nat) (err : Err) (herr : ¬ err.Fault) : Reader.Local Err.Fault
    (cut n err) where
  uses bytes data rest h := by
    rcases Nat.lt_or_ge bytes.length n with hlt | hle
    · rw [cut_of_lt hlt] at h
      cases h
    · rw [cut_of_le hle] at h
      cases h
      refine ⟨bytes.take n, (take_append_drop n bytes).symm, fun tail => ?_⟩
      have hcut := cut_append (bytes.take n) tail err
      rwa [length_take, Nat.min_eq_left hle] at hcut
  safe bytes := by
    rcases Nat.lt_or_ge bytes.length n with hlt | hle
    · rw [cut_of_lt hlt]
      exact herr
    · rw [cut_of_le hle]
      trivial

def encodeBytes (data : Bytes) : Bytes := Varint.put data.length ++ data

def readBytes (rest : Bytes) : Except Err (Bytes × Bytes) :=
  match Varint.get rest with
  | none => .error .walBadLength
  | some (length, rest) => cut length .walTruncatedData rest

theorem readBytes_encode {data : Bytes} (h : data.length < 2 ^ 64) (rest : Bytes) :
    readBytes (encodeBytes data ++ rest) = .ok (data, rest) := by
  rw [readBytes, encodeBytes, append_assoc, Varint.get_put_append h]
  exact cut_append data rest _

end LevisDB
