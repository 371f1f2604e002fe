import LevisDB.Lib.LittleEndian

/-!
# Byte memories

A memory is a byte string addressed by position. Reads and writes are checked
against its length, as slice expressions are. A write keeps the length, so a region
it does not meet reads as before.
-/

namespace ByteMemory

open List

def read (mem : List UInt8) (off width : Nat) : Option (List UInt8) :=
  if off + width ≤ mem.length then some ((mem.drop off).take width) else none

def write (mem : List UInt8) (off : Nat) (bytes : List UInt8) : Option (List UInt8) :=
  if off + bytes.length ≤ mem.length then
    some (mem.take off ++ (bytes ++ mem.drop (off + bytes.length)))
  else none

def copy (mem : List UInt8) (off : Nat) (bytes : List UInt8) : Option (List UInt8) :=
  write mem off (bytes.take (mem.length - off))

section

variable {mem mem' bytes b : List UInt8} {off width : Nat}

theorem read_eq_some : read mem off width = some b ↔
    off + width ≤ mem.length ∧ b.length = width ∧ ∀ i < width, b[i]? = mem[off + i]? := by
  unfold read
  split_ifs with h
  · rw [Option.some.injEq]
    constructor
    · rintro rfl
      refine ⟨h, by simp; omega, fun i hi => ?_⟩
      rw [List.getElem?_take_of_lt hi, List.getElem?_drop]
    · rintro ⟨-, hlen, hb⟩
      apply ext_getElem?
      intro i
      by_cases hi : i < width
      · rw [List.getElem?_take_of_lt hi, List.getElem?_drop, hb i hi]
      · rw [List.getElem?_eq_none (by simp; omega), List.getElem?_eq_none (by omega)]
  · simp [h]

theorem read_take {mem : List UInt8} {off width stop : Nat} (h : off + width ≤ stop) :
    read mem off width = some b → read (mem.take stop) off width = some b := by
  rw [read_eq_some, read_eq_some]
  rintro ⟨hle, hlen, hb⟩
  refine ⟨by rw [length_take]; omega, hlen, fun i hi => ?_⟩
  rw [List.getElem?_take_of_lt (by omega)]
  exact hb i hi

theorem write_eq_some (h : write mem off bytes = some mem') :
    off + bytes.length ≤ mem.length ∧ mem'.length = mem.length ∧
      ∀ i, mem'[i]? =
        if off ≤ i ∧ i < off + bytes.length then bytes[i - off]? else mem[i]? := by
  unfold write at h
  split_ifs at h with hle
  cases h
  have htake : (mem.take off).length = off := by simp; omega
  refine ⟨hle, by simp; omega, fun i => ?_⟩
  by_cases hlow : i < off
  · rw [if_neg (by omega), List.getElem?_append_left (by omega), List.getElem?_take_of_lt hlow]
  · rw [List.getElem?_append_right (by omega), htake]
    by_cases hhigh : i < off + bytes.length
    · rw [if_pos (by omega), List.getElem?_append_left (by omega)]
    · rw [if_neg (by omega), List.getElem?_append_right (by omega), List.getElem?_drop]
      congr 1
      omega

theorem write_length (h : write mem off bytes = some mem') : mem'.length = mem.length :=
  (write_eq_some h).2.1

theorem write_inside (mem : List UInt8) (off : Nat) (bytes : List UInt8)
    (h : off + bytes.length ≤ mem.length) :
    ∃ mem', write mem off bytes = some mem' ∧ mem'.length = mem.length :=
  ⟨_, if_pos h, write_length (if_pos h)⟩

theorem read_write_self (h : write mem off bytes = some mem') :
    read mem' off bytes.length = some bytes := by
  obtain ⟨hle, hlen, hget⟩ := write_eq_some h
  refine read_eq_some.2 ⟨by omega, rfl, fun i hi => ?_⟩
  rw [hget, if_pos (by omega)]
  congr 1
  omega

theorem read_write_apart (h : write mem off bytes = some mem') {at' : Nat}
    (hapart : at' + width ≤ off ∨ off + bytes.length ≤ at') :
    read mem' at' width = read mem at' width := by
  obtain ⟨hle, hlen, hget⟩ := write_eq_some h
  apply Option.ext
  intro b
  rw [read_eq_some, read_eq_some, hlen]
  refine and_congr_right fun _ => and_congr_right fun _ => forall₂_congr fun i hi => ?_
  rw [hget, if_neg (by omega)]

theorem read_sub (h : read mem off width = some b) {i w : Nat} (hi : i + w ≤ width) :
    read mem (off + i) w = some ((b.drop i).take w) := by
  obtain ⟨hle, hlen, hget⟩ := read_eq_some.1 h
  refine read_eq_some.2 ⟨by omega, by simp; omega, fun j hj => ?_⟩
  rw [List.getElem?_take_of_lt hj, List.getElem?_drop, hget _ (by omega), Nat.add_assoc]

theorem read_append (h : read mem off width = some b) (rest : List UInt8) :
    read (mem ++ rest) off width = some b := by
  obtain ⟨hle, hlen, hget⟩ := read_eq_some.1 h
  refine read_eq_some.2 ⟨by simp; omega, hlen, fun i hi => ?_⟩
  rw [hget i hi, List.getElem?_append_left (by omega)]

theorem read_block (pre block post : List UInt8) :
    read (pre ++ (block ++ post)) pre.length block.length = some block := by
  refine read_eq_some.2 ⟨by simp, rfl, fun i hi => ?_⟩
  rw [List.getElem?_append_right (by omega), Nat.add_sub_cancel_left,
    List.getElem?_append_left hi]

theorem write_block (pre block post : List UInt8) (h : bytes.length = block.length) :
    write (pre ++ (block ++ post)) pre.length bytes = some (pre ++ (bytes ++ post)) := by
  unfold write
  rw [if_pos (by simp; omega), take_left' rfl, ← append_assoc pre block,
    drop_left' (by simp [h])]

theorem write_zeros (pre bytes : List UInt8) {off : Nat} (hoff : off = pre.length) (k : Nat) :
    write (pre ++ replicate (bytes.length + k) 0) off bytes =
      some (pre ++ bytes ++ replicate k 0) := by
  rw [hoff, ← replicate_append_replicate, write_block pre _ _ (by simp), append_assoc]

theorem copy_zeros (pre bytes : List UInt8) {off : Nat} (hoff : off = pre.length) (k : Nat) :
    copy (pre ++ replicate (bytes.length + k) 0) off bytes =
      some (pre ++ bytes ++ replicate k 0) := by
  rw [copy, take_of_length_le (by simp [hoff]), write_zeros pre bytes hoff]

end

end ByteMemory
