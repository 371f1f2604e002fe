import LevisDB.Storage.JournalFraming

/-!
# Records of a journal

Records go out one behind the other, each framed from the offset where the one
before ended, wherever the flushes fall. A reader gets back the records that are
whole and stops at the first that is not.
-/

namespace LevisDB

open List

namespace Journal

theorem chunkType_ne_zero (first last : Bool) : chunkType first last ≠ 0 := by
  cases first <;> cases last <;> decide

/-- How much of a record goes into the chunk at an offset. -/
def pieceLen (off : Nat) (record : Bytes) : Nat :=
  min record.length (blockSize - start off - headerSize)

section Frame

variable {fuel off : Nat} {first : Bool} {record : Bytes}

theorem pieceLen_le : pieceLen off record ≤ record.length := Nat.min_le_left _ _

theorem pieceLen_room (record : Bytes) (hoff : off ≤ blockSize) :
    start off + headerSize + pieceLen off record ≤ blockSize := by
  have hstart := start_le hoff
  unfold pieceLen
  omega

theorem pieceLen_full (hoff : off ≤ blockSize) (h : pieceLen off record ≠ record.length) :
    start off + headerSize + pieceLen off record = blockSize := by
  have hstart := start_le hoff
  unfold pieceLen at h ⊢
  omega

theorem take_pieceLen_length : (record.take (pieceLen off record)).length = pieceLen off record :=
    by
  rw [length_take, Nat.min_eq_left pieceLen_le]

theorem frame_last (h : pieceLen off record = record.length) :
    frame (fuel + 1) off first record =
      (padding off ++ chunk (chunkType first true) record,
        start off + headerSize + record.length) := by
  have hlen : min record.length (blockSize - start off - headerSize) = record.length := h
  simp [frame, hlen]

theorem frame_more (hoff : off ≤ blockSize) (h : pieceLen off record ≠ record.length) :
    frame (fuel + 1) off first record =
      (padding off ++ chunk (chunkType first false) (record.take (pieceLen off record)) ++
          (frame fuel blockSize false (record.drop (pieceLen off record))).1,
        (frame fuel blockSize false (record.drop (pieceLen off record))).2) := by
  rw [← pieceLen_full hoff h]
  unfold pieceLen at h ⊢
  simp [frame, h]

theorem frame_offset_le (hoff : off ≤ blockSize) :
    (frame fuel off first record).2 ≤ blockSize := by
  induction fuel generalizing off first record with
  | zero => exact hoff
  | succ fuel ih =>
    by_cases hlast : pieceLen off record = record.length
    · rw [frame_last hlast, ← hlast]
      exact pieceLen_room record hoff
    · rw [frame_more hoff hlast]
      exact ih (Nat.le_refl _)

theorem frame_length_ge (fuel : Nat) (first : Bool) (record : Bytes) (hoff : off ≤ blockSize) :
    (padding off).length + headerSize ≤ (frame (fuel + 1) off first record).1.length := by
  by_cases hlast : pieceLen off record = record.length
  · rw [frame_last hlast, length_append, chunk_length]
    omega
  · rw [frame_more hoff hlast, length_append, length_append, chunk_length]
    omega

theorem start_mod (hoff : off ≤ blockSize) :
    (off + (padding off).length) % blockSize = start off % blockSize := by
  unfold padding start
  split_ifs with hfull
  · rw [length_replicate, Nat.add_sub_cancel' hoff]
    rfl
  · rfl

theorem frame_length_mod (hoff : off ≤ blockSize) :
    (off + (frame fuel off first record).1.length) % blockSize =
      (frame fuel off first record).2 % blockSize := by
  induction fuel generalizing off first record with
  | zero => rfl
  | succ fuel ih =>
    have hstart := start_mod hoff
    by_cases hlast : pieceLen off record = record.length
    · rw [frame_last hlast, length_append, chunk_length, ← Nat.add_assoc, Nat.add_mod,
        hstart, ← Nat.add_mod, ← Nat.add_assoc]
    · have hfits := pieceLen_full hoff hlast
      rw [frame_more hoff hlast, ← ih (Nat.le_refl blockSize)]
      simp only [length_append, chunk_length, take_pieceLen_length]
      generalize (frame fuel blockSize false (record.drop (pieceLen off record))).1.length = n
      unfold blockSize at hstart hfits ⊢
      omega

end Frame

section Assemble

variable {first : Bool} {record data : Bytes}

theorem assemble_last (hacc : first = true → record = []) :
    Reader.assemble (!first) record (chunkType first true) data = .done (record ++ data) := by
  cases first with
  | true => simp [Reader.assemble, chunkType, hacc rfl]
  | false => rfl

theorem assemble_more :
    Reader.assemble (!first) record (chunkType first false) data = .more (record ++ data) := by
  cases first <;> rfl

end Assemble

section Next

variable {r : Reader} {off : Nat} {first : Bool} {record rest : Bytes}

/-- What the writer's rounds need to get a record out: the first piece may be
empty, the later ones are not. -/
structure Rounds (fuel off : Nat) (first : Bool) (record : Bytes) : Prop where
  begin_le : first = true → record.length < fuel
  later : first = false → off = blockSize ∧ record ≠ [] ∧ record.length ≤ fuel

theorem Rounds.new (off : Nat) (record : Bytes) : Rounds (record.length + 1) off true record :=
  ⟨fun _ => Nat.lt_succ_self _, nofun⟩

theorem Rounds.pos {fuel : Nat} (h : Rounds fuel off first record) : 0 < fuel := by
  cases first with
  | true => exact Nat.lt_of_le_of_lt (Nat.zero_le _) (h.begin_le rfl)
  | false =>
    obtain ⟨_, hne, hle⟩ := h.later rfl
    exact Nat.lt_of_lt_of_le (length_pos_iff.mpr hne) hle

theorem Rounds.next {fuel : Nat} (h : Rounds (fuel + 1) off first record)
    (hmore : pieceLen off record ≠ record.length) :
    Rounds fuel blockSize false (record.drop (pieceLen off record)) := by
  have hle : pieceLen off record ≤ record.length := pieceLen_le
  refine ⟨nofun, fun _ => ⟨rfl, ?_, ?_⟩⟩
  · rw [Ne, drop_eq_nil_iff]
    omega
  · rw [length_drop]
    cases first with
    | true =>
      have := h.begin_le rfl
      omega
    | false =>
      obtain ⟨rfl, _, hfuel⟩ := h.later rfl
      have hroom : 0 < blockSize - start blockSize - headerSize := by decide
      unfold pieceLen at hmore ⊢
      omega

theorem nextLoop_frame {wfuel fuel : Nat} (hw : Rounds wfuel off first record) (acc : Bytes)
    (hacc : first = true → acc = [])
    (h : r.At off ((frame wfuel off first record).1 ++ rest))
    (hfuel : ((frame wfuel off first record).1 ++ rest).length < fuel) :
    ∃ r', Reader.nextLoop fuel (!first) acc r = .ok (acc ++ record, r') ∧
      r'.At (frame wfuel off first record).2 rest ∧ r'.strictTail = r.strictTail := by
  induction wfuel generalizing r off first record acc fuel with
  | zero => exact absurd hw.pos (Nat.lt_irrefl 0)
  | succ wfuel ih =>
    obtain _ | fuel := fuel
    · exact absurd hfuel (Nat.not_lt_zero _)
    have hoff := h.off_le
    by_cases hlast : pieceLen off record = record.length
    · rw [frame_last hlast] at h ⊢
      obtain ⟨r', hread, hat, hstrict⟩ :=
        readChunk_framed h (chunkType_ne_zero _ _) (hlast ▸ pieceLen_room record hoff)
      refine ⟨r', ?_, hat, hstrict⟩
      simp only [Reader.nextLoop, hread, assemble_last hacc]
    · rw [frame_more hoff hlast] at h hfuel ⊢
      rw [append_assoc] at h hfuel
      obtain ⟨r₁, hread, hat₁, hstrict₁⟩ := readChunk_framed h (chunkType_ne_zero _ _)
        (take_pieceLen_length.symm ▸ pieceLen_room record hoff)
      rw [take_pieceLen_length, pieceLen_full hoff hlast] at hat₁
      rw [length_append, length_append, chunk_length] at hfuel
      have hpos := headerSize_pos
      obtain ⟨r', hnext, hat, hstrict⟩ :=
        ih (hw.next hlast) (acc ++ record.take (pieceLen off record)) nofun hat₁
        (by omega : _ < fuel)
      refine ⟨r', ?_, hat, hstrict.trans hstrict₁⟩
      simp only [Reader.nextLoop, hread, assemble_more]
      rw [Bool.not_false, append_assoc, take_append_drop] at hnext
      exact hnext

/-- How a reader ends that finds a record cut after `n` bytes: a strict one lets it
pass only where nothing of the record is left. -/
def tornEnd (strictTail first : Bool) (off n : Nat) : ReadErr :=
  if strictTail ∧ ¬(first = true ∧ (n = 0 ∨ n = (padding off).length)) then .corrupt else .eof

theorem nextLoop_torn_chunk {fuel n : Nat} {typ : UInt8} {data : Bytes} (acc : Bytes)
    (h : r.At off ((padding off ++ chunk typ data).take n)) (htyp : typ ≠ 0)
    (hroom : start off + headerSize + data.length ≤ blockSize)
    (hcut : n < (padding off ++ chunk typ data).length) :
    Reader.nextLoop (fuel + 1) (!first) acc r = .error (tornEnd r.strictTail first off n) := by
  have hread := readChunk_torn h htyp hroom hcut
  unfold tornEnd
  by_cases hcorrupt : r.strictTail = true ∧ n ≠ 0 ∧ n ≠ (padding off).length
  · rw [if_pos hcorrupt] at hread
    simp only [Reader.nextLoop, hread]
    rw [if_pos ⟨hcorrupt.1, by tauto⟩]
  · rw [if_neg hcorrupt] at hread
    simp only [Reader.nextLoop, hread]
    cases first <;> cases hstrict : r.strictTail <;> simp [hstrict] at hcorrupt ⊢
    exact fun h => hcorrupt h

theorem nextLoop_torn {wfuel fuel n : Nat} (hw : Rounds wfuel off first record) (acc : Bytes)
    (h : r.At off ((frame wfuel off first record).1.take n))
    (hcut : n < (frame wfuel off first record).1.length) (hfuel : n < fuel) :
    Reader.nextLoop fuel (!first) acc r = .error (tornEnd r.strictTail first off n) := by
  induction wfuel generalizing r off first record acc fuel n with
  | zero => exact absurd hw.pos (Nat.lt_irrefl 0)
  | succ wfuel ih =>
    obtain _ | fuel := fuel
    · exact absurd hfuel (Nat.not_lt_zero _)
    have hoff := h.off_le
    by_cases hlast : pieceLen off record = record.length
    · rw [frame_last hlast] at h hcut
      exact nextLoop_torn_chunk acc h (chunkType_ne_zero _ _)
        (hlast ▸ pieceLen_room record hoff) hcut
    · rw [frame_more hoff hlast] at h hcut
      have hroom : start off + headerSize + (record.take (pieceLen off record)).length ≤
          blockSize := take_pieceLen_length.symm ▸ pieceLen_room record hoff
      by_cases hin : n < (padding off ++
          chunk (chunkType first false) (record.take (pieceLen off record))).length
      · rw [take_append_of_le_length (Nat.le_of_lt hin)] at h
        exact nextLoop_torn_chunk acc h (chunkType_ne_zero _ _) hroom hin
      · -- the first piece is whole; the cut is in what follows
        rw [take_append, take_of_length_le (by omega)] at h
        obtain ⟨r₁, hread, hat₁, hstrict₁⟩ := readChunk_framed h (chunkType_ne_zero _ _) hroom
        rw [take_pieceLen_length, pieceLen_full hoff hlast] at hat₁
        rw [length_append] at hcut
        have hnext := ih (hw.next hlast) (acc ++ record.take (pieceLen off record)) hat₁
          (by omega) (by
            rw [length_append, chunk_length] at hin ⊢
            have hpos := headerSize_pos
            omega : _ < fuel)
        simp only [Reader.nextLoop, hread, assemble_more]
        rw [Bool.not_false] at hnext
        rw [hnext, hstrict₁]
        rw [length_append, chunk_length] at hin
        have hpos := headerSize_pos
        exact congrArg _ (if_congr (and_congr_right fun _ =>
          iff_of_true (by simp) (by rintro ⟨_, h | h⟩ <;> omega)) rfl rfl)

end Next

def frames : Nat → List Bytes → Bytes × Nat
  | off, [] => ([], off)
  | off, record :: records =>
    let first := frame (record.length + 1) off true record
    let rest := frames first.2 records
    (first.1 ++ rest.1, rest.2)

def framedEnds : Nat → Nat → List Bytes → List (Bytes × Nat)
  | _, _, [] => []
  | pos, off, record :: records =>
    let first := frame (record.length + 1) off true record
    (record, pos + first.1.length) :: framedEnds (pos + first.1.length) first.2 records

/-- A strict reader accepts a file that ends behind `pos`, or behind the padding
that follows it. -/
def EndsClean (pos len : Nat) : Prop :=
  len = pos ∨ pos ≤ len ∧ len % blockSize = 0 ∧ len - pos < headerSize

instance (pos len : Nat) : Decidable (EndsClean pos len) := by
  unfold EndsClean
  infer_instance

theorem endsClean_iff_padding {pos off n : Nat} (hoff : off ≤ blockSize)
    (hpos : pos % blockSize = off % blockSize) :
    EndsClean pos (pos + n) ↔ n = 0 ∨ n = (padding off).length := by
  unfold EndsClean padding
  split_ifs with hfull
  · rw [length_replicate]
    unfold blockSize headerSize at *
    omega
  · rw [length_nil]
    unfold blockSize headerSize at *
    omega

theorem EndsClean.le {pos len : Nat} (h : EndsClean pos len) : pos ≤ len := by
  rcases h with rfl | h
  · exact Nat.le_refl _
  · exact h.1

theorem EndsClean.lt {pos len : Nat} (h : EndsClean pos len) : len < pos + headerSize := by
  have := headerSize_pos
  rcases h with rfl | h <;> omega

theorem le_of_mem_framedEnds {pos off : Nat} {records : List Bytes} (hoff : off ≤ blockSize)
    {p : Bytes × Nat} (hp : p ∈ framedEnds pos off records) : pos + headerSize ≤ p.2 := by
  induction records generalizing pos off with
  | nil => cases hp
  | cons record records ih =>
    have hlen := frame_length_ge record.length true record hoff
    rcases mem_cons.mp hp with rfl | hp
    · change pos + headerSize ≤ pos + _
      omega
    · have := ih (frame_offset_le hoff) hp
      omega

section ReadAll

variable {r : Reader} {off : Nat} {records : List Bytes}

theorem next_frame {record rest : Bytes}
    (h : r.At off ((frame (record.length + 1) off true record).1 ++ rest)) :
    ∃ r', r.next = .ok (record, r') ∧
      r'.At (frame (record.length + 1) off true record).2 rest ∧
      r'.strictTail = r.strictTail :=
  nextLoop_frame (Rounds.new off record) [] (fun _ => rfl) h
    (by rw [h.remaining_eq]; exact Nat.lt_succ_self _)

theorem next_torn {record : Bytes} {n : Nat}
    (h : r.At off ((frame (record.length + 1) off true record).1.take n))
    (hcut : n < (frame (record.length + 1) off true record).1.length) :
    r.next = .error (tornEnd r.strictTail true off n) :=
  nextLoop_torn (Rounds.new off record) [] h hcut
    (by rw [h.remaining_eq, length_take, Nat.min_eq_left (Nat.le_of_lt hcut)]; omega)

theorem next_nil (h : r.At off []) : r.next = .error .eof := by
  have hnil : r.At off ((frame 1 off true []).1.take 0) := h
  have hlen := frame_length_ge 0 true [] h.off_le
  have hpos : 0 < (frame 1 off true []).1.length :=
    Nat.lt_of_lt_of_le (Nat.add_pos_right _ headerSize_pos) hlen
  rw [next_torn hnil hpos]
  simp [tornEnd]

theorem readAll_take {pos n fuel : Nat} (hpos : pos % blockSize = off % blockSize)
    (hn : n ≤ (frames off records).1.length)
    (h : r.At off ((frames off records).1.take n)) (hfuel : n < fuel) :
    Reader.readAll fuel r =
      (((framedEnds pos off records).filter (fun p => p.2 ≤ pos + n)).map Prod.fst,
        if r.strictTail ∧ ¬(EndsClean pos (pos + n) ∨
          ∃ p ∈ framedEnds pos off records, EndsClean p.2 (pos + n)) then .corrupt else .eof) := by
  induction records generalizing r off pos n fuel with
  | nil =>
    obtain _ | fuel := fuel
    · exact absurd hfuel (Nat.not_lt_zero _)
    obtain rfl : n = 0 := Nat.le_zero.mp hn
    simp only [Reader.readAll, next_nil h]
    simp [framedEnds, EndsClean]
  | cons record records ih =>
    obtain _ | fuel := fuel
    · exact absurd hfuel (Nat.not_lt_zero _)
    have hoff := h.off_le
    have hlen := frame_length_ge record.length true record hoff
    have hheader := headerSize_pos
    simp only [frames] at h hn
    by_cases hin : (frame (record.length + 1) off true record).1.length ≤ n
    · rw [take_append, take_of_length_le hin] at h
      obtain ⟨r₁, hnext, hat₁, hstrict₁⟩ := next_frame h
      have hmod : (pos + (frame (record.length + 1) off true record).1.length) % blockSize =
          (frame (record.length + 1) off true record).2 % blockSize := by
        rw [Nat.add_mod, hpos, ← Nat.add_mod, frame_length_mod hoff]
      rw [length_append] at hn
      have hrest := ih hmod (by omega) hat₁ (by omega : _ < fuel)
      have hclean : ¬EndsClean pos (pos + n) := fun hc => by
        have := hc.lt
        omega
      rw [Nat.add_assoc, Nat.add_sub_cancel' hin, hstrict₁] at hrest
      simp only [Reader.readAll, hnext, hrest, framedEnds, mem_cons, exists_eq_or_imp,
        hclean, false_or]
      rw [filter_cons_of_pos (by simpa using hin), map_cons]
    · rw [take_append_of_le_length (by omega)] at h
      simp only [Reader.readAll, next_torn h (by omega)]
      have hlater : ∀ p ∈ framedEnds pos off (record :: records), ¬p.2 ≤ pos + n := by
        intro p hp
        rcases mem_cons.mp hp with rfl | hp
        · change ¬pos + _ ≤ _
          omega
        · have := le_of_mem_framedEnds (frame_offset_le hoff) hp
          omega
      have hnone : ¬∃ p ∈ framedEnds pos off (record :: records), EndsClean p.2 (pos + n) := by
        rintro ⟨p, hp, hc⟩
        exact hlater p hp hc.le
      rw [filter_eq_nil_iff.mpr (by simpa using hlater), map_nil]
      simp only [hnone, or_false, endsClean_iff_padding hoff hpos, tornEnd, true_and]

theorem readFile_take (strictTail : Bool) (records : List Bytes) {n : Nat}
    (hn : n ≤ (frames blockSize records).1.length) :
    readFile strictTail ((frames blockSize records).1.take n) =
      (((framedEnds 0 blockSize records).filter (fun p => p.2 ≤ n)).map Prod.fst,
        if strictTail ∧ ¬(n = 0 ∨ ∃ p ∈ framedEnds 0 blockSize records, EndsClean p.2 n) then
          .corrupt else .eof) := by
  have hmod : 0 % blockSize = blockSize % blockSize := rfl
  have hread := readAll_take hmod hn (Reader.new_at strictTail _)
    (by rw [length_take]; omega : n < ((frames blockSize records).1.take n).length + 1)
  have hstart : EndsClean 0 n ↔ n = 0 := by
    simpa [padding_blockSize] using endsClean_iff_padding (n := n) (Nat.le_refl _) hmod
  simp only [Nat.zero_add, hstart] at hread
  exact hread

end ReadAll

def Op.record? : Op → Option Bytes
  | .write record => some record
  | .flush => none

def records (ops : List Op) : List Bytes := ops.filterMap Op.record?

theorem frames_blockSize (records : List Bytes) :
    (frames blockSize records).1 = (frames 0 records).1 := by
  cases records with
  | nil => rfl
  | cons record records => rfl

theorem framedEnds_blockSize (pos : Nat) (records : List Bytes) :
    framedEnds pos blockSize records = framedEnds pos 0 records := by
  cases records with
  | nil => rfl
  | cons record records => rfl

section Run

variable {w : Writer}

theorem Writer.flush_spec (h : w.Ok) :
    w.flush.Ok ∧ w.flush.stream = w.stream ∧
      (w.flush.block.length = w.block.length ∨
        w.block.length = blockSize ∧ w.flush.block.length = 0) := by
  unfold flush
  split_ifs with hdone hfull
  · exact ⟨h, rfl, .inl rfl⟩
  · exact ⟨⟨Nat.le_refl _, Nat.zero_le _⟩, by simp [flushBlock, stream], .inr ⟨hfull, rfl⟩⟩
  · exact ⟨⟨Nat.le_refl _, h.block⟩, by simp [stream], .inl rfl⟩

theorem Writer.flush_out (w : Writer) : w.flush.out = w.stream := by
  unfold flush
  split_ifs with hdone hfull
  · simp [stream, hdone]
  · rfl
  · rfl

theorem Writer.run_spec (h : w.Ok) (ops : List Op) :
    (w.run ops).stream = w.stream ++ (frames w.block.length (records ops)).1 ∧
      w.ends ops = framedEnds w.position w.block.length (records ops) := by
  induction ops generalizing w with
  | nil => exact ⟨by simp [run, records, frames], rfl⟩
  | cons op ops ih =>
    cases op with
    | write record =>
      obtain ⟨hok, hstream, hblock⟩ := writeLoop_spec h (record.length + 1) true record
      obtain ⟨hrun, hends⟩ := ih hok
      have hposition : (w.write record).position =
          w.position + (frame (record.length + 1) w.block.length true record).1.length := by
        rw [← stream_length, ← stream_length, write, hstream, length_append]
      rw [hblock] at hrun hends
      refine ⟨?_, ?_⟩
      · rw [hstream, append_assoc] at hrun
        exact hrun
      · change (record, (w.write record).position) :: (w.write record).ends ops = _
        rw [write, hends, ← write, hposition]
        rfl
    | flush =>
      obtain ⟨hok, hstream, hblock⟩ := flush_spec h
      obtain ⟨hrun, hends⟩ := ih hok
      have hposition : w.flush.position = w.position := by
        rw [← stream_length, ← stream_length, hstream]
      rw [hstream] at hrun
      rw [hposition] at hends
      rcases hblock with hblock | ⟨hfull, hblock⟩
      · rw [hblock] at hrun hends
        exact ⟨hrun, hends⟩
      · rw [hblock, ← frames_blockSize, ← hfull] at hrun
        rw [hblock, ← framedEnds_blockSize, ← hfull] at hends
        exact ⟨hrun, hends⟩

theorem Writer.new_run (ops : List Op) :
    (Writer.new.run ops).stream = (frames blockSize (records ops)).1 ∧
      Writer.new.ends ops = framedEnds 0 blockSize (records ops) := by
  obtain ⟨hstream, hends⟩ := run_spec new_ok ops
  rw [frames_blockSize, framedEnds_blockSize]
  exact ⟨hstream, hends⟩

end Run

/-- Of a journal cut after any number of bytes, wherever it was flushed, a reader
returns the records that are whole, in order, and then a clean end. A strict
reader returns the same records; it ends cleanly where nothing is left, where a
record ends, and at the end of a block padded after a record. -/
theorem readFile_run_take (ops : List Op) (n : Nat) :
    let kept := (Writer.new.run ops).out.take n
    let whole := (Writer.new.ends ops).filter (fun p => p.2 ≤ kept.length)
    readFile false kept = (whole.map Prod.fst, .eof) ∧
      readFile true kept =
        (whole.map Prod.fst,
          if kept = [] ∨ ∃ p ∈ Writer.new.ends ops, kept.length = p.2 ∨
              p.2 ≤ kept.length ∧ kept.length % blockSize = 0 ∧ kept.length - p.2 < headerSize then
            .eof
          else .corrupt) := by
  intro kept whole
  obtain ⟨hframes, hends⟩ := Writer.new_run ops
  -- what was handed over is the front of what was framed
  have hkept : (frames blockSize (records ops)).1.take kept.length = kept := by
    rw [← hframes, Writer.stream, take_append_of_le_length (length_take_le' _ _),
      length_take, ← take_eq_take_min]
  have hle : kept.length ≤ (frames blockSize (records ops)).1.length := by
    rw [← hkept, length_take]
    omega
  have hread := fun strictTail => readFile_take strictTail (records ops) hle
  rw [hkept, ← hends] at hread
  refine ⟨(hread false).trans (by simp [whole]), (hread true).trans ?_⟩
  simp only [true_and, ite_not, length_eq_zero_iff, EndsClean, whole]

end Journal

end LevisDB
