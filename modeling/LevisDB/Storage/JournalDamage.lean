import LevisDB.Storage.JournalRecords

/-!
# Damaged chunks

A chunk that fits its block and whose checksum does not match ends the reading
with an error, wherever in a record it is; the records before it are unaffected.
-/

namespace LevisDB

open List

namespace Journal

/-- The bytes left in a block start with a chunk that fails its check. -/
def BadChunk (here : Bytes) : Prop :=
  headerSize + LittleEndian.get ((here.drop 4).take 2) ≤ here.length ∧
    (checksum (here.getD 6 0)
        ((here.drop headerSize).take (LittleEndian.get ((here.drop 4).take 2)))).toNat ≠
      LittleEndian.get (here.take 4)

instance (here : Bytes) : Decidable (BadChunk here) := by
  unfold BadChunk
  infer_instance

/-- Where the chunks of a record start: behind how many bytes of its frame, and at
which offset of their block. -/
def chunkStarts : Nat → Nat → Bytes → List (Nat × Nat)
  | 0, _, _ => []
  | fuel + 1, off, record =>
    ((padding off).length, start off) ::
      if pieceLen off record = record.length then []
      else
        (chunkStarts fuel blockSize (record.drop (pieceLen off record))).map fun c =>
          ((padding off).length + headerSize + pieceLen off record + c.1, c.2)

def fileChunks : Nat → List Bytes → List (Nat × Nat)
  | _, [] => []
  | off, record :: records =>
    let first := frame (record.length + 1) off true record
    chunkStarts (record.length + 1) off record ++
      (fileChunks first.2 records).map fun c => (first.1.length + c.1, c.2)

theorem frame_more_length {fuel off : Nat} {first : Bool} {record : Bytes}
    (hoff : off ≤ blockSize) (h : pieceLen off record ≠ record.length) :
    (frame (fuel + 1) off first record).1.length =
      (padding off).length + headerSize + pieceLen off record +
        (frame fuel blockSize false (record.drop (pieceLen off record))).1.length := by
  rw [frame_more hoff h, length_append, length_append, chunk_length,
    take_pieceLen_length]
  omega

theorem chunkStarts_lt {fuel off : Nat} {first : Bool} {record : Bytes} {c : Nat × Nat}
    (hoff : off ≤ blockSize) (hc : c ∈ chunkStarts fuel off record) :
    c.1 < (frame fuel off first record).1.length := by
  induction fuel generalizing off first record c with
  | zero => cases hc
  | succ fuel ih =>
    rcases mem_cons.mp hc with rfl | hc
    · have hlen := frame_length_ge fuel first record hoff
      have hpos := headerSize_pos
      exact Nat.lt_of_lt_of_le (by omega) hlen
    · by_cases hlast : pieceLen off record = record.length
      · rw [if_pos hlast] at hc
        cases hc
      · rw [if_neg hlast] at hc
        obtain ⟨c', hc', rfl⟩ := List.mem_map.mp hc
        have hlt : c'.1 < (frame fuel blockSize false (record.drop (pieceLen off record))).1.length
          :=
          ih (Nat.le_refl _) hc'
        rw [frame_more_length hoff hlast]
        change _ + c'.1 < _
        omega

section Bad

variable {r : Reader} {off : Nat} {tail : Bytes}

theorem parseChunk_bad (h : r.At off tail) (hbad : BadChunk (tail.take (blockSize - off))) :
    r.parseChunk = .error .corrupt := by
  obtain ⟨hfits, hcheck⟩ := hbad
  have hle := h.offset_le
  rw [← h.here_src.1] at hfits hcheck
  unfold Reader.parseChunk
  simp only
  by_cases hzero : (r.block.drop r.blockOffset).getD 6 0 = 0 ∧
      LittleEndian.get (((r.block.drop r.blockOffset).drop 4).take 2) = 0
  · rw [if_pos hzero]
  · rw [if_neg hzero, if_neg (by rw [length_drop] at hfits; omega), if_pos hcheck]

theorem readChunk_bad (h : r.At off (padding off ++ tail))
    (hbad : BadChunk (tail.take (blockSize - start off))) : r.readChunk = .error .corrupt := by
  have hheader : headerSize ≤ tail.length := by
    have := hbad.1
    rw [length_take] at this
    omega
  unfold start at hbad
  by_cases hfull : blockSize - off < headerSize
  · rw [if_pos hfull] at hbad
    obtain ⟨r', hread, hat, _⟩ := h.readChunk_skip hfull hheader
    rw [hread]
    exact parseChunk_bad hat hbad
  · rw [if_neg hfull] at hbad
    rw [padding, if_neg hfull, nil_append] at h
    rw [h.readChunk_here (by omega) hheader]
    exact parseChunk_bad h hbad

theorem nextLoop_bad {wfuel fuel : Nat} {first : Bool} {record : Bytes} {c : Nat × Nat}
    (acc : Bytes) (hc : c ∈ chunkStarts wfuel off record)
    (h : r.At off ((frame wfuel off first record).1.take c.1 ++ tail))
    (hfuel : c.1 < fuel) (hbad : BadChunk (tail.take (blockSize - c.2))) :
    Reader.nextLoop fuel (!first) acc r = .error .corrupt := by
  induction wfuel generalizing r off first record acc fuel c with
  | zero => cases hc
  | succ wfuel ih =>
    obtain _ | fuel := fuel
    · exact absurd hfuel (Nat.not_lt_zero _)
    have hoff := h.off_le
    rcases mem_cons.mp hc with rfl | hc
    · -- the first chunk of what is left
      have htake : (frame (wfuel + 1) off first record).1.take (padding off).length =
          padding off := by
        by_cases hlast : pieceLen off record = record.length
        · rw [frame_last hlast, take_left]
        · rw [frame_more hoff hlast, append_assoc, take_left]
      rw [htake] at h
      simp only [Reader.nextLoop, readChunk_bad h hbad]
    · by_cases hlast : pieceLen off record = record.length
      · rw [if_pos hlast] at hc
        cases hc
      · rw [if_neg hlast] at hc
        obtain ⟨c', hc', rfl⟩ := List.mem_map.mp hc
        have hroom : start off + headerSize + (record.take (pieceLen off record)).length ≤
            blockSize := take_pieceLen_length.symm ▸ pieceLen_room record hoff
        have hpiece : (padding off ++ chunk (chunkType first false)
            (record.take (pieceLen off record))).length =
              (padding off).length + headerSize + pieceLen off record := by
          rw [length_append, chunk_length, take_pieceLen_length, Nat.add_assoc]
        rw [frame_more hoff hlast, ← hpiece, take_length_add_append, append_assoc] at h
        obtain ⟨r₁, hread, hat, _⟩ := readChunk_framed h (chunkType_ne_zero _ _) hroom
        rw [take_pieceLen_length, pieceLen_full hoff hlast] at hat
        have hpos := headerSize_pos
        simp only [Reader.nextLoop, hread, assemble_more]
        have hnext := ih (acc ++ record.take (pieceLen off record)) hc' hat
          (by omega : _ < fuel) hbad
        exact hnext

theorem next_bad {record : Bytes} {c : Nat × Nat}
    (hc : c ∈ chunkStarts (record.length + 1) off record)
    (h : r.At off ((frame (record.length + 1) off true record).1.take c.1 ++ tail))
    (hbad : BadChunk (tail.take (blockSize - c.2))) : r.next = .error .corrupt := by
  have hlt : c.1 < (frame (record.length + 1) off true record).1.length :=
    chunkStarts_lt h.off_le hc
  refine nextLoop_bad [] hc h ?_ hbad
  rw [h.remaining_eq, length_append, length_take]
  omega

theorem readAll_bad (pos : Nat) {fuel : Nat} {records : List Bytes} {c : Nat × Nat}
    (hc : c ∈ fileChunks off records)
    (h : r.At off ((frames off records).1.take c.1 ++ tail)) (hfuel : c.1 < fuel)
    (hbad : BadChunk (tail.take (blockSize - c.2))) :
    Reader.readAll fuel r =
      (((framedEnds pos off records).filter (fun p => p.2 ≤ pos + c.1)).map Prod.fst,
        .corrupt) := by
  induction records generalizing r off pos fuel c with
  | nil => cases hc
  | cons record records ih =>
    obtain _ | fuel := fuel
    · exact absurd hfuel (Nat.not_lt_zero _)
    have hoff := h.off_le
    rcases mem_append.mp hc with hc | hc
    · have hlt : c.1 < (frame (record.length + 1) off true record).1.length :=
        chunkStarts_lt hoff hc
      have hnone : ∀ p ∈ framedEnds pos off (record :: records), ¬p.2 ≤ pos + c.1 := by
        intro p hp
        rcases mem_cons.mp hp with rfl | hp
        · change ¬pos + _ ≤ _
          omega
        · have := le_of_mem_framedEnds (frame_offset_le hoff) hp
          omega
      simp only [frames] at h
      rw [take_append_of_le_length (Nat.le_of_lt hlt)] at h
      simp only [Reader.readAll, next_bad hc h hbad]
      rw [filter_eq_nil_iff.mpr (by simpa using hnone), map_nil]
    · obtain ⟨c', hc', rfl⟩ := List.mem_map.mp hc
      have hlen := frame_length_ge record.length true record hoff
      have hpos := headerSize_pos
      simp only [frames] at h
      rw [take_length_add_append, append_assoc] at h
      obtain ⟨r₁, hnext, hat, _⟩ := next_frame h
      have hrest := ih (pos + (frame (record.length + 1) off true record).1.length)
        hc' hat (by omega : _ < fuel) hbad
      simp only [Reader.readAll, hnext, hrest, framedEnds]
      rw [filter_cons_of_pos (by simp), map_cons, Nat.add_assoc]

end Bad

theorem readFile_bad (strictTail : Bool) (records : List Bytes) {src : Bytes} {c : Nat × Nat}
    (hc : c ∈ fileChunks blockSize records)
    (hsame : src.take c.1 = (frames blockSize records).1.take c.1)
    (hbad : BadChunk ((src.drop c.1).take (blockSize - c.2))) :
    readFile strictTail src =
      (((framedEnds 0 blockSize records).filter (fun p => p.2 ≤ c.1)).map Prod.fst, .corrupt) := by
  have hat : (Reader.new strictTail src).At blockSize
      ((frames blockSize records).1.take c.1 ++ src.drop c.1) := by
    rw [← hsame, take_append_drop]
    exact Reader.new_at strictTail src
  have hlen : c.1 ≤ src.length := by
    have := hbad.1
    rw [length_take, length_drop] at this
    have := headerSize_pos
    omega
  have hread := readAll_bad 0 hc hat (Nat.lt_succ_of_le hlen) hbad
  rw [Nat.zero_add] at hread
  exact hread

theorem framedEnds_filter (pos n : Nat) {off : Nat} (records : List Bytes)
    (hoff : off ≤ blockSize) :
    ∃ j, ((framedEnds pos off records).filter (fun p => p.2 ≤ pos + n)).map Prod.fst =
        records.take j ∧
      (n < (frames off records).1.length → j < records.length) ∧
      ((frames off records).1.length ≤ n → j = records.length) := by
  induction records generalizing pos off n with
  | nil => exact ⟨0, rfl, by simp [frames], fun _ => rfl⟩
  | cons record records ih =>
    simp only [frames, length_append, framedEnds]
    by_cases hin : (frame (record.length + 1) off true record).1.length ≤ n
    · obtain ⟨j, htake, hlt, hall⟩ :=
        ih (pos + (frame (record.length + 1) off true record).1.length)
          (n - (frame (record.length + 1) off true record).1.length) (frame_offset_le hoff)
      rw [Nat.add_assoc, Nat.add_sub_cancel' hin] at htake
      refine ⟨j + 1, ?_, fun h => ?_, fun h => ?_⟩
      · rw [filter_cons_of_pos (by simpa using hin), map_cons, htake, take_succ_cons]
      · rw [length_cons]
        have := hlt (by omega)
        omega
      · rw [length_cons, hall (by omega)]
    · refine ⟨0, ?_, fun _ => by simp, fun h => absurd h (by omega)⟩
      rw [filter_cons_of_neg (by simpa using hin), take_zero, map_eq_nil_iff,
        filter_eq_nil_iff]
      intro p hp
      have := le_of_mem_framedEnds (frame_offset_le hoff) hp
      simp only [decide_eq_true_eq]
      omega

theorem fileChunks_lt {off : Nat} {records : List Bytes} {c : Nat × Nat} (hoff : off ≤ blockSize)
    (hc : c ∈ fileChunks off records) : c.1 < (frames off records).1.length := by
  induction records generalizing off c with
  | nil => cases hc
  | cons record records ih =>
    simp only [frames, length_append]
    rcases mem_append.mp hc with hc | hc
    · have hlt : c.1 < (frame (record.length + 1) off true record).1.length :=
        chunkStarts_lt hoff hc
      omega
    · obtain ⟨c', hc', rfl⟩ := List.mem_map.mp hc
      have := ih (frame_offset_le hoff) hc'
      change _ + c'.1 < _
      omega

end Journal

end LevisDB
