import LevisDB.Storage.Journal

/-!
# Framing by position

Where a chunk goes depends only on the position in the current block, and what
the reader finds only on that position and the bytes behind it.
-/

namespace LevisDB

open List

namespace Journal

def header (typ : UInt8) (data : Bytes) : Bytes :=
  LittleEndian.put 4 (checksum typ data).toNat ++ LittleEndian.put 2 data.length ++ [typ]

theorem chunk_eq (typ : UInt8) (data : Bytes) : chunk typ data = header typ data ++ data := by
  simp [chunk, header]

@[simp] theorem header_length (typ : UInt8) (data : Bytes) :
    (header typ data).length = headerSize := by
  simp [header, headerSize]

@[simp] theorem chunk_length (typ : UInt8) (data : Bytes) :
    (chunk typ data).length = headerSize + data.length := by
  rw [chunk_eq, length_append, header_length]

section Header

variable (typ : UInt8) (data tail : Bytes)

theorem header_checksum :
    LittleEndian.get ((header typ data ++ tail).take 4) = (checksum typ data).toNat := by
  have hlt : (checksum typ data).toNat < 256 ^ 4 := (checksum typ data).toNat_lt
  rw [header, append_assoc, append_assoc]
  exact LittleEndian.get_take_put_append hlt _

theorem header_datalen (hlen : data.length < 2 ^ 16) :
    LittleEndian.get (((header typ data ++ tail).drop 4).take 2) = data.length := by
  have hlt : data.length < 256 ^ 2 := by simpa using hlen
  rw [header, append_assoc, append_assoc, LittleEndian.drop_put_append]
  exact LittleEndian.get_take_put_append hlt _

theorem header_type : (header typ data ++ tail).getD 6 0 = typ := by
  simp [header, getD_eq_getElem?_getD, List.getElem?_append]

theorem header_drop : (header typ data ++ tail).drop headerSize = tail := by
  rw [← header_length typ data, drop_left]

end Header

/-- The zeros that fill a block without room for a header. -/
def padding (off : Nat) : Bytes :=
  if blockSize - off < headerSize then replicate (blockSize - off) 0 else []

/-- Where the next chunk starts. -/
def start (off : Nat) : Nat := if blockSize - off < headerSize then 0 else off

/-- The bytes of a record written from an offset on, and the offset behind it. -/
def frame : Nat → Nat → Bool → Bytes → Bytes × Nat
  | 0, off, _, _ => ([], off)
  | fuel + 1, off, first, record =>
    let len := min record.length (blockSize - start off - headerSize)
    let last := decide (len = record.length)
    let piece := padding off ++ chunk (chunkType first last) (record.take len)
    if last then (piece, start off + headerSize + len)
    else
      let rest := frame fuel (start off + headerSize + len) false (record.drop len)
      (piece ++ rest.1, rest.2)

theorem start_le {off : Nat} (h : off ≤ blockSize) : start off + headerSize ≤ blockSize := by
  unfold start
  split_ifs with hfull
  · decide
  · omega

theorem padding_blockSize : padding blockSize = [] := rfl

/-- What the writer has framed, whether it has been handed over or not. -/
def Writer.stream (w : Writer) : Bytes := w.out ++ w.block.drop w.flushedOffset

structure Writer.Ok (w : Writer) : Prop where
  flushed : w.flushedOffset ≤ w.block.length
  block : w.block.length ≤ blockSize

theorem Writer.new_ok : Writer.new.Ok := ⟨Nat.le_refl _, Nat.zero_le _⟩

theorem Writer.stream_length {w : Writer} : w.stream.length = w.position := by
  simp [stream, position]

theorem Writer.rollOver_spec {w : Writer} (h : w.Ok) :
    w.rollOver.Ok ∧ w.rollOver.stream = w.stream ++ padding w.block.length ∧
      w.rollOver.block.length = start w.block.length := by
  unfold rollOver padding start
  split_ifs with hfull
  · refine ⟨⟨Nat.le_refl _, Nat.zero_le _⟩, ?_, rfl⟩
    simp [flushBlock, stream, drop_append_of_le_length h.flushed]
  · exact ⟨h, by simp, rfl⟩

theorem Writer.emitChunk_spec {w : Writer} (h : w.Ok) (typ : UInt8) {data : Bytes}
    (hroom : w.block.length + headerSize + data.length ≤ blockSize) :
    (w.emitChunk typ data).Ok ∧ (w.emitChunk typ data).stream = w.stream ++ chunk typ data ∧
      (w.emitChunk typ data).block.length = w.block.length + headerSize + data.length := by
  have hlen : (w.emitChunk typ data).block.length = w.block.length + headerSize + data.length := by
    simp [emitChunk, Nat.add_assoc]
  refine ⟨⟨?_, hlen ▸ hroom⟩, ?_, hlen⟩
  · rw [hlen]
    exact Nat.le_trans h.flushed (by omega)
  · simp [emitChunk, stream, drop_append_of_le_length h.flushed]

theorem Writer.writeLoop_spec {w : Writer} (h : w.Ok) (fuel : Nat) (first : Bool) (record : Bytes) :
    (writeLoop fuel w first record).Ok ∧
      (writeLoop fuel w first record).stream =
        w.stream ++ (frame fuel w.block.length first record).1 ∧
      (writeLoop fuel w first record).block.length =
        (frame fuel w.block.length first record).2 := by
  induction fuel generalizing w first record with
  | zero => exact ⟨h, by simp [writeLoop, frame], rfl⟩
  | succ fuel ih =>
    obtain ⟨hroll, hstream, hstart⟩ := rollOver_spec h
    have hle := start_le h.block
    have hroom : w.rollOver.block.length + headerSize +
        (record.take (min record.length (blockSize - start w.block.length - headerSize))).length ≤
          blockSize := by
      rw [hstart, length_take]
      omega
    have hlen : (record.take (min record.length
        (blockSize - start w.block.length - headerSize))).length =
          min record.length (blockSize - start w.block.length - headerSize) := by
      rw [length_take]
      omega
    rw [writeLoop, frame]
    simp only [hstart]
    by_cases hlast : min record.length (blockSize - start w.block.length - headerSize) =
        record.length
    · simp only [hlast, decide_true, if_true]
      rw [hlast] at hroom hlen
      obtain ⟨hok, hs, hb⟩ := emitChunk_spec hroll (chunkType first true) hroom
      refine ⟨hok, ?_, ?_⟩
      · rw [hs, hstream, append_assoc]
      · rw [hb, hstart, hlen]
    · simp only [hlast, decide_false, Bool.false_eq_true, if_false]
      obtain ⟨hok, hs, hb⟩ := emitChunk_spec hroll (chunkType first false) hroom
      obtain ⟨hok', hs', hb'⟩ := ih hok false
        (record.drop (min record.length (blockSize - start w.block.length - headerSize)))
      rw [hb, hstart, hlen] at hs' hb'
      refine ⟨hok', ?_, hb'⟩
      rw [hs', hs, hstream]
      simp only [append_assoc]

/-- The reader stands at an offset of its block with `rest` still to come. -/
structure Reader.At (r : Reader) (off : Nat) (rest : Bytes) : Prop where
  rest_eq : r.block.drop r.blockOffset ++ r.src = rest
  offset_le : r.blockOffset ≤ r.block.length
  block_le : r.block.length ≤ blockSize
  short : r.block.length < blockSize → r.block = [] ∨ r.src = []
  eof : r.eof = true → r.src = []
  off_eq : off = if r.block = [] then blockSize else r.blockOffset

theorem Reader.new_at (strictTail : Bool) (src : Bytes) :
    (Reader.new strictTail src).At blockSize src :=
  ⟨rfl, Nat.le_refl _, Nat.zero_le _, fun _ => .inl rfl, nofun, rfl⟩

namespace Reader.At

variable {r : Reader} {off : Nat} {rest : Bytes}

section

variable (h : r.At off rest)
include h

theorem off_le : off ≤ blockSize := by
  have := h.offset_le
  have := h.block_le
  rw [h.off_eq]
  split_ifs <;> omega

theorem remaining_eq : r.remaining = rest.length := by
  rw [← h.rest_eq, remaining, length_append, length_drop]

theorem here_src :
    r.block.drop r.blockOffset = rest.take (blockSize - off) ∧
      r.src = rest.drop (blockSize - off) := by
  have hoff := h.off_eq
  have hle := h.offset_le
  have hblock := h.block_le
  rw [← h.rest_eq]
  by_cases hnil : r.block = []
  · rw [if_pos hnil] at hoff
    rw [hoff, hnil]
    simp
  · rw [if_neg hnil] at hoff
    rw [hoff]
    by_cases hfull : r.block.length = blockSize
    · have hlen : (r.block.drop r.blockOffset).length = blockSize - r.blockOffset := by
        rw [length_drop, hfull]
      rw [← hlen, take_left, drop_left]
      exact ⟨rfl, rfl⟩
    · have hsrc : r.src = [] := (h.short (by omega)).resolve_left hnil
      have hlen : (r.block.drop r.blockOffset).length ≤ blockSize - r.blockOffset := by
        rw [length_drop]
        omega
      rw [hsrc, append_nil, take_of_length_le hlen, drop_eq_nil_of_le hlen]
      exact ⟨rfl, rfl⟩

theorem advance {n : Nat} (hn : r.blockOffset + n ≤ r.block.length)
    (hne : r.block ≠ []) :
    ({ r with blockOffset := r.blockOffset + n } : Reader).At (off + n) (rest.drop n) where
  rest_eq := by
    have hle : n ≤ (r.block.drop r.blockOffset).length := by
      rw [length_drop]
      omega
    rw [← h.rest_eq, drop_append_of_le_length hle, drop_drop]
  offset_le := hn
  block_le := h.block_le
  short := h.short
  eof := h.eof
  off_eq := by
    have hoff := h.off_eq
    rw [if_neg hne] at hoff ⊢
    rw [hoff]

theorem fill_ok {next : Bytes} (hnext : r.src = next) (hne : next ≠ []) :
    ∃ r', r.fill = .ok r' ∧ r'.At 0 next ∧ r'.block ≠ [] ∧ r'.strictTail = r.strictTail := by
  have heof : ¬(r.eof = true ∨ r.src = []) := by
    rintro (he | he)
    · exact hne (hnext ▸ h.eof he)
    · exact hne (hnext ▸ he)
  subst hnext
  have hblock : r.src.take blockSize ≠ [] := by
    simpa [take_eq_nil_iff, blockSize] using hne
  refine ⟨_, if_neg heof, ⟨?_, Nat.zero_le _, ?_, ?_, ?_, ?_⟩, hblock, rfl⟩
  · simp
  · simp
  · intro hlt
    rw [length_take] at hlt
    exact .inr (drop_eq_nil_of_le (by omega))
  · intro he
    exact drop_eq_nil_of_le (Nat.le_of_lt (of_decide_eq_true he))
  · exact (if_neg hblock).symm

end

theorem fill_eof (h : r.src = []) : r.fill = .error .eof := if_pos (.inr h)

end Reader.At

section Chunks

variable {r : Reader} {typ : UInt8} {data tail : Bytes}

theorem parseChunk_of_header (hhere : r.block.drop r.blockOffset = header typ data ++ tail)
    (htyp : typ ≠ 0) (hlen : data.length < 2 ^ 16) :
    r.parseChunk =
      if r.block.length < r.blockOffset + headerSize + data.length then
        if r.block.length < blockSize ∧ r.strictTail = false then .error .eof else .error .corrupt
      else if (checksum typ (tail.take data.length)).toNat ≠ (checksum typ data).toNat then
        .error .corrupt
      else
        .ok (typ, tail.take data.length,
          { r with blockOffset := r.blockOffset + headerSize + data.length }) := by
  unfold Reader.parseChunk
  simp only [hhere, header_checksum, header_datalen typ data tail hlen, header_type, header_drop]
  rw [if_neg (fun h => htyp h.1)]

end Chunks

theorem blockSize_lt : blockSize < 2 ^ 16 := by decide

theorem headerSize_pos : 0 < headerSize := by decide

section AtChunk

variable {r : Reader} {off : Nat} {typ : UInt8} {data rest : Bytes}

theorem parseChunk_at (h : r.At off (chunk typ data ++ rest)) (hne : r.block ≠ [])
    (htyp : typ ≠ 0) (hroom : off + headerSize + data.length ≤ blockSize) :
    ∃ r', r.parseChunk = .ok (typ, data, r') ∧ r'.At (off + headerSize + data.length) rest ∧
      r'.strictTail = r.strictTail := by
  have hsize := blockSize_lt
  have hhere := h.here_src.1
  have hlen : r.blockOffset + (headerSize + data.length) ≤ r.block.length := by
    have hl := congrArg List.length hhere
    rw [length_drop, length_take, length_append, chunk_length] at hl
    have hpos := headerSize_pos
    omega
  have htake : (chunk typ data ++ rest).take (blockSize - off) =
      header typ data ++ (data ++ rest.take (blockSize - off - headerSize - data.length)) := by
    rw [chunk_eq, append_assoc, take_append, take_append,
      take_of_length_le (by rw [header_length]; omega), header_length,
      take_of_length_le (i := blockSize - off - headerSize) (by omega)]
  rw [htake] at hhere
  have hparse := parseChunk_of_header hhere htyp (by omega)
  rw [if_neg (by omega), take_left, if_neg (by simp)] at hparse
  refine ⟨_, hparse, ?_, rfl⟩
  have hadvance := h.advance hlen hne
  rw [← chunk_length typ data, drop_left, chunk_length, ← Nat.add_assoc,
    ← Nat.add_assoc] at hadvance
  exact hadvance

theorem parseChunk_torn {n : Nat} (h : r.At off ((chunk typ data).take n)) (hne : r.block ≠ [])
    (htyp : typ ≠ 0) (hroom : off + headerSize + data.length ≤ blockSize)
    (hheader : headerSize ≤ n) (hcut : n < headerSize + data.length) :
    r.parseChunk = .error (if r.strictTail then .corrupt else .eof) := by
  have hsize := blockSize_lt
  have hoff := h.off_eq
  rw [if_neg hne] at hoff
  obtain ⟨hhere, _⟩ := h.here_src
  have hlen : r.block.length = off + n := by
    have hl := congrArg List.length hhere
    rw [length_drop, length_take, length_take, chunk_length] at hl
    have hpos := headerSize_pos
    omega
  have htake : ((chunk typ data).take n).take (blockSize - off) =
      header typ data ++ data.take (n - headerSize) := by
    rw [take_take, Nat.min_eq_right (by omega), chunk_eq, take_append,
      take_of_length_le (by rw [header_length]; exact hheader), header_length]
  rw [htake] at hhere
  rw [parseChunk_of_header hhere htyp (by omega), if_pos (by omega)]
  cases hstrict : r.strictTail with
  | false => exact if_pos ⟨by omega, rfl⟩
  | true => exact if_neg (fun hc => by cases hc.2)

end AtChunk

section Move

variable {r : Reader} {off : Nat} {rest : Bytes}

namespace Reader.At

theorem here_length (h : r.At off rest) :
    r.block.length - r.blockOffset = min (blockSize - off) rest.length := by
  have hl := congrArg List.length h.here_src.1
  rwa [length_drop, length_take] at hl

theorem block_ne_nil (h : r.At off rest) (hoff : off < blockSize) : r.block ≠ [] := by
  intro hnil
  have := h.off_eq
  rw [if_pos hnil] at this
  omega

theorem readChunk_here (h : r.At off rest) (hroom : headerSize ≤ blockSize - off)
    (hheader : headerSize ≤ rest.length) : r.readChunk = r.parseChunk := by
  have hlen := h.here_length
  rw [readChunk, if_neg (by omega)]

theorem readChunk_short (h : r.At off rest) (hblock : rest.length < blockSize - off)
    (hheader : rest.length < headerSize) :
    r.readChunk = .error (if r.strictTail ∧ rest.length ≠ 0 then .corrupt else .eof) := by
  have hlen := h.here_length
  have hoff := h.off_eq
  have hne := h.block_ne_nil (by omega)
  rw [if_neg hne] at hoff
  have hfill : r.fill = .error .eof :=
    fill_eof (by rw [h.here_src.2]; exact drop_eq_nil_of_le (by omega))
  rw [readChunk, if_pos (by omega), hfill]
  by_cases hnil : rest = []
  · subst hnil
    rw [if_neg (by simp only [length_nil] at hlen; omega), if_neg (by simp)]
  · have hpos := length_pos_iff.mpr hnil
    cases hstrict : r.strictTail with
    | false => simp
    | true => rw [if_pos ⟨rfl, by omega, by omega⟩, if_pos ⟨rfl, by omega⟩]

section

variable (h : r.At off (padding off ++ rest))
include h

theorem readChunk_fill (hfull : blockSize - off < headerSize) :
    r.src = rest ∧
      (∀ err, r.fill = .error err → r.readChunk = .error err) ∧
      ∀ r', r.fill = .ok r' →
        r.readChunk =
          if r'.block.length - r'.blockOffset < headerSize then
            .error (if r'.strictTail then .corrupt else .eof)
          else r'.parseChunk := by
  have hpad : (padding off).length = blockSize - off := by simp [padding, hfull]
  have hlen := h.here_length
  rw [length_append, hpad] at hlen
  have hoff := h.off_eq
  have hle := h.off_le
  -- the block is complete, or there is none yet
  have hwhole : ¬(r.strictTail = true ∧ r.block.length < blockSize ∧
      r.blockOffset < r.block.length) := by
    rintro ⟨_, hshort, hmore⟩
    by_cases hnil : r.block = []
    · simp [hnil] at hmore
    · rw [if_neg hnil] at hoff
      omega
  refine ⟨by rw [h.here_src.2, ← hpad, drop_left], fun err herr => ?_, fun r' hfill => ?_⟩
  · simp only [readChunk, herr, if_pos (by omega : r.block.length - r.blockOffset < headerSize),
      if_neg hwhole]
  · simp only [readChunk, hfill, if_pos (by omega : r.block.length - r.blockOffset < headerSize),
      if_neg hwhole]

theorem readChunk_skip (hfull : blockSize - off < headerSize) (hheader : headerSize ≤ rest.length) :
    ∃ r' : Reader, r.readChunk = r'.parseChunk ∧ r'.At 0 rest ∧ r'.strictTail = r.strictTail := by
  obtain ⟨hsrc, _, hread⟩ := h.readChunk_fill hfull
  have hne : rest ≠ [] := by
    rintro rfl
    exact absurd hheader (by decide)
  obtain ⟨r', hfill, hat, _, hstrict⟩ := h.fill_ok hsrc hne
  have hlen := hat.here_length
  refine ⟨r', ?_, hat, hstrict⟩
  rw [hread r' hfill, if_neg (by have := (by decide : headerSize ≤ blockSize); omega)]

theorem readChunk_skip_short
    (hfull : blockSize - off < headerSize) (hheader : rest.length < headerSize) :
    r.readChunk = .error (if r.strictTail ∧ rest.length ≠ 0 then .corrupt else .eof) := by
  obtain ⟨hsrc, hend, hread⟩ := h.readChunk_fill hfull
  by_cases hnil : rest = []
  · rw [hend _ (fill_eof (hsrc.trans hnil)), if_neg (by simp [hnil])]
  · obtain ⟨r', hfill, hat, _, hstrict⟩ := h.fill_ok hsrc hnil
    have hlen := hat.here_length
    rw [hread r' hfill, if_pos (by omega), hstrict]
    simp [hnil]

end

end Reader.At

end Move

section ReadBack

variable {r : Reader} {off : Nat} {typ : UInt8} {data : Bytes}

theorem readChunk_framed {rest : Bytes} (h : r.At off (padding off ++ chunk typ data ++ rest))
    (htyp : typ ≠ 0) (hroom : start off + headerSize + data.length ≤ blockSize) :
    ∃ r', r.readChunk = .ok (typ, data, r') ∧
      r'.At (start off + headerSize + data.length) rest ∧ r'.strictTail = r.strictTail := by
  have hheader : headerSize ≤ (chunk typ data ++ rest).length := by
    rw [length_append, chunk_length]
    omega
  rw [append_assoc] at h
  by_cases hfull : blockSize - off < headerSize
  · obtain ⟨r₁, hread, hat, hstrict₁⟩ := h.readChunk_skip hfull hheader
    rw [start, if_pos hfull] at hroom ⊢
    obtain ⟨r', hparse, hat', hstrict⟩ :=
      parseChunk_at hat (hat.block_ne_nil (by decide)) htyp hroom
    exact ⟨r', hread.trans hparse, hat', hstrict.trans hstrict₁⟩
  · rw [padding, if_neg hfull, nil_append] at h
    rw [start, if_neg hfull] at hroom ⊢
    rw [h.readChunk_here (by omega) hheader]
    exact parseChunk_at h (h.block_ne_nil (by have := headerSize_pos; omega)) htyp hroom

theorem readChunk_torn {n : Nat} (h : r.At off ((padding off ++ chunk typ data).take n))
    (htyp : typ ≠ 0) (hroom : start off + headerSize + data.length ≤ blockSize)
    (hcut : n < (padding off ++ chunk typ data).length) :
    r.readChunk =
      .error (if r.strictTail ∧ n ≠ 0 ∧ n ≠ (padding off).length then .corrupt else .eof) := by
  rw [length_append, chunk_length] at hcut
  have hlen : ((padding off ++ chunk typ data).take n).length = n := by
    rw [length_take, length_append, chunk_length]
    omega
  by_cases hfull : blockSize - off < headerSize
  · have hpad : (padding off).length = blockSize - off := by simp [padding, hfull]
    rw [start, if_pos hfull] at hroom
    by_cases hin : n < blockSize - off
    · rw [h.readChunk_short (by omega) (by omega), hlen, hpad]
      exact congrArg _ (if_congr (and_congr_right fun _ => by omega) rfl rfl)
    · -- the cut is behind the padding, inside the chunk of the next block
      rw [take_append, take_of_length_le (by omega), hpad] at h
      rw [hpad] at hcut ⊢
      have hrest : ((chunk typ data).take (n - (blockSize - off))).length =
          n - (blockSize - off) := by
        rw [length_take, chunk_length]
        omega
      by_cases hheader : n - (blockSize - off) < headerSize
      · rw [h.readChunk_skip_short hfull (by omega), hrest]
        exact congrArg _ (if_congr (and_congr_right fun _ => by omega) rfl rfl)
      · obtain ⟨r', hread, hat, hstrict⟩ := h.readChunk_skip hfull (by omega)
        rw [hread, parseChunk_torn hat (hat.block_ne_nil (by decide)) htyp hroom (by omega)
          (by omega), hstrict]
        have hpos := headerSize_pos
        exact congrArg _ (if_congr (and_iff_left (by omega)).symm rfl rfl)
  · have hpad : padding off = [] := by simp [padding, hfull]
    rw [start, if_neg hfull] at hroom
    rw [hpad, nil_append] at h hlen
    rw [hpad, length_nil, Nat.zero_add] at hcut
    rw [hpad, length_nil]
    by_cases hheader : n < headerSize
    · rw [h.readChunk_short (by omega) (by omega), hlen]
      exact congrArg _ (if_congr (and_congr_right fun _ => by omega) rfl rfl)
    · have hpos := headerSize_pos
      rw [h.readChunk_here (by omega) (by omega),
        parseChunk_torn h (h.block_ne_nil (by omega)) htyp hroom (by omega) hcut]
      exact congrArg _ (if_congr (and_iff_left (by omega)).symm rfl rfl)

end ReadBack

end Journal

end LevisDB
