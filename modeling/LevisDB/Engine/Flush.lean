import LevisDB.Core.Options
import LevisDB.Engine.PointReads

/-!
# Sealing and flushing a memtable

A flush seals the active memtable and writes the immutable one to a fresh table
of tier 0. With value separation on, values at or above the threshold go to blob
files and the table keeps a pointer that carries the deadline. The flushed table
therefore reads, through the blob files, exactly like the memtable it replaces.
-/

namespace LevisDB

open List Option LevisDB.Except

/-- Appends values to blob files, rolling at `rollSize`. -/
structure BlobWriter where
  alloc : Nat
  rollSize : Int
  cur : Option (Nat × Bytes)
  finished : List (Nat × Bytes)

namespace BlobWriter

def new (alloc : Nat) (rollSize : Int) : BlobWriter :=
  ⟨alloc, if rollSize ≤ 0 then defaultBlobFileSize else rollSize, none, []⟩

def sealCurrent (w : BlobWriter) : BlobWriter :=
  { w with cur := none, finished := w.finished ++ w.cur.toList }

def roll (w : BlobWriter) : Except Err BlobWriter :=
  match allocNext w.alloc with
  | none => .error .fileNumberExhausted
  | some num => .ok { w.sealCurrent with alloc := num, cur := some (num, []) }

/-- The writer with a file open that has not reached the roll size. -/
def opened (w : BlobWriter) : Except Err BlobWriter :=
  match w.cur with
  | none => w.roll
  | some (_, bytes) => if w.rollSize ≤ (bytes.length : Int) then w.roll else .ok w

def append (w : BlobWriter) (value : Bytes) (expiresAt : Time) :
    Except Err (BlobPointer × BlobWriter) := do
  let w ← w.opened
  let (num, bytes) := w.cur.getD (0, [])
  pure (⟨UInt32.ofNat num, UInt64.ofNat bytes.length, UInt32.ofNat value.length, expiresAt⟩,
    { w with cur := some (num, bytes ++ value) })

def files (w : BlobWriter) : List (Nat × Bytes) := w.finished ++ w.cur.toList

end BlobWriter

/-- Diverts a value at or above the threshold to a blob file. -/
def divert (threshold : Int) (bw : BlobWriter) (e : Entry) (raw : Bytes) (expiresAt : Time) :
    Except Err (Entry × BlobWriter) :=
  if (raw.length : Int) < threshold then .ok (e, bw)
  else do
    let (ptr, bw) ← bw.append raw expiresAt
    pure (⟨⟨e.user, e.seq, .blobRef⟩, encodeBlobPointer ptr⟩, bw)

def maybeSeparateValue (threshold : Int) (bw : Option BlobWriter) (e : Entry) :
    Except Err (Entry × Option BlobWriter) :=
  match bw with
  | none => .ok (e, none)
  | some bw =>
    match e.kind with
    | .set => (divert threshold bw e e.value 0).map fun r => (r.1, some r.2)
    | .setTTL => do
        let (raw, expiresAt) ← decodeExpiringValue e.value
        (divert threshold bw e raw expiresAt).map fun r => (r.1, some r.2)
    | _ => .ok (e, some bw)

def writeEntries (threshold : Int) :
    TableWriter → Option BlobWriter → List Entry → Except Err (TableWriter × Option BlobWriter)
  | w, bw, [] => .ok (w, bw)
  | w, bw, e :: es => do
      let (e', bw) ← maybeSeparateValue threshold bw e
      let w ← w.add e'
      writeEntries threshold w bw es

/-- What a flush leaves on disk before it commits. -/
structure FlushOutput where
  table : TableMeta
  blobs : List (Nat × Bytes)
  alloc : Nat

def writeTable (fmt : TableFormat) (s : Engine) (imm : Memtable) : Except Err FlushOutput :=
  match allocNext s.alloc with
  | none => .error .fileNumberExhausted
  | some num => do
      let bw := if valueSeparationOn s then some (BlobWriter.new num s.cfg.blobFileSize) else none
      let (w, bw) ← writeEntries s.cfg.valueThreshold .new bw imm.points
      let table := finishTable fmt s.cfg.bloomBits num 0 w imm.rts
      match bw with
      | none => pure ⟨table, [], num⟩
      | some bw => pure ⟨table, bw.sealCurrent.finished, bw.alloc⟩

namespace Engine

/-- Seals the active memtable unless one is already waiting; whether there is
anything to flush. -/
def rotate (s : Engine) : Engine × Bool :=
  if s.imm.isSome ∨ s.mem.empty then (s, s.imm.isSome)
  else ({ s with imm := some s.mem, mem := newMemtable }, true)

def needFlush (s : Engine) : Bool := s.imm.isNone && decide (s.cfg.memtableSize ≤ s.mem.size)

/-- The files of a flush exist, though nothing refers to them yet. -/
def created (s : Engine) (out : FlushOutput) : Engine :=
  { s with alloc := out.alloc, blobs := s.blobs ++ out.blobs }

def installFlush (s : Engine) (table : TableMeta) : Engine :=
  { s with tables := s.tables ++ [table], imm := none }

/-- Seal, write and install, for a session whose commits cannot fail. -/
def flush (fmt : TableFormat) (s : Engine) : Except Err Engine :=
  match s.rotate with
  | (s, false) => .ok s
  | (s, true) => do
      let out ← writeTable fmt s (s.imm.getD newMemtable)
      pure ((s.created out).installFlush out.table)

end Engine

/-- Every file of `blobs` is still there, possibly longer. -/
def BlobsExtend (blobs blobs' : List (Nat × Bytes)) : Prop :=
  ∀ n b, blobs.find? (fun f => decide (f.1 = n)) = some b →
    ∃ more, blobs'.find? (fun f => decide (f.1 = n)) = some (b.1, b.2 ++ more)

theorem BlobsExtend.refl (blobs : List (Nat × Bytes)) : BlobsExtend blobs blobs :=
  fun _ _ h => ⟨[], by simpa using h⟩

theorem BlobsExtend.trans {a b c : List (Nat × Bytes)} (hab : BlobsExtend a b)
    (hbc : BlobsExtend b c) : BlobsExtend a c := by
  intro n f hf
  obtain ⟨more, hmore⟩ := hab n f hf
  obtain ⟨more', hmore'⟩ := hbc n _ hmore
  exact ⟨more ++ more', by rw [hmore', append_assoc]⟩

theorem BlobsExtend.blobBytes {blobs blobs' : List (Nat × Bytes)} (h : BlobsExtend blobs blobs')
    {p : BlobPointer} {value : Bytes} (hv : blobBytes blobs p = some value) :
    LevisDB.blobBytes blobs' p = some value := by
  unfold LevisDB.blobBytes at hv ⊢
  obtain ⟨b, hb, hbv⟩ := bind_eq_some_iff.1 hv
  obtain ⟨more, hmore⟩ := h _ b hb
  rw [hmore, bind_some]
  split_ifs at hbv with hlen
  rw [if_pos (by rw [length_append]; omega)]
  rw [← hbv, drop_append_of_le_length (by omega),
    take_append_of_le_length (by rw [length_drop]; omega)]

theorem blobsExtend_append {blobs : List (Nat × Bytes)} (more : List (Nat × Bytes)) :
    BlobsExtend blobs (blobs ++ more) := by
  intro n b hb
  refine ⟨[], ?_⟩
  rw [List.find?_append, hb]
  simp

namespace BlobWriter

/-- The files carry distinct numbers above `first`, all within the 32-bit space. -/
structure Fresh (first : Nat) (w : BlobWriter) : Prop where
  alloc : first ≤ w.alloc
  bound : w.alloc ≤ 2 ^ 32 - 1
  nums : ∀ f ∈ w.files, first < f.1 ∧ f.1 ≤ w.alloc
  nodup : (w.files.map (·.1)).Nodup
  roll : w.rollSize < 2 ^ 63

variable {first : Nat} {w w' : BlobWriter} {old : List (Nat × Bytes)}

theorem fresh_new {alloc : Nat} (hbound : alloc ≤ 2 ^ 32 - 1) {rollSize : Int}
    (hroll : rollSize < 2 ^ 63) : (new alloc rollSize).Fresh alloc := by
  refine ⟨Nat.le_refl _, hbound, by simp [new, files], by simp [new, files], ?_⟩
  unfold new defaultBlobFileSize
  dsimp only
  split_ifs <;> omega

theorem roll_eq_ok (hw : w.Fresh first) (h : w.roll = .ok w') :
    w'.Fresh first ∧ ∃ num, w'.cur = some (num, []) ∧ w'.files = w.files ++ [(num, [])] := by
  unfold roll allocNext at h
  split_ifs at h with hmax
  cases h
  have halloc := hw.alloc
  have hbound := hw.bound
  have hfiles : files { w.sealCurrent with alloc := w.alloc + 1, cur := some (w.alloc + 1, []) } =
      w.files ++ [(w.alloc + 1, [])] := by
    simp [files, sealCurrent]
  refine ⟨⟨?_, ?_, ?_, ?_, hw.roll⟩, w.alloc + 1, rfl, hfiles⟩
  · simp only
    omega
  · simp only
    omega
  · rw [hfiles]
    intro f hf
    rcases mem_append.1 hf with hf | hf
    · have := hw.nums f hf
      simp only
      omega
    · rw [mem_singleton.1 hf]
      simp only
      omega
  · rw [hfiles, map_append, nodup_append]
    refine ⟨hw.nodup, by simp, ?_⟩
    intro n hn m hm
    obtain ⟨f, hf, rfl⟩ := List.mem_map.1 hn
    have := hw.nums f hf
    obtain rfl : m = w.alloc + 1 := by simpa using hm
    omega

theorem opened_eq_ok (hw : w.Fresh first) (h : w.opened = .ok w') :
    w'.Fresh first ∧ ∃ num bytes, w'.cur = some (num, bytes) ∧ bytes.length < 2 ^ 63 ∧
      (w' = w ∨ w'.files = w.files ++ [(num, [])]) := by
  unfold opened at h
  split at h
  · obtain ⟨hf, num, hcur, hfiles⟩ := roll_eq_ok hw h
    exact ⟨hf, num, [], hcur, by simp, Or.inr hfiles⟩
  · next num bytes hcur =>
    split_ifs at h with hfull
    · obtain ⟨hf, num, hcur, hfiles⟩ := roll_eq_ok hw h
      exact ⟨hf, num, [], hcur, by simp, Or.inr hfiles⟩
    · cases h
      have := hw.roll
      exact ⟨hw, num, bytes, hcur, by omega, Or.inl rfl⟩

theorem find?_last (num : Nat) (bytes : Bytes) (hold : ∀ b ∈ old, b.1 ≠ num) :
    (old ++ [(num, bytes)]).find? (fun f => decide (f.1 = num)) = some (num, bytes) := by
  rw [List.find?_append, List.find?_eq_none.2 (by simpa using hold)]
  simp

theorem blobsExtend_grow (num : Nat) (bytes value : Bytes) (hold : ∀ b ∈ old, b.1 ≠ num) :
    BlobsExtend (old ++ [(num, bytes)]) (old ++ [(num, bytes ++ value)]) := by
  intro n b hb
  by_cases hn : n = num
  · subst hn
    rw [find?_last n bytes hold] at hb
    cases hb
    exact ⟨value, find?_last n (bytes ++ value) hold⟩
  · rw [List.find?_append] at hb ⊢
    refine ⟨[], ?_⟩
    have hlast : ∀ bs : Bytes, find? (fun f : Nat × Bytes => decide (f.1 = n)) [(num, bs)] =
        none := by
      intro bs
      simpa using fun h : num = n => hn h.symm
    rw [hlast] at hb ⊢
    simpa using hb

theorem append_eq_ok (hw : w.Fresh first) (hold : ∀ b ∈ old, b.1 ≤ first) {value : Bytes}
    (hlen : value.length < 2 ^ 32) {expiresAt : Time} {ptr : BlobPointer}
    (h : w.append value expiresAt = .ok (ptr, w')) :
    w'.Fresh first ∧ BlobsExtend (old ++ w.files) (old ++ w'.files) ∧
      LevisDB.blobBytes (old ++ w'.files) ptr = some value ∧ ptr.expiresAt = expiresAt := by
  unfold append at h
  obtain ⟨w₁, hopen, h⟩ := bind_eq_ok.1 h
  obtain ⟨hf₁, num, bytes, hcur, hsize, hfiles⟩ := opened_eq_ok hw hopen
  rw [hcur] at h
  cases h
  dsimp only [getD_some]
  have hsplit : w₁.files = w₁.finished ++ [(num, bytes)] := by simp [files, hcur]
  have hnum := hf₁.nums (num, bytes) (by simp [hsplit])
  have hne : ∀ b ∈ old ++ w₁.finished, b.1 ≠ num := by
    intro b hb heq
    rcases mem_append.1 hb with hb | hb
    · have := hold b hb
      simp only at hnum
      omega
    · have hnd := hf₁.nodup
      rw [hsplit, map_append, nodup_append] at hnd
      exact hnd.2.2 b.1 (List.mem_map.2 ⟨b, hb, rfl⟩) num (by simp) heq
  have hgrow := blobsExtend_grow num bytes value hne
  have hwiden : BlobsExtend (old ++ w.files) (old ++ w₁.files) := by
    rcases hfiles with rfl | hfiles
    · exact BlobsExtend.refl _
    · rw [hfiles, ← append_assoc]
      exact blobsExtend_append _
  refine ⟨⟨hf₁.alloc, hf₁.bound, ?_, ?_, hf₁.roll⟩, ?_, ?_, rfl⟩
  · intro f hf
    simp only [files, toList_some, mem_append, mem_singleton] at hf
    rcases hf with hf | rfl
    · exact hf₁.nums f (by simp [hsplit, hf])
    · exact hnum
  · have hnd := hf₁.nodup
    rw [hsplit] at hnd
    simpa [files] using hnd
  · refine hwiden.trans ?_
    rw [hsplit, ← append_assoc]
    simpa [files, append_assoc] using hgrow
  · have hnum32 : num < 2 ^ 32 := by
      have := hf₁.bound
      simp only at hnum
      omega
    unfold LevisDB.blobBytes
    have hn : (UInt32.ofNat num).toNat = num := UInt32.toNat_ofNat_of_lt' (by simpa using hnum32)
    have hoff : (UInt64.ofNat bytes.length).toNat = bytes.length :=
      UInt64.toNat_ofNat_of_lt' (by show bytes.length < 2 ^ 64; omega)
    have hl : (UInt32.ofNat value.length).toNat = value.length :=
      UInt32.toNat_ofNat_of_lt' (by simpa using hlen)
    simp only [hn, hoff, hl]
    have hfind : (old ++ files { w₁ with cur := some (num, bytes ++ value) }).find?
        (fun f => decide (f.1 = num)) = some (num, bytes ++ value) := by
      simpa [files, append_assoc] using find?_last num (bytes ++ value) hne
    rw [hfind, bind_some, if_pos (by simp)]
    simp

end BlobWriter

/-- How a flush stores an entry: unchanged, or as a pointer to its bytes. -/
inductive StoredAs (blobs : List (Nat × Bytes)) (e : Entry) : Entry → Prop
  | inline : StoredAs blobs e e
  | separated {ptr : BlobPointer} {raw : Bytes}
      (hkind : e.kind = .set ∧ raw = e.value ∧ ptr.expiresAt = 0 ∨
        e.kind = .setTTL ∧ decodeExpiringValue e.value = .ok (raw, ptr.expiresAt))
      (hbytes : blobBytes blobs ptr = some raw) :
      StoredAs blobs e ⟨⟨e.user, e.seq, .blobRef⟩, encodeBlobPointer ptr⟩

namespace StoredAs

variable {blobs blobs' : List (Nat × Bytes)} {e e' : Entry}

section

variable (h : StoredAs blobs e e')
include h

theorem user : e'.user = e.user := by
  cases h <;> rfl

theorem seq : e'.seq = e.seq := by
  cases h <;> rfl

theorem extend (hext : BlobsExtend blobs blobs') :
    StoredAs blobs' e e' := by
  cases h with
  | inline => exact .inline
  | separated hkind hbytes => exact .separated hkind (hext.blobBytes hbytes)

theorem bytesAt (t : Time) :
    e'.payload.bytesAt blobs t = e.payload.bytesAt blobs t := by
  cases h with
  | inline => rfl
  | @separated ptr raw hkind hbytes =>
    have hstored : (Entry.payload ⟨⟨e.user, e.seq, .blobRef⟩, encodeBlobPointer ptr⟩).bytesAt
        blobs t = if ptr.expiresAt ≠ 0 ∧ ptr.expiresAt ≤ t then none
          else some (raw, ptr.expiresAt) := by
      simp only [Payload.bytesAt, Payload.liveAt, Entry.payload, decodeBlobPointer_encode]
      split_ifs
      · rfl
      · simp [liveReference, hbytes]
    rw [hstored]
    rcases hkind with ⟨hk, rfl, hexp⟩ | ⟨hk, hdec⟩
    · simp [Payload.bytesAt, Payload.liveAt, Entry.payload, hk, hexp, liveReference]
    · have hpos := decodeExpiringValue_pos hdec
      simp only [Payload.bytesAt, Payload.liveAt, Entry.payload, hk, hdec]
      have hne : ptr.expiresAt ≠ 0 := ne_of_gt hpos
      split_ifs with h₁ h₂ h₂
      · rfl
      · exact absurd h₁.2 h₂
      · exact absurd ⟨hne, h₂⟩ h₁
      · rfl

theorem dead (t : Time) : e'.payload.liveAt t = none ↔ e.payload.liveAt t = none := by
  cases h with
  | inline => rfl
  | @separated ptr raw hkind _ =>
    simp only [Payload.liveAt, Entry.payload, decodeBlobPointer_encode]
    rcases hkind with ⟨hk, rfl, hexp⟩ | ⟨hk, hdec⟩
    · simp [hk, hexp]
    · have hne : ptr.expiresAt ≠ 0 := ne_of_gt (decodeExpiringValue_pos hdec)
      simp [hk, hdec, hne]

theorem decodes (he : e.payload.Decodes) : e'.payload.Decodes := by
  cases h with
  | inline => exact he
  | @separated ptr raw hkind hbytes =>
    refine ⟨ptr, decodeBlobPointer_encode ptr, ?_⟩
    rcases hkind with ⟨_, _, hexp⟩ | ⟨_, hdec⟩
    · exact le_of_eq hexp.symm
    · exact le_of_lt (decodeExpiringValue_pos hdec)

end

end StoredAs

section Write

variable {threshold : Int} {first : Nat} {old : List (Nat × Bytes)} {bw bw' : BlobWriter}
  {e e' : Entry}

theorem divert_eq_ok (hbw : bw.Fresh first) (hold : ∀ b ∈ old, b.1 ≤ first) {raw : Bytes}
    (hlen : raw.length < 2 ^ 32) {expiresAt : Time}
    (hkind : e.kind = .set ∧ raw = e.value ∧ expiresAt = 0 ∨
      e.kind = .setTTL ∧ decodeExpiringValue e.value = .ok (raw, expiresAt))
    (h : divert threshold bw e raw expiresAt = .ok (e', bw')) :
    bw'.Fresh first ∧ BlobsExtend (old ++ bw.files) (old ++ bw'.files) ∧
      StoredAs (old ++ bw'.files) e e' := by
  unfold divert at h
  split_ifs at h
  · cases h
    exact ⟨hbw, BlobsExtend.refl _, .inline⟩
  · obtain ⟨⟨ptr, bw₁⟩, happ, h⟩ := bind_eq_ok.1 h
    cases h
    obtain ⟨hf, hext, hbytes, hexp⟩ := BlobWriter.append_eq_ok hbw hold hlen happ
    rw [← hexp] at hkind
    exact ⟨hf, hext, .separated hkind hbytes⟩

theorem maybeSeparateValue_eq_ok (hbw : bw.Fresh first) (hold : ∀ b ∈ old, b.1 ≤ first)
    (hlen : e.value.length < 2 ^ 32) {obw : Option BlobWriter}
    (h : maybeSeparateValue threshold (some bw) e = .ok (e', obw)) :
    ∃ bw', obw = some bw' ∧ bw'.Fresh first ∧ BlobsExtend (old ++ bw.files) (old ++ bw'.files) ∧
      StoredAs (old ++ bw'.files) e e' := by
  have hmap : ∀ {x : Except Err (Entry × BlobWriter)},
      x.map (fun r => (r.1, some r.2)) = .ok (e', obw) → ∃ bw', obw = some bw' ∧
        x = .ok (e', bw') := by
    intro x hx
    cases x with
    | error err => cases hx
    | ok r =>
      cases hx
      exact ⟨r.2, rfl, rfl⟩
  unfold maybeSeparateValue at h
  cases hk : e.kind with
  | set =>
    simp only [hk] at h
    obtain ⟨bw', rfl, hdiv⟩ := hmap h
    exact ⟨bw', rfl, divert_eq_ok hbw hold hlen (Or.inl ⟨hk, rfl, rfl⟩) hdiv⟩
  | setTTL =>
    simp only [hk] at h
    obtain ⟨⟨raw, expiresAt⟩, hdec, h⟩ := bind_eq_ok.1 h
    obtain ⟨bw', rfl, hdiv⟩ := hmap h
    have hraw : raw.length < 2 ^ 32 := by
      have := decodeExpiringValue_length hdec
      omega
    exact ⟨bw', rfl, divert_eq_ok hbw hold hraw (Or.inr ⟨hk, hdec⟩) hdiv⟩
  | delete | blobRef =>
    simp only [hk] at h
    cases h
    exact ⟨bw, rfl, hbw, BlobsExtend.refl _, .inline⟩

def blobFiles : Option BlobWriter → List (Nat × Bytes)
  | none => []
  | some bw => bw.files

theorem writeEntries_eq_ok {es : List Entry} {w w' : TableWriter} {obw obw' : Option BlobWriter}
    (hbw : ∀ bw ∈ obw, bw.Fresh first) (hold : ∀ b ∈ old, b.1 ≤ first)
    (hlen : ∀ e ∈ es, e.value.length < 2 ^ 32)
    (h : writeEntries threshold w obw es = .ok (w', obw')) :
    (∀ bw ∈ obw', bw.Fresh first) ∧ obw'.isSome = obw.isSome ∧
      BlobsExtend (old ++ blobFiles obw) (old ++ blobFiles obw') ∧
      ∃ stored, w'.added = w.added ++ stored ∧
        List.Forall₂ (StoredAs (old ++ blobFiles obw')) es stored := by
  induction es generalizing w obw with
  | nil =>
    cases h
    exact ⟨hbw, rfl, BlobsExtend.refl _, [], by simp, .nil⟩
  | cons e es ih =>
    unfold writeEntries at h
    obtain ⟨⟨e', obw₁⟩, hsep, h⟩ := bind_eq_ok.1 h
    obtain ⟨w₁, hadd, h⟩ := bind_eq_ok.1 h
    have hstep : (∀ bw ∈ obw₁, bw.Fresh first) ∧ obw₁.isSome = obw.isSome ∧
        BlobsExtend (old ++ blobFiles obw) (old ++ blobFiles obw₁) ∧
        StoredAs (old ++ blobFiles obw₁) e e' := by
      cases obw with
      | none =>
        cases hsep
        exact ⟨hbw, rfl, BlobsExtend.refl _, .inline⟩
      | some bw =>
        obtain ⟨bw₁, rfl, hfresh, hext, hstored⟩ :=
          maybeSeparateValue_eq_ok (hbw bw rfl) hold (hlen e (by simp)) hsep
        exact ⟨fun b hb => Option.some.inj hb ▸ hfresh, rfl, hext, hstored⟩
    obtain ⟨hfresh, hsome, hext, hstored⟩ := hstep
    obtain ⟨hfresh', hsome', hext', stored, hadded, hall⟩ :=
      ih hfresh (fun e he => hlen e (by simp [he])) h
    refine ⟨hfresh', hsome'.trans hsome, hext.trans hext', e' :: stored, ?_, ?_⟩
    · rw [hadded, TableWriter.add_eq_ok hadd, append_assoc]
      rfl
    · exact .cons (hstored.extend hext') hall

theorem writeEntries_none {es : List Entry} {w w' : TableWriter} {obw' : Option BlobWriter}
    (h : writeEntries threshold w none es = .ok (w', obw')) :
    w'.added = w.added ++ es ∧ obw' = none := by
  induction es generalizing w with
  | nil =>
    cases h
    simp
  | cons e es ih =>
    unfold writeEntries at h
    obtain ⟨⟨e', obw₁⟩, hsep, h⟩ := bind_eq_ok.1 h
    cases hsep
    obtain ⟨w₁, hadd, h⟩ := bind_eq_ok.1 h
    obtain ⟨hadded, hnone⟩ := ih h
    refine ⟨?_, hnone⟩
    rw [hadded, TableWriter.add_eq_ok hadd, append_assoc]
    rfl

end Write

/-- What a written table is to the memtable it came from. -/
structure FlushOutput.Stores (s : Engine) (imm : Memtable) (out : FlushOutput) : Prop where
  num : out.table.num = s.alloc + 1
  depth : out.table.depth = 0
  bounded : out.table.Bounded
  healthy : out.table.reader.fault = none
  rangeDels : out.table.rangeDels = imm.rts
  points : List.Forall₂ (StoredAs (s.blobs ++ out.blobs)) imm.points out.table.points
  alloc : s.alloc + 1 ≤ out.alloc
  room : out.alloc ≤ 2 ^ 32 - 1
  blobNums : ∀ b ∈ out.blobs, s.alloc + 1 < b.1 ∧ b.1 ≤ out.alloc
  inline : valueSeparationOn s = false →
    out.blobs = [] ∧ out.table.points = imm.points ∧ out.alloc = s.alloc + 1

/-- What an engine holds outside its sealed memtable. -/
def Engine.unsealed (s : Engine) : List Entry :=
  memPoints (s.mem :: s.recoveryMems) ++ tablePoints s.tables

section Stores

variable {s : Engine} {imm : Memtable} {out : FlushOutput}

theorem exists_of_forall₂ {R : Entry → Entry → Prop} {es es' : List Entry}
    (h : List.Forall₂ R es es') {e' : Entry} (he' : e' ∈ es') : ∃ e ∈ es, R e e' := by
  induction h with
  | nil => cases he'
  | cons hstored _ ih =>
    rcases mem_cons.1 he' with rfl | he'
    · exact ⟨_, mem_cons_self, hstored⟩
    · obtain ⟨e, he, hs⟩ := ih he'
      exact ⟨e, mem_cons_of_mem _ he, hs⟩

theorem FlushOutput.Stores.source (h : out.Stores s imm) {e' : Entry}
    (he' : e' ∈ out.table.points) : ∃ e ∈ imm.points, StoredAs (s.blobs ++ out.blobs) e e' :=
  exists_of_forall₂ h.points he'

theorem FlushOutput.Stores.copy (h : out.Stores s imm) {e : Entry} (he : e ∈ imm.points) :
    ∃ e' ∈ out.table.points, StoredAs (s.blobs ++ out.blobs) e e' :=
  exists_of_forall₂ (R := flip (StoredAs _)) h.points.flip he

section Install

variable (himm : s.imm = some imm)
include himm

theorem Engine.mem_entries_sealed {e : Entry} :
    e ∈ s.entries ↔ e ∈ s.unsealed ∨ e ∈ imm.points := by
  simp only [entries, unsealed, memtables, himm, memPoints, toList_some, cons_append,
    nil_append, flatMap_cons, mem_append]
  tauto

theorem Engine.mem_memtables_installed {m : Memtable}
    (hm : m ∈ ((s.created out).installFlush out.table).memtables) : m ∈ s.memtables := by
  simp only [memtables, installFlush, created, himm, mem_cons, mem_append,
    toList_none, toList_some, nil_append] at hm ⊢
  tauto

theorem FlushOutput.Stores.mem_rangeDels (h : out.Stores s imm) {rt : RangeTombstone} :
    rt ∈ ((s.created out).installFlush out.table).rangeDels ↔ rt ∈ s.rangeDels := by
  simp only [Engine.rangeDels, Engine.memtables, Engine.installFlush, Engine.created, himm,
    memRangeDels, tableRangeDels, toList_none, toList_some, cons_append,
    nil_append, flatMap_cons, flatMap_append, h.rangeDels, mem_append]
  tauto

end Install

theorem Engine.mem_entries_installed {e : Entry} :
    e ∈ ((s.created out).installFlush out.table).entries ↔
      e ∈ s.unsealed ∨ e ∈ out.table.points := by
  simp only [entries, unsealed, memtables, installFlush, created, memPoints, tablePoints,
    toList_none, nil_append, flatMap_cons, flatMap_append, mem_append]
  tauto

end Stores

theorem writeTable_eq_ok {fmt : TableFormat} {s : Engine} {imm : Memtable} {out : FlushOutput}
    (hold : ∀ b ∈ s.blobs, b.1 ≤ s.alloc) (hroom : s.alloc ≤ 2 ^ 32 - 1)
    (hroll : s.cfg.blobFileSize < 2 ^ 63) (hlen : ∀ e ∈ imm.points, e.value.length < 2 ^ 32)
    (h : writeTable fmt s imm = .ok out) : out.Stores s imm := by
  have hmax : s.alloc ≠ 2 ^ 32 - 1 := by
    intro hmax
    rw [writeTable, allocNext, if_pos hmax] at h
    cases h
  rw [writeTable, allocNext, if_neg hmax] at h
  dsimp only at h
  have hold' : ∀ b ∈ s.blobs, b.1 ≤ s.alloc + 1 := fun b hb => Nat.le_succ_of_le (hold b hb)
  obtain ⟨⟨w, obw⟩, hwrite, h⟩ := bind_eq_ok.1 h
  cases hsep : valueSeparationOn s with
  | false =>
    simp only [hsep, Bool.false_eq_true, if_false] at hwrite
    obtain ⟨hadded, rfl⟩ := writeEntries_none hwrite
    cases h
    have hpoints : w.added = imm.points := by simpa [TableWriter.new] using hadded
    refine ⟨rfl, rfl, finishTable_bounded _ _ _ _ _ _, rfl, rfl, ?_, Nat.le_refl _, ?_, by simp,
      fun _ => ⟨rfl, hpoints, rfl⟩⟩
    · change List.Forall₂ _ imm.points w.added
      rw [hpoints]
      exact forall₂_same.2 fun e _ => .inline
    · change s.alloc + 1 ≤ _
      omega
  | true =>
    simp only [hsep, if_true] at hwrite
    have hfresh : ∀ bw ∈ some (BlobWriter.new (s.alloc + 1) s.cfg.blobFileSize),
        bw.Fresh (s.alloc + 1) := by
      intro bw hbw
      cases hbw
      exact BlobWriter.fresh_new (by omega) hroll
    obtain ⟨hfresh', hsome, _, stored, hadded, hall⟩ :=
      writeEntries_eq_ok hfresh hold' hlen hwrite
    obtain ⟨bw, rfl⟩ := isSome_iff_exists.1 (hsome.trans rfl)
    cases h
    have hbw := hfresh' bw rfl
    have hpoints : w.added = stored := by simpa [TableWriter.new] using hadded
    refine ⟨rfl, rfl, finishTable_bounded _ _ _ _ _ _, rfl, rfl, ?_, hbw.alloc, hbw.bound,
      hbw.nums, fun hoff => ?_⟩
    · change List.Forall₂ (StoredAs (s.blobs ++ bw.files)) imm.points w.added
      rw [hpoints]
      exact hall
    · rw [hsep] at hoff
      cases hoff

/-- One version strictly before another, whatever their kinds. -/
def VersionLt (a b : Entry) : Prop := a.user < b.user ∨ (a.user = b.user ∧ b.seq < a.seq)

theorem VersionLt.toIKey_lt {a b : Entry} (h : VersionLt a b) : a.toIKey < b.toIKey := by
  rcases h with h | ⟨h, hseq⟩
  · exact IKey.lt_def.2 (Or.inl h)
  · exact IKey.lt_def.2 (Or.inr ⟨h, IKey.trailer_lt_iff.2 (Or.inl hseq)⟩)

theorem IKeyOrder.versionLt {a b : Entry} (h : IKeyOrder a b)
    (hne : ¬ (a.user = b.user ∧ a.seq = b.seq)) : VersionLt a b := by
  rcases lt_or_eq_of_le h.user_le with hlt | heq
  · exact Or.inl hlt
  · have hle := h.seq_le heq
    exact Or.inr ⟨heq, lt_of_le_of_ne hle fun hs => hne ⟨heq, hs.symm⟩⟩

end LevisDB
