import LevisDB.Db.Batch

/-!
# Files built outside the database

`SstFileWriter` builds a table of points with strictly ascending keys, all at a
placeholder sequence. `IngestExternalFile` copies such a file into a table of the
bottom tier, stamping every entry with one fresh sequence, and refuses a file
whose key range meets a buffered key.
-/

namespace LevisDB

open List LevisDB.Except

/-- The sequence baked into the keys of a file that is not ingested yet. -/
def ingestBuildSeq : Nat := 1

structure SstFileWriter where
  tw : TableWriter
  lastKey : Option Key

inductive SstOp where
  | put (key : Key) (value : Bytes)
  | putWithExpiry (key : Key) (value : Bytes) (expiresAt : Time)
  | delete (key : Key)
  deriving DecidableEq

namespace SstOp

def key : SstOp → Key
  | .put key _ => key
  | .putWithExpiry key _ _ => key
  | .delete key => key

/-- The entry a call adds to the file. -/
def entry : SstOp → Entry
  | .put key value => ⟨⟨key, ingestBuildSeq, .set⟩, value⟩
  | .putWithExpiry key value expiresAt =>
    ⟨⟨key, ingestBuildSeq, .setTTL⟩, encodeExpiringValue value expiresAt⟩
  | .delete key => ⟨⟨key, ingestBuildSeq, .delete⟩, []⟩

/-- The value and deadline that a call leaves its key with at a time. -/
def answer (now : Time) : SstOp → Option (Bytes × Time)
  | .put _ value => some (value, 0)
  | .putWithExpiry _ value expiresAt => if expiresAt ≤ now then none else some (value, expiresAt)
  | .delete _ => none

theorem entry_user (op : SstOp) : op.entry.user = op.key := by cases op <;> rfl

theorem liveAt_entry {op : SstOp} (h : op.entry.payload.Decodes) (now : Time) :
    (op.entry.payload.liveAt now).bind (liveReference []) = op.answer now := by
  cases op with
  | put key value => rfl
  | delete key => rfl
  | putWithExpiry key value expiresAt =>
    obtain ⟨r, hr⟩ := h
    change decodeExpiringValue (encodeExpiringValue value expiresAt) = _ at hr
    rw [decodeExpiringValue_encode_eq] at hr
    split_ifs at hr with hpos
    simp only [entry, answer, Entry.payload, Payload.liveAt,
      decodeExpiringValue_encode_eq, if_neg hpos]
    split_ifs <;> rfl

end SstOp

namespace SstFileWriter

def new : SstFileWriter := ⟨.new, none⟩

def add (w : SstFileWriter) (key : Key) (value : Bytes) (kind : IKeyKind) :
    Except Err SstFileWriter :=
  if key = [] then .error .emptyKey
  else if ∃ last ∈ w.lastKey, key ≤ last then .error .sstKeyOrder
  else do
    let tw ← w.tw.add ⟨⟨key, ingestBuildSeq, kind⟩, value⟩
    pure ⟨tw, some key⟩

def put (w : SstFileWriter) (key : Key) (value : Bytes) : Except Err SstFileWriter :=
  w.add key value .set

def putWithExpiry (w : SstFileWriter) (key : Key) (value : Bytes) (expiresAt : Time) :
    Except Err SstFileWriter :=
  if expiresAt ≤ 0 then .error .invalidTTL
  else w.add key (encodeExpiringValue value expiresAt) .setTTL

def delete (w : SstFileWriter) (key : Key) : Except Err SstFileWriter := w.add key [] .delete

def apply (w : SstFileWriter) : SstOp → Except Err SstFileWriter
  | .put key value => w.put key value
  | .putWithExpiry key value expiresAt => w.putWithExpiry key value expiresAt
  | .delete key => w.delete key

def finish (w : SstFileWriter) (bloomBits : Int) : Except Err TableReader :=
  if w.tw.added = [] then .error .sstFinishEmpty else .ok (w.tw.finish bloomBits [])

end SstFileWriter

def buildSst (bloomBits : Int) (ops : List SstOp) : Except Err TableReader := do
  let w ← ops.foldlM SstFileWriter.apply .new
  w.finish bloomBits

def externalKeyRange (src : TableReader) : Except Err (Key × Key) :=
  match src.newIterator.err with
  | some err => .error (.wrapped "sst: scan external file" err)
  | none =>
    match src.newIterator.items.head?, src.newIterator.items.getLast? with
    | some first, some last => .ok (first.user, last.user)
    | _, _ => .error .sstExternalEmpty

/-- Refuses a key range that meets a buffered key. -/
def checkIngestOverlap (s : Engine) (minKey maxKey : Key) : Except Err Unit :=
  if s.mem.overlapsUserRange minKey maxKey = true ∨
      ∃ imm ∈ s.imm, imm.overlapsUserRange minKey maxKey = true then .error .ingestOverlap
  else .ok ()

def restamp (seq : Nat) (e : Entry) : Entry := ⟨⟨e.user, seq, e.kind⟩, e.value⟩

/-- Copies the file into a table of the bottom tier. -/
def writeIngestTable (fmt : TableFormat) (s : Engine) (num : Nat) (src : TableReader) (seq : Nat) :
    Except Err TableMeta := do
  let w ← src.newIterator.items.foldlM (fun w e => TableWriter.add w (restamp seq e)) .new
  match src.newIterator.err with
  | some err => .error (.wrapped "sst: read external file" err)
  | none =>
    pure {
      num := num
      depth := resolveMaxDepth s.cfg.maxLevels
      reader := w.finish s.cfg.bloomBits []
      size := fmt.fileSize w.added []
      minKey := w.minUserKey
      maxKey := w.maxUserKey
      entries := w.added.length
      tombstones := (w.added.filter fun e => decide (e.kind = .delete)).length }

/-- What `IngestExternalFile` does before it publishes: the table it wrote and the
sequence it reserved. -/
def prepareIngest (fmt : TableFormat) (s : Engine) (walSeq : Nat) (src : TableReader) :
    Except Err (TableMeta × Nat) := do
  let rts ← src.rangeTombstones
  if rts ≠ [] then .error .ingestRangeDeletes
  else do
    let (minKey, maxKey) ← externalKeyRange src
    checkIngestOverlap s minKey maxKey
    let seq ← reserveSeq walSeq 1
    match allocNext s.alloc with
    | none => .error .fileNumberExhausted
    | some num => do
        let table ← writeIngestTable fmt s num src seq
        pure (table, seq)

structure SstFileWriter.Built (w : SstFileWriter) : Prop where
  ascending : w.tw.added.Pairwise fun a b => a.user < b.user
  lastKey : w.lastKey = w.tw.added.getLast?.map (·.user)
  keys : ∀ e ∈ w.tw.added, e.user ≠ []
  kinds : ∀ e ∈ w.tw.added, e.kind ≠ .blobRef
  decodes : ∀ e ∈ w.tw.added, e.payload.Decodes

namespace SstFileWriter

variable {w w' : SstFileWriter}

theorem built_new : new.Built := ⟨List.Pairwise.nil, rfl, by simp [new, TableWriter.new],
  by simp [new, TableWriter.new], by simp [new, TableWriter.new]⟩

theorem Built.add (hw : w.Built) {key : Key} {value : Bytes} {kind : IKeyKind}
    (hkind : kind ≠ .blobRef) (hdec : (⟨kind, value⟩ : Payload).Decodes)
    (h : w.add key value kind = .ok w') :
    w'.Built ∧ w'.tw.added = w.tw.added ++ [⟨⟨key, ingestBuildSeq, kind⟩, value⟩] := by
  unfold SstFileWriter.add at h
  split_ifs at h with hempty horder
  obtain ⟨tw, htw, h⟩ := bind_eq_ok.1 h
  cases h
  have hadded := TableWriter.add_eq_ok htw
  have hbelow : ∀ a ∈ w.tw.added, a.user < key := by
    intro a ha
    rcases eq_nil_or_concat w.tw.added with hnil | ⟨init, l, hl⟩
    · rw [hnil] at ha
      cases ha
    · have hlast : w.lastKey = some l.user := by rw [hw.lastKey, hl]; simp
      have hlt : l.user < key := not_le.1 fun hle => horder ⟨l.user, hlast, hle⟩
      have hasc := hw.ascending
      rw [hl, concat_eq_append, pairwise_append] at hasc
      rw [hl, concat_eq_append, mem_append] at ha
      rcases ha with ha | ha
      · exact lt_trans (hasc.2.2 a ha l (by simp)) hlt
      · rwa [mem_singleton.1 ha]
  refine ⟨⟨?_, ?_, ?_, ?_, ?_⟩, hadded⟩
  · change tw.added.Pairwise _
    rw [hadded]
    refine pairwise_append.2 ⟨hw.ascending, pairwise_singleton _ _, ?_⟩
    intro a ha b hb
    obtain rfl := mem_singleton.1 hb
    exact hbelow a ha
  · change some key = tw.added.getLast?.map _
    rw [hadded]
    simp
  all_goals
    intro e he
    change e ∈ tw.added at he
    rw [hadded] at he
    rcases mem_append.1 he with he | he
  · exact hw.keys e he
  · obtain rfl := mem_singleton.1 he
    exact hempty
  · exact hw.kinds e he
  · obtain rfl := mem_singleton.1 he
    exact hkind
  · exact hw.decodes e he
  · obtain rfl := mem_singleton.1 he
    exact hdec

theorem Built.apply (hw : w.Built) {op : SstOp} (h : w.apply op = .ok w') :
    w'.Built ∧ w'.tw.added = w.tw.added ++ [op.entry] := by
  cases op with
  | put key value =>
    have hdec : (⟨.set, value⟩ : Payload).Decodes := trivial
    exact hw.add (by simp) hdec h
  | delete key =>
    have hdec : (⟨.delete, []⟩ : Payload).Decodes := trivial
    exact hw.add (by simp) hdec h
  | putWithExpiry key value expiresAt =>
    change (if expiresAt ≤ 0 then _ else _) = _ at h
    split_ifs at h with hexp
    have hdec : (⟨.setTTL, encodeExpiringValue value expiresAt⟩ : Payload).Decodes :=
      ⟨_, decodeExpiringValue_encode (not_le.1 hexp)⟩
    exact hw.add (by simp) hdec h

theorem Built.foldlM {ops : List SstOp} (hw : w.Built)
    (h : ops.foldlM SstFileWriter.apply w = .ok w') :
    w'.Built ∧ w'.tw.added = w.tw.added ++ ops.map SstOp.entry := by
  induction ops generalizing w with
  | nil =>
    cases h
    exact ⟨hw, (append_nil _).symm⟩
  | cons op ops ih =>
    rw [foldlM_cons] at h
    obtain ⟨w₁, hop, h⟩ := bind_eq_ok.1 h
    obtain ⟨hw₁, hadded⟩ := hw.apply hop
    obtain ⟨hw', hrest⟩ := ih hw₁ h
    exact ⟨hw', by rw [hrest, hadded, map_cons, append_assoc, singleton_append]⟩

end SstFileWriter

/-- A file that can be ingested: points only, keys strictly ascending. -/
structure ExternalFile (src : TableReader) : Prop where
  ascending : src.points.Pairwise fun a b => a.user < b.user
  keys : ∀ e ∈ src.points, e.user ≠ []
  kinds : ∀ e ∈ src.points, e.kind ≠ .blobRef
  decodes : ∀ e ∈ src.points, e.payload.Decodes
  rangeDel : src.rangeDel = []
  healthy : src.fault = none
  nonempty : src.points ≠ []

theorem SstFileWriter.Built.finish {w : SstFileWriter} (hw : w.Built) {bloomBits : Int}
    {src : TableReader} (h : w.finish bloomBits = .ok src) :
    ExternalFile src ∧ src.points = w.tw.added := by
  unfold SstFileWriter.finish at h
  split_ifs at h with hne
  cases h
  exact ⟨⟨hw.ascending, hw.keys, hw.kinds, hw.decodes, rfl, rfl, hne⟩, rfl⟩

theorem buildSst_eq_ok {bloomBits : Int} {ops : List SstOp} {src : TableReader}
    (h : buildSst bloomBits ops = .ok src) :
    ExternalFile src ∧ src.points = ops.map SstOp.entry := by
  obtain ⟨w, hw, h⟩ := bind_eq_ok.1 h
  obtain ⟨hbuilt, hadded⟩ := SstFileWriter.built_new.foldlM hw
  obtain ⟨hsrc, hpoints⟩ := hbuilt.finish h
  exact ⟨hsrc, hpoints.trans hadded⟩

theorem foldlM_add_eq_ok {es : List Entry} {f : Entry → Entry} {w w' : TableWriter}
    (h : es.foldlM (fun w e => TableWriter.add w (f e)) w = .ok w') :
    w'.added = w.added ++ es.map f := by
  induction es generalizing w with
  | nil =>
    cases h
    simp
  | cons e es ih =>
    rw [foldlM_cons] at h
    obtain ⟨w₁, hadd, h⟩ := bind_eq_ok.1 h
    rw [ih h, TableWriter.add_eq_ok hadd]
    simp

theorem TableWriter.bounded {w : TableWriter} {t : TableMeta} (hpoints : t.points = w.added)
    (hmin : t.minKey = w.minUserKey) (hmax : t.maxKey = w.maxUserKey) (hrts : t.rangeDels = []) :
    t.Bounded where
  points e he := by
    rw [hpoints] at he
    refine boundsContain_iff.2 ⟨fun k hk => ?_, fun k hk => ?_⟩
    · exact w.minUserKey_le (hmin ▸ hk) he
    · exact w.le_maxUserKey (hmax ▸ hk) he
  rangeDels rt hrt := by
    rw [hrts] at hrt
    cases hrt

structure Ingested (s : Engine) (walSeq : Nat) (src : TableReader) (table : TableMeta) (seq : Nat) :
    Prop where
  reserved : seq = walSeq + 1
  seqMax : seq ≤ maxIKeySeq
  num : table.num = s.alloc + 1
  room : s.alloc + 1 ≤ 2 ^ 32 - 1
  depth : table.depth = resolveMaxDepth s.cfg.maxLevels
  bounded : table.Bounded
  healthy : table.reader.fault = none
  points : table.points = src.points.map (restamp seq)
  rangeDels : table.rangeDels = []
  apart : ∀ m ∈ s.mem :: s.imm.toList, ∀ e ∈ m.points, ∀ p ∈ src.points, e.user ≠ p.user

theorem externalKeyRange_eq_ok {src : TableReader} {minKey maxKey : Key}
    (h : externalKeyRange src = .ok (minKey, maxKey)) :
    src.newIterator.err = none ∧ ∀ e ∈ src.points, minKey ≤ e.user ∧ e.user ≤ maxKey := by
  unfold externalKeyRange at h
  cases herr : src.newIterator.err with
  | some err => simp [herr] at h
  | none =>
    simp only [herr] at h
    rw [TableReader.newIterator_items herr] at h
    refine ⟨rfl, fun e he => ?_⟩
    cases hfirst : src.points.head? with
    | none => simp [hfirst] at h
    | some first =>
      cases hlast : src.points.getLast? with
      | none => simp [hfirst, hlast] at h
      | some last =>
        simp only [hfirst, hlast, Except.ok.injEq, Prod.mk.injEq] at h
        obtain ⟨rfl, rfl⟩ := h
        have hmin : (⟨src.points, src.sorted⟩ : TableWriter).minUserKey = some first.user := by
          simp [TableWriter.minUserKey, hfirst]
        have hmax : (⟨src.points, src.sorted⟩ : TableWriter).maxUserKey = some last.user := by
          simp [TableWriter.maxUserKey, hlast]
        exact ⟨TableWriter.minUserKey_le hmin he, TableWriter.le_maxUserKey hmax he⟩

theorem prepareIngest_eq_ok {fmt : TableFormat} {s : Engine} {walSeq : Nat} {src : TableReader}
    {table : TableMeta} {seq : Nat} (hroom : s.alloc ≤ 2 ^ 32 - 1)
    (hseqs : ∀ m ∈ s.mem :: s.imm.toList, ∀ e ∈ m.points, e.seq ≤ maxIKeySeq)
    (h : prepareIngest fmt s walSeq src = .ok (table, seq)) : Ingested s walSeq src table seq := by
  obtain ⟨rts, _, h⟩ := bind_eq_ok.1 h
  split_ifs at h
  obtain ⟨⟨minKey, maxKey⟩, hrange, h⟩ := bind_eq_ok.1 h
  obtain ⟨_, hoverlap, h⟩ := bind_eq_ok.1 h
  obtain ⟨seq', hreserve, h⟩ := bind_eq_ok.1 h
  obtain ⟨herr, hbounds⟩ := externalKeyRange_eq_ok hrange
  cases halloc : allocNext s.alloc with
  | none => simp [halloc] at h
  | some num =>
    simp only [halloc] at h
    obtain ⟨table', htable, h⟩ := bind_eq_ok.1 h
    obtain ⟨rfl, rfl⟩ := Prod.mk.inj (Except.ok.inj h)
    obtain ⟨w, hw, htable⟩ := bind_eq_ok.1 htable
    simp only [herr] at htable
    obtain rfl := Except.ok.inj htable
    have hadded := foldlM_add_eq_ok hw
    rw [TableReader.newIterator_items herr] at hadded
    have hpoints : w.added = src.points.map (restamp seq') := by
      simpa [TableWriter.new] using hadded
    have hnum : num = s.alloc + 1 ∧ s.alloc + 1 ≤ 2 ^ 32 - 1 := by
      unfold allocNext at halloc
      split_ifs at halloc with hmax
      exact ⟨(Option.some.inj halloc).symm, by omega⟩
    have hseq : seq' = walSeq + 1 ∧ seq' ≤ maxIKeySeq := by
      unfold reserveSeq at hreserve
      split_ifs at hreserve with hfull
      have := Except.ok.inj hreserve
      omega
    refine ⟨hseq.1, hseq.2, hnum.1, hnum.2, rfl, TableWriter.bounded rfl rfl rfl rfl, rfl, hpoints,
      rfl, fun m hm e he p hp hsame => ?_⟩
    have hno : m.overlapsUserRange minKey maxKey = false := by
      unfold checkIngestOverlap at hoverlap
      split_ifs at hoverlap with hmeet
      rcases mem_cons.1 hm with rfl | hm
      · simpa using fun hm => hmeet (Or.inl hm)
      · simpa using fun hov => hmeet (Or.inr ⟨m, Option.mem_toList.1 hm, hov⟩)
    have hrangep := hbounds p hp
    rw [← hsame] at hrangep
    have hmeet := (Memtable.overlapsUserRange_iff (hseqs m hm)).2 ⟨e, he, hrangep⟩
    exact absurd hmeet (by simp [hno])

end LevisDB
