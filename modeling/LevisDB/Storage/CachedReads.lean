import LevisDB.Storage.BlockCache
import LevisDB.Storage.TableSafety

/-!
# Reads through the block cache

A reader looks for a data block in the cache under its table's number and the
offset of the block, and only then in the file.
-/

namespace LevisDB

open List

namespace TableFile

open Checked (ends_any ends_refuse)

/-- The blocks parsed so far start one behind the other, in front of the next offset. -/
structure IndexState.Ascends (s : IndexState) : Prop where
  ents : s.ents.Pairwise fun a b => a.offset < b.offset
  next : ∀ e ∈ s.ents, e.offset < s.nextOffset

theorem checkDataHandle_gives (file : Bytes) (dataEnd nextOffset : Nat) (h : BlockHandle) :
    Checked.Ends (fun _ => False) (fun _ => h.offset = nextOffset ∧ 0 < h.length)
      (checkDataHandle file dataEnd nextOffset h) := by
  refine (ends_any _).bind fun _ _ => ?_
  refine (ends_any _).bind fun _ _ => ?_
  refine (ends_refuse id).bind fun _ hlength => ?_
  refine (ends_any _).bind fun _ _ => ?_
  refine (ends_refuse id).bind fun _ hoffset => ?_
  refine (ends_any _).bind fun _ _ => ?_
  refine (ends_any _).mono fun _ _ => ⟨not_not.1 hoffset, ?_⟩
  unfold blockTrailerLen at hlength
  omega

theorem parseEntry_gives (file payload : Bytes) (dataEnd : Nat) {s : IndexState} (hs : s.Ascends) :
    Checked.Ends (fun _ => False) IndexState.Ascends (parseEntry file payload dataEnd s) := by
  refine (ends_any _).bind fun r _ => ?_
  refine (ends_any _).bind fun _ _ => ?_
  refine (ends_any _).bind fun _ _ => ?_
  refine (ends_any _).bind fun _ _ => ?_
  refine (ends_any _).bind fun _ _ => ?_
  refine (ends_any _).bind fun _ _ => ?_
  refine (ends_any _).bind fun _ _ => ?_
  refine (ends_any _).bind fun h _ => ?_
  refine (checkDataHandle_gives file dataEnd s.nextOffset h).bind fun _ hblock => ?_
  refine (ends_any _).bind fun _ _ => ?_
  refine (ends_any _).bind fun _ _ => ?_
  refine ⟨pairwise_append.2 ⟨hs.ents, pairwise_singleton _ _, ?_⟩, ?_⟩
  · intro a ha b hb
    obtain rfl := mem_singleton.1 hb
    exact (hs.next a ha).trans_eq hblock.1.symm
  · intro e he
    change e.offset < h.offset + h.length
    rcases mem_append.1 he with he | he
    · have hlt := hs.next e he
      omega
    · obtain rfl := mem_singleton.1 he
      change h.offset < h.offset + h.length
      omega

theorem parseIndex_gives (file payload : Bytes) (dataEnd : Nat) :
    Checked.Ends (fun _ => False) (fun ents => ents.Pairwise fun a b => a.offset < b.offset)
      (parseIndex file payload dataEnd) := by
  refine Checked.ends_loop_any IndexState.Ascends ?_ _ ⟨List.Pairwise.nil, fun e he =>
    (by cases he)⟩
  intro s hs
  unfold parseStep
  split
  · exact (parseEntry_gives file payload dataEnd hs).bind fun s' hs' => hs'
  · exact (ends_any _).bind fun _ _ => hs.ents

def TableReader.Ascends (cs : Codecs) (tr : TableReader) : Prop :=
  ∀ m, tr.ensureMeta cs = .ok m → m.indexEnt.Pairwise fun a b => a.offset < b.offset

theorem TableReader.loadMeta_gives (cs : Codecs) (tr : TableReader) :
    Checked.Ends (fun _ => False) (fun m => m.indexEnt.Pairwise fun a b => a.offset < b.offset)
      (tr.loadMeta cs) := by
  refine (ends_any _).bind fun _ _ => ?_
  refine (ends_any _).bind fun _ _ => ?_
  refine (ends_any _).bind fun _ _ => ?_
  refine ((parseIndex_gives _ _ _).mapError fun _ => id).bind fun ents hents => ?_
  exact (ends_any _).bind fun _ _ => hents

theorem newTableReaderOpt_gives (cs : Codecs) (file : Bytes) (lazyMeta : Bool) :
    Checked.Ends (fun _ => False) (TableReader.Ascends cs) (newTableReaderOpt cs file lazyMeta) :=
    by
  refine (ends_any _).bind fun _ _ => ?_
  refine (ends_any _).bind fun _ _ => ?_
  refine (ends_any _).bind fun _ _ => ?_
  refine (ends_any _).bind fun handles _ => ?_
  refine (ends_any _).bind fun _ _ => ?_
  refine (ends_any _).bind fun _ _ => ?_
  dsimp only
  split
  · exact fun m hm => (TableReader.loadMeta_gives cs _).of_ok hm
  · refine (TableReader.loadMeta_gives cs _).bind fun m hm m' hm' => ?_
    cases hm'
    exact hm

def TableReader.IsBlock (cs : Codecs) (tr : TableReader) (h : BlockHandle) : Prop :=
  ∃ m i, tr.ensureMeta cs = .ok m ∧ m.blockHandleAt i = .ok h

theorem MetaBlocks.blockHandleAt_mem {m : MetaBlocks} {i : Nat} {h : BlockHandle}
    (hi : m.blockHandleAt i = .ok h) : ∃ e ∈ m.indexEnt, h = ⟨e.offset, e.length⟩ := by
  unfold MetaBlocks.blockHandleAt at hi
  cases he : m.indexEnt[i]? with
  | none => simp [he] at hi
  | some e =>
    rw [he] at hi
    exact ⟨e, mem_of_getElem? he, (Except.ok.inj hi).symm⟩

theorem TableReader.Ascends.block_eq {cs : Codecs} {tr : TableReader} (h : tr.Ascends cs)
    {b b' : BlockHandle} (hb : tr.IsBlock cs b) (hb' : tr.IsBlock cs b')
    (hoffset : b.offset = b'.offset) : b = b' := by
  obtain ⟨m, i, hm, hi⟩ := hb
  obtain ⟨m', j, hm', hj⟩ := hb'
  obtain rfl := Except.ok.inj (hm.symm.trans hm')
  obtain ⟨e, he, rfl⟩ := MetaBlocks.blockHandleAt_mem hi
  obtain ⟨e', he', rfl⟩ := MetaBlocks.blockHandleAt_mem hj
  have hnodup : (m.indexEnt.map IndexEntry.offset).Nodup :=
    pairwise_map.2 ((h m hm).imp fun hlt => Nat.ne_of_lt hlt)
  rw [inj_on_of_nodup_map hnodup he he' hoffset]

structure CachedTable where
  num : Nat
  reader : TableReader

/-- A block's payload: from the cache, or from the file and into the cache. -/
def readBlock (cs : Codecs) (cache : Option BlockCache) (t : CachedTable) (h : BlockHandle) :
    Option (Except Err Bytes × Option BlockCache) :=
  match cache with
  | none => some (readBlockRaw cs t.reader.file h, none)
  | some c =>
    (c.get ⟨t.num, h.offset⟩).bind fun r =>
      match r.1 with
      | some payload => some (.ok payload, some r.2)
      | none =>
        match readBlockRaw cs t.reader.file h with
        | .error err => some (.error err, some r.2)
        | .ok payload =>
          (r.2.add ⟨t.num, h.offset⟩ payload).map fun c' => (.ok payload, some c')

def readBlocks (cs : Codecs) : Option BlockCache → List (CachedTable × BlockHandle) →
    Option (List (Except Err Bytes) × Option BlockCache)
  | cache, [] => some ([], cache)
  | cache, (t, h) :: reads =>
    (readBlock cs cache t h).bind fun r =>
      (readBlocks cs r.2 reads).map fun rs => (r.1 :: rs.1, rs.2)

/-- The payload of a block of one of the tables, under the key of that block. -/
def Stored (cs : Codecs) (tables : List CachedTable) (key : BlockCacheKey) (value : Bytes) : Prop :=
  ∃ t ∈ tables, ∃ b, t.num = key.table ∧ b.offset = key.offset ∧ t.reader.IsBlock cs b ∧
    readBlockRaw cs t.reader.file b = .ok value

structure Tables (cs : Codecs) (tables : List CachedTable) : Prop where
  nums : (tables.map CachedTable.num).Nodup
  opened : ∀ t ∈ tables, ∃ file lazyMeta, newTableReaderOpt cs file lazyMeta = .ok t.reader

variable {cs : Codecs} {tables : List CachedTable}

theorem Tables.ascends (h : Tables cs tables) {t : CachedTable} (ht : t ∈ tables) :
    t.reader.Ascends cs := by
  obtain ⟨file, lazyMeta, hopen⟩ := h.opened t ht
  exact (newTableReaderOpt_gives cs file lazyMeta).of_ok hopen

theorem Tables.stored (h : Tables cs tables) {t : CachedTable} (ht : t ∈ tables) {b : BlockHandle}
    (hb : t.reader.IsBlock cs b) {value : Bytes}
    (hvalue : Stored cs tables ⟨t.num, b.offset⟩ value) :
    readBlockRaw cs t.reader.file b = .ok value := by
  obtain ⟨t', ht', b', hnum, hoffset, hb', hread⟩ := hvalue
  obtain rfl := inj_on_of_nodup_map h.nums ht' ht hnum
  obtain rfl := (h.ascends ht).block_eq hb' hb hoffset
  exact hread

/-- No cache, or one that holds only what the tables have. -/
def Coherent (cs : Codecs) (tables : List CachedTable) (cache : Option BlockCache) : Prop :=
  ∀ c, cache = some c → ∃ uses, c.Sound uses (Stored cs tables)

theorem readBlock_eq (h : Tables cs tables) {cache : Option BlockCache}
    (hcache : Coherent cs tables cache) {t : CachedTable} (ht : t ∈ tables) {b : BlockHandle}
    (hb : t.reader.IsBlock cs b) :
    ∃ cache', readBlock cs cache t b = some (readBlockRaw cs t.reader.file b, cache') ∧
      Coherent cs tables cache' := by
  unfold readBlock
  cases cache with
  | none => exact ⟨none, rfl, hcache⟩
  | some c =>
    obtain ⟨uses, hsound⟩ := hcache c rfl
    obtain ⟨r, c₁, hget, hhit, hsound₁, _⟩ := hsound.get ⟨t.num, b.offset⟩
    have hcoherent : ∀ {c' : BlockCache} {uses' : List BlockCacheKey},
        c'.Sound uses' (Stored cs tables) → Coherent cs tables (some c') :=
      fun hsound' c'' heq => ⟨_, Option.some.inj heq ▸ hsound'⟩
    dsimp only
    rw [hget, Option.bind_some]
    cases r with
    | some payload =>
      rw [h.stored ht hb (hhit payload rfl)]
      exact ⟨some c₁, rfl, hcoherent hsound₁⟩
    | none =>
      cases hread : readBlockRaw cs t.reader.file b with
      | error err => exact ⟨some c₁, rfl, hcoherent hsound₁⟩
      | ok payload =>
        obtain ⟨c₂, hadd, hsound₂, _⟩ :=
          hsound₁.add (show Stored cs tables ⟨t.num, b.offset⟩ payload from
            ⟨t, ht, b, rfl, rfl, hb, hread⟩)
        dsimp only
        rw [hadd]
        exact ⟨some c₂, rfl, hcoherent hsound₂⟩

theorem readBlocks_eq (h : Tables cs tables) {reads : List (CachedTable × BlockHandle)}
    (hreads : ∀ r ∈ reads, r.1 ∈ tables ∧ r.1.reader.IsBlock cs r.2) {cache : Option BlockCache}
    (hcache : Coherent cs tables cache) :
    ∃ cache', readBlocks cs cache reads =
      some (reads.map fun r => readBlockRaw cs r.1.reader.file r.2, cache') := by
  induction reads generalizing cache with
  | nil => exact ⟨cache, rfl⟩
  | cons r reads ih =>
    rw [forall_mem_cons] at hreads
    obtain ⟨cache₁, hread, hcache₁⟩ := readBlock_eq h hcache hreads.1.1 hreads.1.2
    obtain ⟨cache', hrest⟩ := ih hreads.2 hcache₁
    refine ⟨cache', ?_⟩
    rw [readBlocks, hread, Option.bind_some, hrest]
    rfl

/-- The cache is bounded, its lists and maps agree, it evicts what was used longest ago, and
reads through it return what the files have. -/
theorem blockCache_bounded_transparent :
    (∀ (capacity : Int) (sum : BlockCacheKey → UInt64) (ops : List CacheOp),
      ∃ u, Transition.exec UsedCache.step ⟨BlockCache.newBlockCache capacity sum, []⟩ ops = some u ∧
        (∀ (i : Nat) (s : CacheShard), u.cache.shards[i]? = some s →
          s.capacity = BlockCache.shardCapacity capacity i ∧
            ∃ ps, s.Lists ps ∧ s.size ≤ max s.capacity 0 ∧ Lru.Recent u.uses (s.contents ps)) ∧
        ∀ op, ∃ u', u.step op = some u' ∧ u.cache.Evicts u'.uses u'.cache) ∧
      ∀ (cs : Codecs) (tables : List CachedTable), Tables cs tables →
        ∀ (cache : Option (Int × (BlockCacheKey → UInt64)))
        (reads : List (CachedTable × BlockHandle)),
          (∀ r ∈ reads, r.1 ∈ tables ∧ r.1.reader.IsBlock cs r.2) →
            ∃ cache', readBlocks cs (cache.map fun c => BlockCache.newBlockCache c.1 c.2) reads =
              some (reads.map fun r => readBlockRaw cs r.1.reader.file r.2, cache') := by
  refine ⟨?_, ?_⟩
  · intro capacity sum ops
    obtain ⟨u, hrun, hsound, hcapacity⟩ :=
      UsedCache.run_sound (u := ⟨_, []⟩) (BlockCache.sound_new capacity sum fun _ _ => True) ops
    refine ⟨u, hrun, ?_, ?_⟩
    · intro i s hs
      obtain ⟨ps, hshard⟩ := hsound.shards i s hs
      exact ⟨(hsound.share i s hs).trans (by rw [hcapacity]), ps, hshard.toLists, hshard.bound,
        hshard.recent⟩
    · intro op
      obtain ⟨u', hstep, _, hevicts, _⟩ := UsedCache.step_sound hsound op
      exact ⟨u', hstep, hevicts⟩
  · intro cs tables htables cache reads hreads
    refine readBlocks_eq htables hreads ?_
    intro c hc
    obtain ⟨⟨capacity, sum⟩, _, rfl⟩ := Option.map_eq_some_iff.1 hc
    exact ⟨[], BlockCache.sound_new capacity sum _⟩

def oneEntryFile : Bytes :=
  (((oneEntry 16).flushDataBlock storeCodecs).indexPending.writeTail storeCodecs).w

def oneEntryReader : TableReader := ⟨oneEntryFile, ⟨40, 18⟩, ⟨26, 14⟩, ⟨0, 0⟩, none⟩

theorem blockCache_bounded_transparent_oneEntry :
    newTableReaderOpt storeCodecs oneEntryFile true = .ok oneEntryReader ∧
      ∃ cache', readBlocks storeCodecs (some (BlockCache.newBlockCache 4096 fun _ => 0))
          [(⟨7, oneEntryReader⟩, ⟨0, 26⟩), (⟨7, oneEntryReader⟩, ⟨0, 26⟩)] =
        some ([readBlockRaw storeCodecs oneEntryFile ⟨0, 26⟩,
          readBlockRaw storeCodecs oneEntryFile ⟨0, 26⟩], cache') := by
  have hopen : newTableReaderOpt storeCodecs oneEntryFile true = .ok oneEntryReader := by
    decide +kernel
  have hblock : oneEntryReader.IsBlock storeCodecs ⟨0, 26⟩ := by
    have hhandle : (oneEntryReader.ensureMeta storeCodecs).map (fun m => m.blockHandleAt 0) =
        .ok (.ok ⟨0, 26⟩) := by decide +kernel
    cases hmeta : oneEntryReader.ensureMeta storeCodecs with
    | error err =>
      rw [hmeta] at hhandle
      cases hhandle
    | ok m =>
      rw [hmeta] at hhandle
      exact ⟨m, 0, hmeta, Except.ok.inj hhandle⟩
  have htables : Tables storeCodecs [⟨7, oneEntryReader⟩] := by
    refine ⟨by simp, fun t ht => ?_⟩
    obtain rfl := mem_singleton.1 ht
    exact ⟨oneEntryFile, true, hopen⟩
  refine ⟨hopen, blockCache_bounded_transparent.2 storeCodecs [⟨7, oneEntryReader⟩] htables
    (some (4096, fun _ => 0)) [(⟨7, oneEntryReader⟩, ⟨0, 26⟩), (⟨7, oneEntryReader⟩, ⟨0, 26⟩)] ?_⟩
  intro r hr
  simp only [mem_cons, not_mem_nil, or_false, or_self] at hr
  subst hr
  exact ⟨mem_singleton_self _, hblock⟩

end TableFile

end LevisDB
