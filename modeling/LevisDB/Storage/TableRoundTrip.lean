import LevisDB.Storage.TableSafety
import LevisDB.Storage.TableWritten

/-!
# Tables read back

What a table writer was given is what every way of reading the table returns. An
iterator goes through the blocks, by way of the window it reads ahead or past
it, and yields all entries in order.
-/

namespace LevisDB

open List LevisDB.Except

namespace TableFile

variable {userKey : Key} {es : List Entry} {i seq : Nat}

open DataBlockBuilder DataBlockIter

variable {cs : Codecs} {cfg : TableWriterConfig} {rts : List RangeTombstone}
  {bs : List (List (Bytes × Bytes))}

theorem indexEntries_length (pos : Nat) (blocks : List (Bytes × BlockHandle)) :
    (indexEntries pos blocks).length = blocks.length := by
  induction blocks generalizing pos with
  | nil => rfl
  | cons b blocks ih =>
    rw [indexEntries, length_cons, ih, length_cons]

theorem indexEntries_getElem? (pre : Bytes) {sep : Bytes} {blocks : List (Bytes × BlockHandle)}
    {h : BlockHandle} (hget : blocks[i]? = some (sep, h)) :
    ∃ before after, pre ++ encodeIndex blocks = before ++ (sep ++ after) ∧
      (indexEntries pre.length blocks)[i]? =
        some ⟨UInt32.ofNat before.length, UInt32.ofNat sep.length, h.offset, h.length⟩ := by
  induction blocks generalizing pre i with
  | nil => cases hget
  | cons b blocks ih =>
    cases i with
    | zero =>
      obtain rfl : b = (sep, h) := by simpa using hget
      refine ⟨pre ++ Varint.put sep.length, encodeBytes h.encode ++ encodeIndex blocks, ?_, ?_⟩
      · simp [encodeIndex, encodeBytes]
      · rw [indexEntries, List.getElem?_cons_zero, length_append]
    | succ i =>
      obtain ⟨before, after, hsplit, hent⟩ :=
        ih (pre ++ (encodeBytes b.1 ++ encodeBytes b.2.encode)) (by simpa using hget)
      refine ⟨before, after, ?_, ?_⟩
      · rw [← hsplit, append_assoc]
        rfl
      · rw [length_append] at hent
        rw [indexEntries, List.getElem?_cons_succ]
        exact hent

theorem sep_eq {m : MetaBlocks} {blocks : List (Bytes × BlockHandle)}
    (hbuf : m.indexBuf = encodeIndex blocks) (hent : m.indexEnt = indexEntries 0 blocks)
    (hsmall : m.indexBuf.length < 2 ^ 32) {sep : Bytes} {h : BlockHandle}
    (hget : blocks[i]? = some (sep, h)) : m.sep i = .ok sep ∧ m.blockHandleAt i = .ok h := by
  obtain ⟨before, after, hsplit, hentry⟩ := indexEntries_getElem? [] hget
  rw [nil_append, ← hbuf] at hsplit
  rw [length_nil, ← hent] at hentry
  have hlen := congrArg List.length hsplit
  simp only [length_append] at hlen
  have hoff : (UInt32.ofNat before.length).toNat = before.length :=
    UInt32.toNat_ofNat_of_lt' (by change _ < 2 ^ 32; omega)
  have hsepLen : (UInt32.ofNat sep.length).toNat = sep.length :=
    UInt32.toNat_ofNat_of_lt' (by change _ < 2 ^ 32; omega)
  have hsum : (UInt32.ofNat before.length + UInt32.ofNat sep.length).toNat =
      before.length + sep.length := by
    rw [UInt32.toNat_add, hoff, hsepLen, Nat.mod_eq_of_lt (by omega)]
  refine ⟨?_, ?_⟩
  · unfold MetaBlocks.sep
    rw [hentry]
    dsimp only
    rw [hoff, hsum]
    exact slice_eq hsplit
  · unfold MetaBlocks.blockHandleAt
    rw [hentry]

theorem blockIndex_length (cs : Codecs) (c : CodecID) (off : Nat)
    (bs : List (List (Bytes × Bytes))) :
    (blockIndex cs c off bs).length = bs.length := by
  induction bs generalizing off with
  | nil => rfl
  | cons b bs ih => rw [blockIndex, length_cons, ih, length_cons]

theorem blockIndex_getElem? (cs : Codecs) (c : CodecID) (off : Nat) (hi : i < bs.length) :
    (blockIndex cs c off bs)[i]? = some (lastKeyOf [] bs[i],
      ⟨off + ((bs.take i).flatMap (storedBlock cs c)).length, (storedBlock cs c bs[i]).length⟩) :=
        by
  induction bs generalizing off i with
  | nil => cases hi
  | cons b bs ih =>
    cases i with
    | zero => rfl
    | succ i =>
      rw [blockIndex, List.getElem?_cons_succ, ih _ (Nat.lt_of_succ_lt_succ hi),
        take_succ_cons, flatMap_cons, length_append, Nat.add_assoc]
      rfl

theorem file_split (cs : Codecs) (cfg : TableWriterConfig) (rts : List RangeTombstone)
    (hi : i < bs.length) :
    ∃ post, (partsOf cs cfg rts bs).file = (bs.take i).flatMap (storedBlock cs cfg.codec) ++
      (storedBlock cs cfg.codec bs[i] ++ post) ∧ footerLen ≤ post.length := by
  have hdata : (partsOf cs cfg rts bs).data = (bs.take i).flatMap (storedBlock cs cfg.codec) ++
      (storedBlock cs cfg.codec bs[i] ++ (bs.drop (i + 1)).flatMap (storedBlock cs cfg.codec)) := by
    change bs.flatMap (storedBlock cs cfg.codec) = _
    conv_lhs => rw [← take_append_drop i bs, drop_eq_getElem_cons hi]
    rw [flatMap_append, flatMap_cons]
  refine ⟨(bs.drop (i + 1)).flatMap (storedBlock cs cfg.codec) ++
    ((partsOf cs cfg rts bs).rangeDel ++ ((partsOf cs cfg rts bs).filter ++
      ((partsOf cs cfg rts bs).index ++ TableWriter.encodeFooter (partsOf cs cfg rts bs).indexBH
        (partsOf cs cfg rts bs).filterBH (partsOf cs cfg rts bs).rangeDelBH))), ?_, ?_⟩
  · rw [Parts.file, Parts.blocks, hdata]
    simp only [append_assoc]
  · simp only [length_append, TableWriter.encodeFooter_length]
    omega

structure Readable (cs : Codecs) (cfg : TableWriterConfig) (bs : List (List (Bytes × Bytes))) :
    Prop where
  lossless : cs.Lossless
  nonempty : ∀ b ∈ bs, b ≠ []
  small : Small cs cfg bs
  writable : Writable bs.flatten

theorem Readable.stored (hr : Readable cs cfg bs) {b : List (Bytes × Bytes)} (hb : b ∈ bs) :
    ∀ e ∈ b, StoredKey e.1 := fun e he =>
  hr.writable.stored e (mem_flatten.2 ⟨b, hb, he⟩)

theorem Readable.index (hr : Readable cs cfg bs) (rts : List RangeTombstone)
    (hi : i < bs.length) :
    (metaOf cs cfg rts bs).sep i = .ok (lastKeyOf [] bs[i]) ∧
      (metaOf cs cfg rts bs).blockHandleAt i =
        .ok ⟨((bs.take i).flatMap (storedBlock cs cfg.codec)).length,
          (storedBlock cs cfg.codec bs[i]).length⟩ := by
  have hget := blockIndex_getElem? cs cfg.codec 0 hi
  rw [Nat.zero_add] at hget
  exact sep_eq rfl rfl hr.small.index hget

theorem metaOf_length (cs : Codecs) (cfg : TableWriterConfig) (rts : List RangeTombstone)
    (bs : List (List (Bytes × Bytes))) : (metaOf cs cfg rts bs).indexEnt.length = bs.length := by
  rw [metaOf, indexEntries_length, blockIndex_length]

/-- The window holds bytes of the file. -/
def TableIterator.Window (it : TableIterator) : Prop :=
  ∀ win, it.win = some win → slice it.tr.file it.winOff (it.winOff + win.length) = .ok win

theorem blockRaw_eq {it : TableIterator} (hwin : it.Window) {pre block post : Bytes}
    (hfile : it.tr.file = pre ++ (block ++ post)) (hpost : footerLen ≤ post.length) :
    ∃ win winOff, it.blockRaw ⟨pre.length, block.length⟩ =
        .ok (block, { it with win := win, winOff := winOff }) ∧
      TableIterator.Window { it with win := win, winOff := winOff } := by
  have hlen := congrArg List.length hfile
  simp only [length_append] at hlen
  have hblock := slice_eq hfile
  have hderef : deref it.tr.file ⟨pre.length, block.length⟩ = .ok () :=
    Checked.refuse_of_not (by dsimp only; omega)
  unfold TableIterator.blockRaw
  rw [hderef, ok_bind]
  dsimp only
  split_ifs with hlong hmiss
  · exact ⟨it.win, it.winOff, by rw [hblock]; rfl, hwin⟩
  · -- The window is filled from the start of the block.
    generalize hn : min (pre.length + tableReadAheadSize) it.tr.file.length - pre.length = n
    have hle : block.length ≤ n ∧ pre.length + n ≤ it.tr.file.length ∧ n ≤ tableReadAheadSize := by
      omega
    generalize hbuf : (it.tr.file.take (pre.length + n)).drop pre.length = buf
    have hfill : slice it.tr.file pre.length (pre.length + n) = .ok buf := by
      rw [← hbuf, slice, if_pos ⟨by omega, hle.2.1⟩]
    have hbufLen : buf.length = n := by
      rw [← hbuf, length_drop, length_take, Nat.min_eq_left hle.2.1]
      omega
    have hfilled : it.fillWindow ⟨pre.length, block.length⟩ =
        .ok { it with win := some buf, winOff := pre.length } := by
      unfold TableIterator.fillWindow
      dsimp only
      rw [subtract_of_le (by omega), ok_bind, hn, Checked.refuse_of_not (by omega),
        ok_bind, hfill]
      rfl
    refine ⟨some buf, pre.length, ?_, ?_⟩
    · rw [hfilled, ok_bind, subtract_of_le (Nat.le_refl _), ok_bind, Nat.sub_self]
      dsimp only [Option.getD_some]
      rw [slice_slice hfill (by omega) (by omega), Nat.add_zero, Nat.zero_add, hblock]
      rfl
    · intro win hw
      cases hw
      rw [hbufLen]
      exact hfill
  · obtain ⟨win, hw⟩ : ∃ win, it.win = some win := by
      cases hw : it.win with
      | none =>
        unfold TableIterator.misses at hmiss
        rw [hw] at hmiss
        exact absurd trivial hmiss
      | some win => exact ⟨win, rfl⟩
    have hin : it.winOff ≤ pre.length ∧ pre.length + block.length ≤ it.winOff + win.length := by
      unfold TableIterator.misses at hmiss
      rw [hw] at hmiss
      dsimp only at hmiss
      omega
    have hraw : slice (it.win.getD []) (pre.length - it.winOff)
        (pre.length - it.winOff + block.length) = .ok block := by
      rw [hw, Option.getD_some, slice_slice (hwin win hw) (by omega) (by omega), ← hblock]
      congr 1 <;> omega
    refine ⟨it.win, it.winOff, ?_, hwin⟩
    change subtract pre.length it.winOff >>= _ = _
    rw [subtract_of_le hin.1, ok_bind, hraw]
    rfl

/-- An iterator over the file of the blocks `bs`: `cur` is left of the block it is in, and
the blocks from `it.blk` on are still to come. -/
structure TableIterator.Stands (cs : Codecs) (cfg : TableWriterConfig) (rts : List RangeTombstone)
    (bs : List (List (Bytes × Bytes))) (it : TableIterator)
      (cur : List (Bytes × Bytes)) : Prop where
  file : it.tr.file = (partsOf cs cfg rts bs).file
  parsed : it.parsed = some (metaOf cs cfg rts bs) ∨
    it.parsed = none ∧ it.tr.ensureMeta cs = .ok (metaOf cs cfg rts bs)
  window : it.Window
  inner : if it.loaded then it.inner.Yields cur else cur = []
  order : ∀ p, it.lastKey = some p → ∀ e ∈ cur ++ (bs.drop it.blk).flatten,
    ikeyCompareBytes p e.1 = some .lt

namespace TableIterator

variable {it : TableIterator} {cur : List (Bytes × Bytes)}

theorem Stands.nextInner {e : Bytes × Bytes}
    (h : it.Stands cs cfg rts bs (e :: cur))
    (hes : Writable (e :: cur ++ (bs.drop it.blk).flatten)) :
    ∃ it', it.nextInner = .ok (some it') ∧ it'.inner.key = e.1 ∧ it'.inner.value = e.2 ∧
      it'.blk = it.blk ∧ it'.parsed = it.parsed ∧ it'.Stands cs cfg rts bs cur := by
  have hinner := h.inner
  split_ifs at hinner with hloaded
  obtain ⟨inner, hnext, hkey, hvalue, hyields⟩ := hinner
  have hstored := hes.stored e (mem_append_left _ mem_cons_self)
  obtain ⟨seq, code, hseqKind, hvalid⟩ := hstored.kind
  obtain ⟨kind, hkind⟩ := Option.ne_none_iff_exists'.1 hvalid
  have hcheck : it.checkEntry inner.key = .ok () := by
    unfold TableIterator.checkEntry
    simp only [hkey, hseqKind, hkind]
    exact checkOrder_of _ fun p hp => h.order p hp e (mem_append_left _ mem_cons_self)
  refine ⟨{ it with inner := inner, lastKey := some inner.key }, ?_, hkey, hvalue, rfl, rfl,
    ⟨h.file, h.parsed, h.window, ?_, ?_⟩⟩
  · unfold TableIterator.nextInner
    rw [if_pos hloaded, hnext, ok_bind]
    dsimp only
    rw [hcheck]
    rfl
  · change if it.loaded = true then inner.Yields cur else cur = []
    rw [if_pos hloaded]
    exact hyields
  · intro p hp x hx
    cases hp
    rw [hkey]
    have hascend := (pairwise_cons.1 hes.ascend).1
    exact (ikeyCompareBytes_lt_iff hstored.whole
      (hes.stored x (mem_cons_of_mem _ hx)).whole).2 (hascend x hx)

theorem Stands.nextInner_nil (h : it.Stands cs cfg rts bs []) : it.nextInner = .ok none := by
  have hinner := h.inner
  unfold TableIterator.nextInner
  split_ifs at hinner ⊢ with hloaded
  · rw [show it.inner.next = .ok none from hinner]
    rfl
  · rfl

theorem Stands.loadBlock (hr : Readable cs cfg bs) (h : it.Stands cs cfg rts bs [])
    (hi : it.blk < bs.length) :
    ∃ it', it.loadBlock cs ⟨((bs.take it.blk).flatMap (storedBlock cs cfg.codec)).length,
        (storedBlock cs cfg.codec bs[it.blk]).length⟩ = .ok it' ∧
      it'.blk = it.blk + 1 ∧ it'.parsed = it.parsed ∧ it'.Stands cs cfg rts bs bs[it.blk] := by
  have hmem := getElem_mem hi
  obtain ⟨post, hfile, hpost⟩ := file_split cs cfg rts hi
  obtain ⟨win, winOff, hraw, hwindow⟩ := blockRaw_eq h.window (h.file.trans hfile) hpost
  obtain ⟨entries, restarts, n, gs, hsplit, hover, hflat, _⟩ :=
    over_blockPayload (hr.small.payload _ hmem) fun e he => (hr.stored hmem e he).whole
  refine ⟨{ it with
    win := win, winOff := winOff, inner := it.inner.resetEntries entries, loaded := true,
    blk := it.blk + 1 }, ?_, rfl, rfl, ⟨h.file, h.parsed, hwindow, ?_, ?_⟩⟩
  · unfold TableIterator.loadBlock
    rw [hraw, ok_bind]
    dsimp only
    rw [storedBlock, decodeBlock_finish hr.lossless, ok_bind, hsplit]
    rfl
  · change (it.inner.resetEntries entries).Yields _
    rw [← hflat]
    exact hover.yields_reset it.inner
  · intro p hp e he
    refine h.order p hp e ?_
    rw [drop_eq_getElem_cons hi]
    exact he

theorem Stands.next_eq (h : it.Stands cs cfg rts bs cur) :
    it.next cs = Checked.loop .endless (nextStep cs (metaOf cs cfg rts bs)) (bs.length + 2)
        { it with parsed := some (metaOf cs cfg rts bs) } ∧
      TableIterator.Stands cs cfg rts bs { it with parsed := some (metaOf cs cfg rts bs) } cur := by
  refine ⟨?_, ⟨h.file, .inl rfl, h.window, h.inner, h.order⟩⟩
  unfold TableIterator.next
  rcases h.parsed with hparsed | ⟨hparsed, hmeta⟩
  · simp only [hparsed]
    rw [← metaOf_length cs cfg rts bs]
    rfl
  · simp only [hparsed]
    rw [hmeta, ok_bind, metaOf_length]

theorem Stands.next_cons {e : Bytes × Bytes} (h : it.Stands cs cfg rts bs (e :: cur))
    (hes : Writable (e :: cur ++ (bs.drop it.blk).flatten)) :
    ∃ it', it.next cs = .ok (some it') ∧ it'.inner.key = e.1 ∧ it'.inner.value = e.2 ∧
      it'.blk = it.blk ∧ it'.Stands cs cfg rts bs cur := by
  obtain ⟨hnext, h⟩ := h.next_eq
  obtain ⟨it', hinner, hkey, hvalue, hblk, _, h'⟩ := h.nextInner hes
  refine ⟨it', ?_, hkey, hvalue, hblk, h'⟩
  rw [hnext, Checked.loop, nextStep, hinner]
  rfl

theorem Stands.next_load (hr : Readable cs cfg bs) (h : it.Stands cs cfg rts bs [])
    (hi : it.blk < bs.length) {e : Bytes × Bytes} (hb : bs[it.blk] = e :: cur)
    (hes : Writable (bs.drop it.blk).flatten) :
    ∃ it', it.next cs = .ok (some it') ∧ it'.inner.key = e.1 ∧ it'.inner.value = e.2 ∧
      it'.blk = it.blk + 1 ∧ it'.Stands cs cfg rts bs cur := by
  obtain ⟨hnext, h⟩ := h.next_eq
  obtain ⟨it₁, hload, hblk₁, _, h₁⟩ := h.loadBlock hr hi
  change it₁.blk = it.blk + 1 at hblk₁
  change it₁.Stands cs cfg rts bs bs[it.blk] at h₁
  have hes₁ : Writable (e :: cur ++ (bs.drop it₁.blk).flatten) := by
    rw [hblk₁, ← hb, ← flatten_cons, ← drop_eq_getElem_cons hi]
    exact hes
  rw [hb] at h₁
  obtain ⟨it', hinner, hkey, hvalue, hblk, _, h'⟩ := h₁.nextInner hes₁
  refine ⟨it', ?_, hkey, hvalue, hblk.trans hblk₁, h'⟩
  have hstep : nextStep cs (metaOf cs cfg rts bs)
    { it with parsed := some (metaOf cs cfg rts bs) } =
      .ok (.inr it₁) := by
    rw [nextStep, h.nextInner_nil, ok_bind]
    dsimp only
    rw [if_neg (by rw [metaOf_length]; omega), (hr.index rts hi).2, ok_bind, hload]
    rfl
  rw [hnext, Checked.loop, hstep, ok_bind]
  dsimp only
  rw [Checked.loop, nextStep, hinner]
  rfl

theorem Stands.next_end (h : it.Stands cs cfg rts bs []) (hi : bs.length ≤ it.blk) :
    it.next cs = .ok none := by
  obtain ⟨hnext, h⟩ := h.next_eq
  rw [hnext, Checked.loop, nextStep, h.nextInner_nil, ok_bind]
  dsimp only
  rw [if_pos (by rw [metaOf_length]; exact hi)]
  rfl

theorem Stands.drain (hr : Readable cs cfg bs) {fuel : Nat} (h : it.Stands cs cfg rts bs cur)
    (hes : Writable (cur ++ (bs.drop it.blk).flatten))
    (hfuel : (cur ++ (bs.drop it.blk).flatten).length < fuel) :
    it.drain cs fuel = some (cur ++ (bs.drop it.blk).flatten, none) := by
  induction fuel generalizing it cur with
  | zero => exact absurd hfuel (Nat.not_lt_zero _)
  | succ fuel ih =>
    -- One call of `Next` that yields an entry leaves the rest of the entries.
    have hyield : ∀ {it' : TableIterator} {e : Bytes × Bytes} {cur' : List (Bytes × Bytes)},
        it.next cs = .ok (some it') → it'.inner.key = e.1 → it'.inner.value = e.2 →
        it'.Stands cs cfg rts bs cur' →
        cur ++ (bs.drop it.blk).flatten = e :: (cur' ++ (bs.drop it'.blk).flatten) →
        it.drain cs (fuel + 1) = some (cur ++ (bs.drop it.blk).flatten, none) := by
      intro it' e cur' hnext hkey hvalue h' hsplit
      rw [hsplit] at hes hfuel ⊢
      rw [length_cons] at hfuel
      have hrest := ih h' ⟨fun x hx => hes.stored x (mem_cons_of_mem _ hx),
        (pairwise_cons.1 hes.ascend).2⟩ (by omega)
      unfold TableIterator.drain
      rw [hnext]
      dsimp only
      rw [hrest, hkey, hvalue]
      rfl
    cases cur with
    | cons e cur =>
      obtain ⟨it', hnext, hkey, hvalue, hblk, h'⟩ := h.next_cons hes
      refine hyield hnext hkey hvalue h' ?_
      rw [hblk]
      rfl
    | nil =>
      by_cases hi : it.blk < bs.length
      · obtain ⟨e, cur, hb⟩ := exists_cons_of_ne_nil (hr.nonempty _ (getElem_mem hi))
        obtain ⟨it', hnext, hkey, hvalue, hblk, h'⟩ := h.next_load hr hi hb hes
        refine hyield hnext hkey hvalue h' ?_
        rw [hblk, drop_eq_getElem_cons hi, flatten_cons, hb]
        rfl
      · unfold TableIterator.drain
        rw [h.next_end (Nat.not_lt.1 hi), drop_eq_nil_of_le (Nat.not_lt.1 hi)]
        rfl

end TableIterator

theorem validIKeyKind_code (kind : IKeyKind) : validIKeyKind kind.code = some kind := by
  cases kind <;> rfl

theorem scanLoop_eq {it : DataBlockIter} {prev : Option Bytes}
    (hyields : it.Yields (es.map Entry.bytes)) (hseqs : ∀ e ∈ es, e.seq ≤ maxIKeySeq)
    (hsorted : KeysAscend (es.map Entry.bytes))
    (hprev : ∀ p, prev = some p → ∀ e ∈ es, ikeyCompareBytes p (ikeyEncode e.toIKey) = some .lt)
    (userKey : Key) (seq : Nat) (now : Time) {fuel : Nat} (hfuel : es.length < fuel) :
    Checked.loop .endless (scanStep userKey seq now) fuel (it, prev) =
      LevisDB.TableReader.scan userKey seq now es := by
  induction es generalizing it prev fuel with
  | nil =>
    obtain ⟨fuel, rfl⟩ := Nat.exists_eq_add_one_of_ne_zero (Nat.ne_of_gt hfuel)
    rw [Checked.loop, scanStep, show it.next = .ok none from hyields]
    rfl
  | cons e es ih =>
    rw [length_cons] at hfuel
    obtain ⟨fuel, rfl⟩ := Nat.exists_eq_add_one_of_ne_zero (show fuel ≠ 0 by omega)
    obtain ⟨it', hnext, hkey, hvalue, hyields'⟩ := hyields
    rw [forall_mem_cons] at hseqs
    rw [KeysAscend, map_cons, pairwise_cons] at hsorted
    have hkey : it'.key = ikeyEncode e.toIKey := hkey
    have hprev' : ∀ p, some it'.key = some p →
        ∀ x ∈ es, ikeyCompareBytes p (ikeyEncode x.toIKey) = some .lt := by
      intro p hp x hx
      cases hp
      rw [hkey]
      exact (ikeyCompareBytes_lt_iff (wholeKey_encode e.toIKey) (wholeKey_encode x.toIKey)).2
        (hsorted.1 x.bytes (mem_map_of_mem hx))
    have hrest := ih hyields' hseqs.2 hsorted.2 hprev' (show es.length < fuel by omega)
    have horder : checkOrder prev it'.key (.tableFile .blockKeyOrder) = .ok () := by
      rw [hkey]
      exact checkOrder_of _ fun p hp => hprev p hp e mem_cons_self
    have huser : ikeyUserKey it'.key = some e.user := by
      rw [hkey]
      exact ikeyUserKey_encode e.toIKey
    have hseqKind : ikeySeqKind it'.key = some (e.seq, e.kind.code) := by
      rw [hkey]
      exact ikeySeqKind_encode hseqs.1
    rw [Checked.loop, scanStep, hnext, ok_bind]
    dsimp only
    simp only [huser, hseqKind, horder, validIKeyKind_code]
    rw [LevisDB.TableReader.scan]
    rw [ok_bind, hvalue]
    split_ifs
    · rfl
    · exact hrest
    · exact hrest
    · change _ = Except.map some
        (LevisDB.TableReader.entryVersion ⟨⟨e.user, e.seq, e.kind⟩, e.value⟩ now)
      cases LevisDB.TableReader.entryVersion ⟨⟨e.user, e.seq, e.kind⟩, e.value⟩ now <;> rfl

theorem scan_append_of_lt {before : List Entry}
    (h : ∀ e ∈ before, ¬ ikeyLookupKey userKey seq ≤ e.toIKey) (es : List Entry) (now : Time) :
    LevisDB.TableReader.scan userKey seq now (before ++ es) =
      LevisDB.TableReader.scan userKey seq now es := by
  induction before with
  | nil => rfl
  | cons a before ih =>
    rw [forall_mem_cons, ikeyLookupKey_le_iff, not_or, not_and] at h
    rw [cons_append, LevisDB.TableReader.scan, if_neg h.1.1, ih h.2]
    split_ifs with hlt hseq
    · rfl
    · rfl
    · exact absurd (Nat.not_lt.1 hseq) (h.1.2 (le_antisymm (not_lt.1 hlt) (not_lt.1 h.1.1)))

theorem scan_append_of_le
    (h : ∃ e ∈ es, ikeyLookupKey userKey seq ≤ e.toIKey) (after : List Entry) (now : Time) :
    LevisDB.TableReader.scan userKey seq now (es ++ after) =
      LevisDB.TableReader.scan userKey seq now es := by
  induction es with
  | nil =>
    obtain ⟨e, he, _⟩ := h
    cases he
  | cons a es ih =>
    rw [cons_append, LevisDB.TableReader.scan, LevisDB.TableReader.scan]
    by_cases ha : ikeyLookupKey userKey seq ≤ a.toIKey
    · rw [ikeyLookupKey_le_iff] at ha
      split_ifs with hgt hlt hseq
      · rfl
      · rcases ha with ha | ⟨ha, _⟩
        · exact absurd ha (lt_asymm hlt)
        · exact absurd ha.symm (ne_of_lt hlt)
      · rcases ha with ha | ⟨_, ha⟩
        · exact absurd ha hgt
        · exact absurd ha (Nat.not_le.2 hseq)
      · rfl
    · obtain ⟨e, he, hle⟩ := h
      rcases mem_cons.1 he with rfl | he
      · exact absurd hle ha
      · rw [ih ⟨e, he, hle⟩]

theorem KeysAscend.le_last {b : List (Bytes × Bytes)} (h : KeysAscend b) {e : Bytes × Bytes}
    (he : e ∈ b) : IKeyBytesLe e.1 (lastKeyOf [] b) := by
  have hne := ne_nil_of_mem he
  have hsplit := dropLast_append_getLast hne
  have hlast : lastKeyOf [] b = (b.getLast hne).1 := by
    rw [lastKeyOf_eq, List.getLast?_eq_some_getLast hne]
    rfl
  rw [hlast]
  rw [← hsplit] at he h
  rcases mem_append.1 he with he | he
  · exact IKeyBytesLe.of_not ((pairwise_append.1 h).2.2 e he _ (mem_singleton_self _))
  · rw [mem_singleton.1 he]
    exact Std.Refl.refl _

theorem KeysAscend.last_mono (h : KeysAscend bs.flatten) (hne : ∀ b ∈ bs, b ≠ []) {j : Nat}
    (hij : i ≤ j) (hj : j < bs.length) :
    IKeyBytesLe (lastKeyOf [] (bs.getD i [])) (lastKeyOf [] (bs.getD j [])) := by
  rcases Nat.lt_or_eq_of_le hij with hlt | rfl
  · have hi : i < bs.length := by omega
    have hi' : bs.getD i [] = bs[i] := by simp [hi]
    have hj' : bs.getD j [] = bs[j] := by simp [hj]
    obtain ⟨e, he, hlast⟩ := lastKeyOf_mem (hne _ (getElem_mem hi))
    obtain ⟨f, hf, hlast'⟩ := lastKeyOf_mem (hne _ (getElem_mem hj))
    rw [hi', hj', hlast, hlast']
    exact IKeyBytesLe.of_not
      (pairwise_iff_getElem.1 (pairwise_flatten.1 h).2 i j hi hj hlt e he f hf)
  · exact Std.Refl.refl _

/-- The first block that ends at or behind the target. -/
def firstBlock (bs : List (List (Bytes × Bytes))) (target : Bytes) : Nat :=
  Search.search bs.length fun i => decide (IKeyBytesLe target (lastKeyOf [] (bs.getD i [])))

theorem firstBlock_spec (h : KeysAscend bs.flatten) (hne : ∀ b ∈ bs, b ≠ []) (target : Bytes) :
    firstBlock bs target ≤ bs.length ∧
      (∀ i, i < firstBlock bs target → ¬ IKeyBytesLe target (lastKeyOf [] (bs.getD i []))) ∧
      ∀ i, firstBlock bs target ≤ i → i < bs.length →
        IKeyBytesLe target (lastKeyOf [] (bs.getD i [])) := by
  have hmono : ∀ a b, a ≤ b → b < bs.length →
      decide (IKeyBytesLe target (lastKeyOf [] (bs.getD a []))) = true →
      decide (IKeyBytesLe target (lastKeyOf [] (bs.getD b []))) = true := by
    intro a b hab hb ha
    rw [decide_eq_true_eq] at ha ⊢
    exact Trans.trans ha (KeysAscend.last_mono h hne hab hb)
  obtain ⟨hle, hlow, hhigh⟩ := Search.search_spec hmono
  exact ⟨hle, fun i hi => of_decide_eq_false (hlow i hi),
    fun i hi hlt => of_decide_eq_true (hhigh i hi hlt)⟩

theorem Readable.findBlock (hr : Readable cs cfg bs) (rts : List RangeTombstone) {target : Bytes}
    (htarget : WholeKey target) :
    (metaOf cs cfg rts bs).findBlock target = .ok (firstBlock bs target) := by
  rw [MetaBlocks.findBlock, metaOf_length]
  refine Checked.loop_search id (fun lo hi hend => ?_) fun lo hi hlt hhi => ?_
  · rw [MetaBlocks.findStep]
    exact if_neg hend
  · have hmid : (lo + hi) / 2 < bs.length := by omega
    have hmem := getElem_mem hmid
    have hgetD : bs.getD ((lo + hi) / 2) [] = bs[(lo + hi) / 2] := by simp [hmid]
    obtain ⟨e, he, hlast⟩ := lastKeyOf_mem (hr.nonempty _ hmem)
    have hwhole : WholeKey (lastKeyOf [] bs[(lo + hi) / 2]) := by
      rw [hlast]
      exact (hr.stored hmem e he).whole
    rw [MetaBlocks.findStep]
    dsimp only
    rw [if_pos hlt, (hr.index rts hmid).1, ok_bind, hgetD]
    exact compareKeys_halve hwhole htarget lo _ hi

theorem exists_blocks {α β : Type} (f : α → β) {es : List α} {bs : List (List β)}
    (h : bs.flatten = es.map f) : ∃ blocks : List (List α), bs = blocks.map (List.map f) ∧
      blocks.flatten = es := by
  induction bs generalizing es with
  | nil => exact ⟨[], rfl, (map_eq_nil_iff.1 h.symm).symm⟩
  | cons b bs ih =>
    rw [flatten_cons] at h
    obtain ⟨es₁, es₂, rfl, h₁, h₂⟩ := map_eq_append_iff.1 h.symm
    obtain ⟨blocks, hbs, hflat⟩ := ih h₂.symm
    exact ⟨es₁ :: blocks, by rw [hbs, ← h₁]; rfl, by rw [flatten_cons, hflat]⟩

theorem scanBlock_eq (hseqs : ∀ e ∈ es, e.seq ≤ maxIKeySeq)
    (hsorted : KeysAscend (es.map Entry.bytes))
    (hshort : (blockPayload 0 (es.map Entry.bytes)).length < 2 ^ 32)
    (hseq : seq ≤ maxIKeySeq) (now : Time) :
    scanBlock (blockPayload 0 (es.map Entry.bytes)) userKey seq now =
      LevisDB.TableReader.scan userKey seq now es := by
  have hwhole : ∀ e ∈ es.map Entry.bytes, WholeKey e.1 := by
    intro e he
    obtain ⟨x, _, rfl⟩ := mem_map.1 he
    exact wholeKey_encode x.toIKey
  obtain ⟨entries, restarts, n, gs, hsplit, hover, hflat, _⟩ := over_blockPayload hshort hwhole
  obtain ⟨it, before, cur, after, hseek, hyields, hparts, _, hbelow, _⟩ :=
    hover.seek_yields (by rw [hflat]; exact hsorted)
      (wholeKey_encode (ikeyLookupKey userKey seq))
  rw [hflat] at hparts
  obtain ⟨es₁, es₂, rfl, h₁, h₂⟩ := map_eq_append_iff.1 hparts.symm
  rw [← h₂] at hyields
  rw [forall_mem_append] at hseqs
  have hskip : ∀ e ∈ es₁, ¬ ikeyLookupKey userKey seq ≤ e.toIKey := by
    intro e he hle
    refine hbelow e.bytes (by rw [← h₁]; exact mem_map_of_mem he) ?_
    exact (iKeyBytesLe_encode hseq (hseqs.1 e he)).2 hle
  have hlen : es₂.length < entries.length + 1 := by
    have hle := length_le_encodeGroups gs
    have hentries : entries = encodeGroups gs := hover.entries
    rw [hflat, ← hentries] at hle
    simp only [length_map, length_append] at hle
    omega
  rw [map_append] at hsorted
  have hnone : ∀ p, none = some p → ∀ e ∈ es₂, ikeyCompareBytes p (ikeyEncode e.toIKey) =
    some .lt :=
    fun p hp => by cases hp
  have hloop := scanLoop_eq hyields hseqs.2 (pairwise_append.1 hsorted).2.1 hnone userKey seq now
    hlen
  rw [scan_append_of_lt hskip, ← hloop, scanBlock, hsplit, ok_bind]
  dsimp only
  rw [hseek, ok_bind]

theorem lookupPastBloom_eq (hr : Readable cs cfg bs)
    (hflat : bs.flatten = es.map Entry.bytes) (hseqs : ∀ e ∈ es, e.seq ≤ maxIKeySeq)
    {tr : TableReader} (hfile : tr.file = (partsOf cs cfg rts bs).file)
    (hseq : seq ≤ maxIKeySeq) (now : Time) :
    tr.lookupPastBloom cs (metaOf cs cfg rts bs) userKey seq now =
      LevisDB.TableReader.scan userKey seq now es := by
  obtain ⟨blocks, rfl, rfl⟩ := exists_blocks Entry.bytes hflat
  have hascend := hr.writable.ascend
  obtain ⟨hle, hbelow, habove⟩ := firstBlock_spec hascend hr.nonempty
    (ikeyEncode (ikeyLookupKey userKey seq))
  have hfind := hr.findBlock rts (wholeKey_encode (ikeyLookupKey userKey seq))
  generalize firstBlock (blocks.map (List.map Entry.bytes))
    (ikeyEncode (ikeyLookupKey userKey seq)) = n at hle hbelow habove hfind
  rw [length_map] at hle habove
  have hgetD : ∀ i (hi : i < blocks.length),
      (blocks.map (List.map Entry.bytes)).getD i [] = blocks[i].map Entry.bytes := by
    intro i hi
    simp [hi]
  have hblock : ∀ i (hi : i < blocks.length), KeysAscend (blocks[i].map Entry.bytes) := fun i hi =>
    (pairwise_flatten.1 hascend).1 _ (mem_map_of_mem (getElem_mem hi))
  have hseqOf : ∀ i (hi : i < blocks.length), ∀ e ∈ blocks[i], e.seq ≤ maxIKeySeq :=
    fun i hi e he =>
    hseqs e (mem_flatten.2 ⟨_, getElem_mem hi, he⟩)
  -- Blocks in front of the one found end below the lookup key.
  have hbefore : ∀ e ∈ (blocks.take n).flatten, ¬ ikeyLookupKey userKey seq ≤ e.toIKey := by
    intro e he hkey
    obtain ⟨b, hb, he⟩ := mem_flatten.1 he
    obtain ⟨i, hi, rfl⟩ := mem_take_iff_getElem.1 hb
    have hi' : i < blocks.length := by omega
    have hlast := KeysAscend.le_last (hblock i hi') (mem_map_of_mem he)
    have hbytes := (iKeyBytesLe_encode hseq (hseqOf i hi' e he)).2 hkey
    refine hbelow i (by omega) ?_
    rw [hgetD i hi']
    exact Trans.trans hbytes hlast
  rw [TableReader.lookupPastBloom, hfind, ok_bind, metaOf_length, length_map]
  split_ifs with hend
  · have hall := scan_append_of_lt hbefore [] now
    rw [take_of_length_le hend, append_nil] at hall
    rw [hall]
    rfl
  · have hn : n < blocks.length := by omega
    have hn' : n < (blocks.map (List.map Entry.bytes)).length := by rwa [length_map]
    have hmem := getElem_mem hn'
    have hget : (blocks.map (List.map Entry.bytes))[n] = blocks[n].map Entry.bytes := getElem_map _
    obtain ⟨post, hsplit, hpost⟩ := file_split cs cfg rts hn'
    -- The block found ends at or behind the lookup key, so the scan stops in it.
    have hstop : ∃ e ∈ blocks[n], ikeyLookupKey userKey seq ≤ e.toIKey := by
      have hlast := habove n (Nat.le_refl n) hn
      obtain ⟨x, hx, hkey⟩ := lastKeyOf_mem (hr.nonempty _ hmem)
      rw [hget] at hx hkey
      obtain ⟨e, he, rfl⟩ := mem_map.1 hx
      rw [hgetD n hn, hkey] at hlast
      exact ⟨e, he, (iKeyBytesLe_encode hseq (hseqOf n hn e he)).1 hlast⟩
    have hes : blocks.flatten = (blocks.take n).flatten ++
        (blocks[n] ++ (blocks.drop (n + 1)).flatten) := by
      rw [← flatten_cons, ← drop_eq_getElem_cons hn, ← flatten_append,
        take_append_drop]
    have hpayload := hr.small.payload _ hmem
    have hraw : readBlockRaw cs tr.file ⟨((((blocks.map (List.map Entry.bytes)).take n).flatMap
        (storedBlock cs cfg.codec))).length,
        (storedBlock cs cfg.codec (blocks.map (List.map Entry.bytes))[n]).length⟩ =
        .ok (blockPayload 0 (blocks[n].map Entry.bytes)) := by
      rw [hfile, hsplit, hget]
      exact readBlockRaw_of_append (decodeBlock_finish hr.lossless _ _)
        (le_finishBlock_length _ _ _)
        hpost
    rw [hget] at hpayload
    rw [(hr.index rts hn').2, ok_bind, hraw, ok_bind,
      scanBlock_eq (hseqOf n hn) (hblock n hn) hpayload hseq, hes, scan_append_of_lt hbefore,
      scan_append_of_le hstop]

theorem mayContain_metaOf (cs : Codecs) (cfg : TableWriterConfig) (rts : List RangeTombstone)
    (bs : List (List (Bytes × Bytes))) (hash : UInt32) :
    mayContain (metaOf cs cfg rts bs).filter hash =
      .ok (bloomMayContain (metaOf cs cfg rts bs).filter hash) :=
  ((validateBloomFilter_ends _).of_ok (validateBloomFilter_build _ _)).mayContain hash

theorem lookupAtTime_eq (hr : Readable cs cfg bs)
    (hflat : bs.flatten = es.map Entry.bytes) (hsorted : es.Pairwise IKeyOrder)
    (hseqs : ∀ e ∈ es, e.seq ≤ maxIKeySeq) {tr : TableReader}
    (hfile : tr.file = (partsOf cs cfg rts bs).file)
    (hmeta : tr.ensureMeta cs = .ok (metaOf cs cfg rts bs)) (userKey : Key)
    (hseq : seq ≤ maxIKeySeq) (now : Time) :
    (tr.lookupAtTime cs userKey seq now).map LookupResult.version =
      LevisDB.TableReader.bestVersion (newestVersion userKey seq es) now := by
  rw [TableReader.lookupAtTime, hmeta, ok_bind, mayContain_metaOf, ok_bind]
  cases hbloom : bloomMayContain (metaOf cs cfg rts bs).filter (bloomHash userKey) with
  | true =>
    rw [if_pos rfl, lookupPastBloom_eq hr hflat hseqs hfile hseq now,
      ← LevisDB.TableReader.scan_newest hsorted]
    cases LevisDB.TableReader.scan userKey seq now es <;> rfl
  | false =>
    have hnone : newestVersion userKey seq es = none := by
      refine newestVersion_eq_none ?_
      rintro e he rfl
      have hmem : bloomHash e.user ∈ bs.flatten.map fun e => bloomHash (userPart e.1) := by
        rw [hflat, map_map]
        refine mem_map.2 ⟨e, he, ?_⟩
        exact congrArg bloomHash (userPart_encode e.toIKey)
      have htrue : bloomMayContain (metaOf cs cfg rts bs).filter (bloomHash e.user) = true :=
        bloomMayContain_build _ hmem
      rw [htrue] at hbloom
      cases hbloom
    rw [hnone]
    rfl

theorem storedKey_encode {k : IKey} (h : k.seq ≤ maxIKeySeq) : StoredKey (ikeyEncode k) :=
  ⟨wholeKey_encode k, _, _, ikeySeqKind_encode h, by rw [validIKeyKind_code]; simp⟩

theorem writable_bytes (hsorted : es.Pairwise fun a b => a.toIKey < b.toIKey)
    (hseqs : ∀ e ∈ es, e.seq ≤ maxIKeySeq) : Writable (es.map Entry.bytes) := by
  refine ⟨?_, ?_⟩
  · intro e he
    obtain ⟨x, hx, rfl⟩ := mem_map.1 he
    exact storedKey_encode (hseqs x hx)
  · rw [KeysAscend, pairwise_map]
    refine hsorted.imp_of_mem fun {a b} ha hb hlt => ?_
    exact mt (iKeyBytesLe_encode (hseqs b hb) (hseqs a ha)).1 (not_le.2 hlt)

theorem cutBlocks_spec (blockSize : Int) (cur es : List (Bytes × Bytes)) :
    (cutBlocks blockSize cur es).flatten = cur ++ es ∧
      ∀ b ∈ cutBlocks blockSize cur es, b ≠ [] := by
  induction es generalizing cur with
  | nil =>
    cases cur with
    | nil => exact ⟨rfl, fun b hb => absurd hb not_mem_nil⟩
    | cons e cur => exact ⟨by simp [cutBlocks], fun b hb => by simp [mem_singleton.1 hb]⟩
  | cons e es ih =>
    have hcut : cutBlocks blockSize cur (e :: es) =
        if blockSize ≤ ((DataBlockBuilder.new 0).addAll (cur ++ [e])).size then
          (cur ++ [e]) :: cutBlocks blockSize [] es
        else cutBlocks blockSize (cur ++ [e]) es := by rw [cutBlocks]
    rw [hcut]
    split_ifs
    · obtain ⟨hflat, hne⟩ := ih []
      refine ⟨by rw [flatten_cons, hflat]; simp, ?_⟩
      rw [forall_mem_cons]
      exact ⟨by simp, hne⟩
    · obtain ⟨hflat, hne⟩ := ih (cur ++ [e])
      exact ⟨by rw [hflat]; simp, hne⟩

/-- A table reads back as it was written. -/
theorem table_round_trip {cs : Codecs} (hcs : cs.Lossless) (cfg : TableWriterConfig)
    {es : List Entry}
    (hsorted : es.Pairwise fun a b => a.toIKey < b.toIKey) (hseqs : ∀ e ∈ es, e.seq ≤ maxIKeySeq)
    {rts : List RangeTombstone} (hrts : ∀ rt ∈ rts, rt.start < rt.stop ∧ rt.seq < 2 ^ 64)
    (hsmall : Small cs cfg (cutBlocks cfg.blockSize [] (es.map Entry.bytes))) :
    ∃ file, (((newTableWriter cfg).setRangeTombstones rts).addAll cs (es.map Entry.bytes)).finish
    cs =
        .ok (file.length, file) ∧
      (file.length < 2 ^ 64 → ∀ lazyMeta, ∃ tr, newTableReaderOpt cs file lazyMeta = .ok tr ∧
        (∀ fuel, es.length < fuel → tr.newIterator.drain cs fuel =
          some (es.map Entry.bytes, none)) ∧
        tr.rangeTombstones cs = .ok rts ∧
        ∀ userKey seq now, seq ≤ maxIKeySeq → ∃ best, IsNewestIn userKey seq es best ∧
          (tr.lookupAtTime cs userKey seq now).map LookupResult.version =
            LevisDB.TableReader.bestVersion best now) := by
  have hes := writable_bytes hsorted hseqs
  obtain ⟨hflat, hne⟩ := cutBlocks_spec cfg.blockSize [] (es.map Entry.bytes)
  rw [nil_append] at hflat
  obtain ⟨bs, cur, hholds, hcut⟩ := (holds_new cs cfg rts).addAll (show Writable _ from hes)
  have hfinish := hholds.finish
  rw [hcut, nil_append] at hfinish
  refine ⟨_, hfinish, fun hfile lazyMeta => ?_⟩
  generalize cutBlocks cfg.blockSize [] (es.map Entry.bytes) = blocks at hsmall hflat hne hfile ⊢
  have hwritable : Writable blocks.flatten := by rwa [hflat]
  have hr : Readable cs cfg blocks := ⟨hcs, hne, hsmall, hwritable⟩
  have hle : es.Pairwise IKeyOrder := hsorted.imp fun h => le_of_lt h
  obtain ⟨tr, hopen, htr, hmeta⟩ := partsOf_opens hcs hrts hne hsmall hwritable hfile lazyMeta
  refine ⟨tr, hopen, ?_, ?_, ?_⟩
  · intro fuel hfuel
    have hstands : tr.newIterator.Stands cs cfg rts blocks [] :=
      ⟨htr, .inr ⟨rfl, hmeta⟩, (fun _ h => by cases h), rfl, (fun _ h => by cases h)⟩
    have hlen : blocks.flatten.length < fuel := by rwa [hflat, length_map]
    rw [hstands.drain hr hwritable hlen]
    change some (blocks.flatten, none) = _
    rw [hflat]
  · rw [TableReader.rangeTombstones, hmeta]
    rfl
  · intro userKey seq now hseq
    exact ⟨newestVersion userKey seq es, newestVersion_isNewestIn hle userKey seq,
      lookupAtTime_eq hr hflat hle hseqs htr hmeta userKey hseq now⟩

def smallEntries : List Entry :=
  [⟨⟨[97], 2, .set⟩, [119]⟩, ⟨⟨[97], 1, .set⟩, [118]⟩, ⟨⟨[98], 3, .delete⟩, []⟩]

def smallTable : TableWriter :=
  ((newTableWriter ⟨.none, 10, 30⟩).setRangeTombstones [⟨[98], [99], 5⟩]).addAll storeCodecs
    (smallEntries.map Entry.bytes)

theorem smallTable_newest {best : Option Entry} (h : IsNewestIn [97] 1 smallEntries best) :
    best = some ⟨⟨[97], 1, .set⟩, [118]⟩ := by
  cases best with
  | none => exact absurd (le_refl 1) (h ⟨⟨[97], 1, .set⟩, [118]⟩ (by decide) rfl)
  | some b =>
    obtain ⟨hmem, huser, hseq, -⟩ := h
    simp only [smallEntries, mem_cons, not_mem_nil, or_false] at hmem
    rcases hmem with rfl | rfl | rfl
    · exact absurd hseq (by decide)
    · rfl
    · exact absurd huser (by decide)

/-- Two blocks, the first with two versions of a key. -/
theorem table_round_trip_smallTable :
    (cutBlocks 30 [] (smallEntries.map Entry.bytes)).length = 2 ∧
      ∃ file, smallTable.finish storeCodecs = .ok (file.length, file) ∧
        ∃ tr, newTableReaderOpt storeCodecs file true = .ok tr ∧
          tr.newIterator.drain storeCodecs 4 = some (smallEntries.map Entry.bytes, none) ∧
          tr.rangeTombstones storeCodecs = .ok [⟨[98], [99], 5⟩] ∧
          (tr.lookupAtTime storeCodecs [97] 1 0).map LookupResult.version =
            .ok (some ⟨[118], 1, false, 0, none⟩) := by
  have hlossless : storeCodecs.Lossless := by
    intro id payload
    cases id <;> rfl
  have hsmall : Small storeCodecs ⟨.none, 10, 30⟩
      (cutBlocks 30 [] (smallEntries.map Entry.bytes)) := by
    refine ⟨?_, ?_, ?_⟩ <;> decide +kernel
  have hrange : ∀ rt ∈ [(⟨[98], [99], 5⟩ : RangeTombstone)],
      rt.start < rt.stop ∧ rt.seq < 2 ^ 64 := by decide
  have hsorted : smallEntries.Pairwise fun a b => a.toIKey < b.toIKey := by decide
  obtain ⟨file, hfinish, hread⟩ := table_round_trip hlossless ⟨.none, 10, 30⟩ hsorted (by decide)
    hrange hsmall
  have herr : smallTable.err = none := by decide +kernel
  have hsize : ((smallTable.flushDataBlock storeCodecs).indexPending.writeTail storeCodecs).offset <
      2 ^ 64 := by decide +kernel
  have hlen : file.length < 2 ^ 64 := by
    change smallTable.finish storeCodecs = .ok (file.length, file) at hfinish
    rw [TableWriter.finish, herr] at hfinish
    rw [← (Prod.mk.inj (Except.ok.inj hfinish)).1]
    exact hsize
  obtain ⟨tr, hopen, hdrain, hrts, hlookup⟩ := hread hlen true
  obtain ⟨best, hbest, hlookup⟩ := hlookup [97] 1 0 (by decide)
  rw [smallTable_newest hbest] at hlookup
  exact ⟨by decide +kernel, file, hfinish, tr, hopen, hdrain 4 (by decide), hrts, hlookup⟩

end TableFile

end LevisDB
