import LevisDB.Db.CatalogCommits
import Mathlib.Data.List.Perm.Basic

/-!
# Runs of the catalog

Whatever a database does and wherever it crashes, the manifest `CURRENT` names
replays, as long as no rotation writes its baseline while `commitBlobAdd` is
between its two critical sections.
-/

namespace LevisDB

open List Option LevisDB.Except

namespace Catalog

variable {d : Disk} {claimed : List Nat} {st : ManifestState}

/-- No baseline is written while a registration is half done. -/
def Unsplit : World → Action → Prop
  | .up r, .rotateWrite => r.s.registering = none
  | _, _ => True

theorem Inv.step {r r' : Running} (h : Inv r st claimed)
    {a : Action} (hsplit : Unsplit (.up r) a) (hstep : r.step a = some r') :
    ∃ st' claimed', Inv r' st' claimed' := by
  cases a with
  | reserve n =>
    simp only [Running.step] at hstep
    split_ifs at hstep with hguard
    cases hstep
    exact ⟨st, claimed, h.advance hguard.2.1 (Nat.le_add_right _ _)
      (Nat.le_trans h.applied_le (Nat.le_add_right _ _))⟩
  | apply seq =>
    simp only [Running.step] at hstep
    split_ifs at hstep with hguard
    cases hstep
    exact ⟨st, claimed, h.advance hguard.2.1 (Nat.le_refl _)
      (Nat.max_le.2 ⟨h.applied_le, hguard.2.2⟩)⟩
  | replay seq =>
    simp only [Running.step] at hstep
    split_ifs at hstep with hguard
    cases hstep
    have hman : r.s.man = none := by
      by_contra hne
      exact h.staged.manWal hne hguard.1
    refine ⟨st, claimed, h.advance (h.staged.noIngest (h.not_ready hman))
      (Nat.le_max_left _ _) (Nat.max_le.2 ⟨?_, Nat.le_max_right _ _⟩)⟩
    exact Nat.le_trans h.applied_le (Nat.le_max_left _ _)
  | allocate =>
    obtain ⟨num, hnum, rfl⟩ := map_eq_some_iff.1 hstep
    obtain rfl := allocNext_eq_some hnum
    exact ⟨st, claimed, h.grow (Nat.le_succ _)⟩
  | sealBlob content => exact ⟨st, claimed, h.sealBlob hstep⟩
  | start nums => exact ⟨st, claimed, h.start hstep⟩
  | ingestReserve =>
    simp only [Running.step] at hstep
    split_ifs at hstep with hguard
    cases hstep
    exact ⟨st, claimed, h.ingestReserve hguard.1 hguard.2.1⟩
  | build who t => exact ⟨st, claimed, h.build hstep⟩
  | loadSeq who => exact ⟨st, claimed, h.loadSeq hstep⟩
  | abort who =>
    simp only [Running.step] at hstep
    split_ifs at hstep with hidle
    exact ⟨st, claimed, h.abort hidle hstep⟩
  | commit who => exact ⟨st, h.commit hstep⟩
  | register => exact ⟨st, claimed, h.register hstep⟩
  | commitBlobs =>
    simp only [Running.step] at hstep
    split at hstep
    · rename_i added man hadded hman hmu
      cases hstep
      exact ⟨st, claimed, h.commitBlobs hadded hman hmu⟩
    · cases hstep
  | rotateWAL =>
    simp only [Running.step] at hstep
    split_ifs at hstep with hready
    obtain ⟨num, hnum, rfl⟩ := map_eq_some_iff.1 hstep
    obtain rfl := allocNext_eq_some hnum
    exact ⟨st, claimed, h.rotateWAL hready⟩
  | commitBoundary =>
    simp only [Running.step] at hstep
    split at hstep
    · rename_i num man hwal hman hmu
      split_ifs at hstep with hready
      cases hstep
      exact ⟨st, claimed, h.commitBoundary hwal hman hmu hready⟩
    · cases hstep
  | sync => exact h.sync hstep
  | syncFail =>
    simp only [Running.step] at hstep
    split at hstep
    · rename_i hmu
      cases hstep
      exact ⟨st, claimed, h.syncFail hmu⟩
    · cases hstep
  | release =>
    simp only [Running.step] at hstep
    split at hstep
    · rename_i hmu
      cases hstep
      exact ⟨st, claimed, h.release hmu⟩
    · cases hstep
  | rotateWrite => exact ⟨st, claimed, h.rotateWrite hsplit hstep⟩
  | rotateFail =>
    simp only [Running.step] at hstep
    split at hstep
    · rename_i hmu _
      cases hstep
      exact ⟨st, claimed, h.rotateFail hmu⟩
    · cases hstep
  | rotateSwitch =>
    obtain ⟨st', hinv⟩ := h.rotateSwitch hstep
    exact ⟨st', claimed, hinv⟩
  | rotateAdopt =>
    obtain ⟨st', hinv⟩ := h.rotateAdopt hstep
    exact ⟨st', claimed, hinv⟩
  | rotateRemove =>
    simp only [Running.step] at hstep
    split at hstep
    · rename_i hmu
      cases hstep
      exact ⟨st, claimed, h.rotateRemove hmu⟩
    · cases hstep
  | removeTable num =>
    simp only [Running.step] at hstep
    split_ifs at hstep with hnum
    cases hstep
    exact ⟨st, claimed, h.removeTable hnum⟩
  | openWAL => exact ⟨st, claimed, h.openWAL hstep⟩
  | cleanManifest num =>
    simp only [Running.step] at hstep
    split_ifs at hstep with hguard
    cases hstep
    exact ⟨st, claimed, h.cleanManifest hguard.1 hguard.2⟩
  | cleanTable num =>
    simp only [Running.step] at hstep
    split_ifs at hstep with hguard
    cases hstep
    exact ⟨st, claimed, h.cleanTable hguard.1 hguard.2⟩
  | cleanBlob num =>
    simp only [Running.step] at hstep
    split_ifs at hstep with hguard
    cases hstep
    exact ⟨st, claimed, h.cleanBlob hguard.1 hguard.2⟩
  | opened =>
    simp only [Running.step] at hstep
    split_ifs at hstep with hman
    cases hstep
    exact ⟨st, claimed, h.opened hman⟩
  | crash kept => cases hstep
  | fallBack kept num => cases hstep
  | load logs => cases hstep

theorem Disk.crash_crash (d : Disk) (kept : Bool) : (d.crash kept).crash false = d.crash kept := by
  have hfile : ∀ f : ManifestFile, (f.crash kept).crash false = f.crash kept := by
    intro f
    cases kept <;> simp [ManifestFile.crash, ManifestFile.sync]
  simp [Disk.crash, Function.comp_def, hfile]

theorem Disk.readState_crash_of_settled (h : d.unsynced = none) (kept : Bool) :
    (d.crash kept).readState = d.readState := by
  cases hcurrent : d.current with
  | none => simp [readState, crash, hcurrent]
  | some n =>
    cases hfile : d.manifests n with
    | none => simp [readState, crash, hcurrent, hfile]
    | some f =>
      have hun : f.unsynced = none := by simpa [unsynced, hcurrent, hfile] using h
      have hedits : (f.crash kept).edits = f.edits := by
        cases kept <;> simp [ManifestFile.crash, ManifestFile.sync, ManifestFile.edits, hun]
      rw [readState_of_file hcurrent hfile, hedits]
      simp [readState, hcurrent, hfile]

theorem Disk.unsynced_crash (d : Disk) (kept : Bool) : (d.crash kept).unsynced = none := by
  have hfile : ∀ f : ManifestFile, (f.crash kept).unsynced = none := by
    intro f
    cases kept <;> rfl
  cases hcurrent : d.current with
  | none => simp [unsynced, crash, hcurrent]
  | some n => cases hn : d.manifests n <;> simp [unsynced, crash, hcurrent, hn, hfile]

theorem Phase.unsettled {man wal : Option Nat} {acked pending : List Commit}
    {retired : List Nat} {jobs : Committer → Option Job} {registering : Option (List BlobInfo)}
    {mu : ManMu}
    (h : Phase d man wal acked pending retired jobs registering st claimed mu)
    (hunsynced : d.unsynced ≠ none) :
    ∃ c, pending = [c] ∧ Unsettled d retired acked st c ∧
      ∀ added, c = .blobs added → registering ≠ none := by
  cases h with
  | free hun _ => exact absurd hun hunsynced
  | appending hman hpending hc hlink => exact ⟨_, hpending, hc, fun _ => hlink.registering⟩
  | appended hun _ _ => exact absurd hun hunsynced
  | failed hman hpending hc hadded => exact ⟨_, hpending, hc, hadded⟩
  | rotating hun _ _ _ _ => exact absurd hun hunsynced
  | switched hun _ _ _ => exact absurd hun hunsynced

theorem Inv.crash {r : Running} (h : Inv r st claimed)
    (kept : Bool) :
    ∃ p st', p <+: r.pending ∧ r.survivors kept = r.acked ++ p ∧
      OnDisk (r.disk.crash kept) (r.acked ++ p) st' ∧
      (r.s.registering = none → blobsAfter (r.acked ++ p) = blobsAfter r.acked) := by
  have hsame : ∀ st', (r.disk.crash kept).readState = .ok st' →
      ((r.disk.crash kept).crash false).readState = .ok st' := fun st' hread => by
    rwa [Disk.crash_crash]
  cases hun : r.disk.unsynced with
  | none =>
    refine ⟨[], st, nil_prefix, ?_, ?_, fun _ => by rw [append_nil]⟩
    · simp [Running.survivors, hun]
    · rw [append_nil]
      refine { h.onDisk with replays := hsame st ?_ }
      rw [Disk.readState_crash_of_settled hun, ← Disk.readState_crash_of_settled hun false]
      exact h.onDisk.replays
  | some e =>
    obtain ⟨c, hpending, hc, hblobs⟩ := h.phase.unsettled (by simp [hun])
    cases kept with
    | false =>
      refine ⟨[], st, nil_prefix, ?_, ?_, fun _ => by rw [append_nil]⟩
      · simp [Running.survivors, hun]
      · rw [append_nil]
        exact { h.onDisk with replays := hsame st h.onDisk.replays }
    | true =>
      obtain ⟨hread, hrecords⟩ := hc.onDisk h.onDisk
      refine ⟨[c], st.after c.edit, by simp [hpending], ?_, ?_, fun hnone => ?_⟩
      · simp [Running.survivors, hun, hpending]
      · exact ⟨hsame _ hread, hrecords, fun t ht => (hc.tables t ht).1, hc.blobs⟩
      · rw [blobsAfter_concat]
        cases c with
        | tables inputs outputs lastSeq => rfl
        | boundary num => rfl
        | blobs added => exact absurd hnone (hblobs added rfl)

/-- What a crash leaves: the tables of the commits, or none in their place. -/
structure Stored (d : Disk) (acked : List Commit) (st : ManifestState) : Prop where
  settled : d.unsynced = none
  replays : d.readState = .ok st
  records : Records st acked
  tables : ∀ t ∈ tablesAfter acked, ∀ t' ∈ d.tables, t'.num = t.num → t' = t
  blobs : ∀ b ∈ blobsAfter acked, ∃ f ∈ d.blobs, f.1 = b.num
  fileNums : ∀ t ∈ d.tables, t.num ≠ 0
  distinct : (d.tables.map (·.num)).Nodup

theorem mapM_ok_of_forall₂ {α β : Type} {f : α → Except Err β} {xs : List α} {ys : List β}
    (h : List.Forall₂ (fun x y => f x = .ok y) xs ys) : xs.mapM f = .ok ys := by
  induction h with
  | nil => rfl
  | cons hx _ ih =>
    rw [mapM_cons, hx, ok_bind, ih, ok_bind]
    rfl

theorem exists_of_mapM_ok {α β : Type} {f : α → Except Err β} {xs : List α} {ys : List β}
    (h : xs.mapM f = .ok ys) {x : α} (hx : x ∈ xs) : ∃ y, f x = .ok y := by
  induction xs generalizing ys with
  | nil => cases hx
  | cons x' xs ih =>
    rw [mapM_cons] at h
    obtain ⟨y, hy, hrest⟩ := bind_eq_ok.1 h
    obtain ⟨ys', hys, _⟩ := bind_eq_ok.1 hrest
    rcases mem_cons.1 hx with rfl | hx
    · exact ⟨y, hy⟩
    · exact ih hys hx

theorem restoreTable_eq (hdistinct : (d.tables.map (·.num)).Nodup) {t : TableMeta}
    (ht : t ∈ d.tables) : d.restoreTable t.info = .ok t.recorded := by
  have hfind : d.tables.find? (fun t' => decide (t'.num = t.info.num)) = some t := by
    cases hcase : d.tables.find? (fun t' => decide (t'.num = t.info.num)) with
    | none =>
      exact absurd (decide_eq_true rfl) (List.find?_eq_none.1 hcase t ht)
    | some t' =>
      have hfound := List.find?_some hcase
      have hnum : t'.num = t.num := of_decide_eq_true hfound
      exact congrArg some (inj_on_of_nodup_map hdistinct (List.mem_of_find?_eq_some hcase) ht
        hnum)
  unfold Disk.restoreTable
  rw [hfind]
  simp [TableMeta.info, TableMeta.recorded]

theorem Stored.restoreTables {acked : List Commit} (h : Stored d acked st) {ts : List TableMeta}
    (hts : d.restoreTables st = .ok ts) :
    (∀ t ∈ tablesAfter acked, t ∈ d.tables) ∧ ts.Perm ((tablesAfter acked).map (·.recorded)) := by
  have hsorted := perm_insertionSort (fun a b : TableInfo => a.num ≤ b.num) st.tables
  have hpresent : ∀ t ∈ tablesAfter acked, t ∈ d.tables := by
    intro t ht
    have hinfo : t.info ∈ st.tables := h.records.tables.symm.subset (List.mem_map.2 ⟨t, ht, rfl⟩)
    obtain ⟨t', ht'⟩ := exists_of_mapM_ok hts (hsorted.symm.subset hinfo)
    unfold Disk.restoreTable at ht'
    split at ht'
    · cases ht'
    · rename_i found hfound
      have hfits := List.find?_some hfound
      have hnum : found.num = t.num := of_decide_eq_true hfits
      have hmem := List.mem_of_find?_eq_some hfound
      exact h.tables t ht found hmem hnum ▸ hmem
  have hall : List.Forall₂ (fun i t => d.restoreTable i = .ok t)
      ((tablesAfter acked).map (·.info)) ((tablesAfter acked).map (·.recorded)) := by
    rw [forall₂_map_left_iff, forall₂_map_right_iff, forall₂_same]
    exact fun t ht => restoreTable_eq h.distinct (hpresent t ht)
  obtain ⟨ts', hts', hperm⟩ := perm_comp_forall₂ (hsorted.trans h.records.tables) hall
  cases hts.symm.trans (mapM_ok_of_forall₂ hts')
  exact ⟨hpresent, hperm⟩

theorem le_highestFileNum {logs : List Nat} {n : Nat}
    (h : n ∈ st.tables.map (·.num) ++ logs ++ d.tables.map (·.num) ++ d.blobs.map (·.1) ++
      d.current.toList) : n ≤ d.highestFileNum st logs := by
  unfold Disk.highestFileNum
  exact le_foldl_max (Or.inr h)

theorem Stored.load {acked : List Commit} (h : Stored d acked st) {logs : List Nat} {s : Session}
    (hload : Catalog.load d logs = .ok s) :
    Inv ⟨d, s, acked, [], []⟩ st (s.tables.map (·.num)) := by
  unfold Catalog.load at hload
  rw [h.replays, ok_bind] at hload
  obtain ⟨ts, hts, hs⟩ := bind_eq_ok.1 hload
  cases hs
  obtain ⟨hpresent, hperm⟩ := h.restoreTables hts
  have hlive : (ts.map (·.recorded)).Perm ((tablesAfter acked).map (·.recorded)) := by
    have hmap := hperm.map (·.recorded)
    simpa [List.map_map, Function.comp_def] using hmap
  have hnums : (ts.map (·.num)).Perm ((tablesAfter acked).map (·.num)) := by
    have hmap := hperm.map (·.num)
    simpa [List.map_map, Function.comp_def, TableMeta.recorded] using hmap
  have htable : ∀ t ∈ d.tables, t.num ≤ d.highestFileNum st logs := fun t ht =>
    le_highestFileNum (by simp; exact Or.inr (Or.inr (Or.inl ⟨t, ht, rfl⟩)))
  have hclaimed : ∀ n ∈ ts.map (·.num), n ≤ d.highestFileNum st logs := by
    intro n hn
    obtain ⟨t, ht, rfl⟩ := List.mem_map.1 (hnums.subset hn)
    exact htable t (hpresent t ht)
  have hblobs := h.records.blobs
  have hfiles : ∀ b ∈ st.blobs ++ [], ∃ f ∈ d.blobs, f.1 = b.num := by
    intro b hb
    rw [append_nil] at hb
    exact h.blobs b (hblobs.subset hb)
  have hdistinct : ((st.blobs ++ ([] : List BlobInfo)).map (·.num)).Nodup := by
    rw [append_nil]
    exact (hblobs.map _).nodup_iff.2 h.records.blobsDistinct
  exact {
    numbered := {
      fileNums := fun t ht => ⟨h.fileNums t ht, htable t ht⟩
      distinct := h.distinct
      claimedLe := hclaimed
      liveClaimed := fun t ht => List.mem_map.2 ⟨t, ht, rfl⟩
      liveDistinct := hnums.nodup_iff.2 h.records.distinct
      retiredGone := by simp [Disk.newSession]
      inputs := by simp [Disk.newSession]
      outputs := by simp [Disk.newSession]
      apart := by simp [Disk.newSession] }
    blobs := {
      fileNums := fun f hf => le_highestFileNum (by
        simp
        exact Or.inr (Or.inr (Or.inr (Or.inl ⟨f.2, hf⟩))))
      present := hfiles
      distinct := hdistinct }
    sequenced := {
      appliedLe := Nat.zero_le _
      liveLe := fun t ht q hq => by
        obtain ⟨t', ht', _, hseqs⟩ := exists_of_recorded hlive ht
        exact h.records.seqs t' ht' q (hseqs ▸ hq)
      outputsLe := by simp [Disk.newSession]
      loaded := by simp [Disk.newSession]
      ingesting := rfl
      reserved := by simp [Disk.newSession] }
    memory := {
      live := by simpa [installed, Disk.newSession] using hlive
      present := by simpa [installed, Disk.newSession] using hpresent
      log := by simpa [installed, Disk.newSession] using h.records.log
      blobs := by simpa [installed, Disk.newSession] using hblobs }
    onDisk := ⟨(Disk.readState_crash_of_settled h.settled false).trans h.replays, h.records,
      hpresent, h.blobs⟩
    currentLe := fun n hn => le_highestFileNum (by
      rw [show d.current = some n from hn]
      simp)
    manCurrent := by simp [Disk.newSession]
    moving := trivial
    held := by simp [Disk.newSession]
    heldReady := fun _ => rfl
    boundary := by simp [Disk.newSession]
    staged := {
      recovering := fun _ => ⟨rfl, rfl⟩
      manWal := fun hne => absurd rfl hne
      readyMan := fun hready => by cases hready
      quiet := fun _ hne => absurd rfl hne
      calm := fun _ hne => absurd rfl hne
      noIngest := fun _ => rfl
      noBlobs := fun _ => rfl }
    seen := fun hne => absurd rfl hne
    phase := .free h.settled fun hne => absurd rfl hne }

namespace World

def disk : World → Disk
  | down disk _ => disk
  | up r => r.disk

def acked : World → List Commit
  | down _ acked => acked
  | up r => r.acked

def pending : World → List Commit
  | down _ _ => []
  | up r => r.pending

def fallbacks : World → List (Nat × List Commit)
  | down _ _ => []
  | up r => r.fallbacks

/-- What a crash may make of the directory. -/
def MayLeave (w : World) (d : Disk) : Prop :=
  ∃ kept, d = w.disk.crash kept ∨ ∃ f ∈ w.fallbacks, d = (w.disk.crash kept).setCurrent f.1

def Ok : World → Prop
  | down d acked => ∃ st, Stored d acked st
  | up r => ∃ st claimed, Inv r st claimed

end World

theorem Fallback.crash {alloc num : Nat} {cs : List Commit} (h : Fallback d alloc num cs)
    (kept : Bool) : ∃ st, ((d.crash kept).setCurrent num).readState = .ok st ∧ Records st cs ∧
      ((d.crash kept).setCurrent num).unsynced = none := by
  obtain ⟨st, edits, hfile, hreplay, hrecords⟩ := h.file
  have hcrash : (d.crash kept).manifests num = some ⟨edits, none⟩ := by
    cases kept <;> simp [Disk.crash, hfile, ManifestFile.crash, ManifestFile.sync,
      ManifestFile.edits]
  refine ⟨st, ?_, hrecords, ?_⟩
  · simpa [Disk.readState, Disk.setCurrent, hcrash, ManifestFile.edits] using hreplay
  · simp [Disk.unsynced, Disk.setCurrent, hcrash]

theorem Inv.stored_crash {r : Running} (h : Inv r st claimed) (kept : Bool) :
    ∃ st', Stored (r.disk.crash kept) (r.survivors kept) st' := by
  obtain ⟨p, st', _, hsurvivors, hdisk, _⟩ := h.crash kept
  have hread := hdisk.replays
  rw [Disk.crash_crash] at hread
  refine ⟨st', r.disk.unsynced_crash kept, hread, hsurvivors ▸ hdisk.records, fun t ht t' ht' => ?_,
    hsurvivors ▸ hdisk.blobs, fun t ht => (h.numbered.fileNums t ht).1, h.numbered.distinct⟩
  exact inj_on_of_nodup_map h.numbered.distinct ht' (hdisk.tables t (hsurvivors ▸ ht))

theorem Inv.stored_fallBack {r : Running} (h : Inv r st claimed) (kept : Bool) {num : Nat}
    {cs : List Commit} (hnum : (num, cs) ∈ r.fallbacks) :
    ∃ st', Stored ((r.disk.crash kept).setCurrent num) cs st' := by
  have hheld := h.held _ hnum
  obtain ⟨st', hread, hrecords, hsettled⟩ := hheld.crash kept
  exact ⟨st', hsettled, hread, hrecords, fun t ht => (hheld.tables t ht).2, hheld.blobs,
    fun t ht => (h.numbered.fileNums t ht).1, h.numbered.distinct⟩

theorem mem_of_lookup {fallbacks : List (Nat × List Commit)} {num : Nat} {cs : List Commit}
    (h : fallbacks.lookup num = some cs) : (num, cs) ∈ fallbacks := by
  obtain ⟨before, after, rfl, _⟩ := lookup_eq_some_iff.1 h
  exact mem_append_right _ mem_cons_self

namespace World

theorem Ok.step {w w' : World} (h : w.Ok) {a : Action} (hsplit : Unsplit w a)
    (hstep : Catalog.step w a = some w') : w'.Ok := by
  cases w with
  | down d acked =>
    obtain ⟨st, hstored⟩ := h
    cases a with
    | load logs =>
      simp only [Catalog.step] at hstep
      split at hstep
      · rename_i s hload
        cases hstep
        exact ⟨st, _, hstored.load hload⟩
      · cases hstep
    | _ => cases hstep
  | up r =>
    obtain ⟨st, claimed, hinv⟩ := h
    cases a with
    | crash kept =>
      cases hstep
      exact hinv.stored_crash kept
    | fallBack kept num =>
      obtain ⟨cs, hcs, rfl⟩ := map_eq_some_iff.1 hstep
      exact hinv.stored_fallBack kept (mem_of_lookup hcs)
    | load logs => simp [Catalog.step, Running.step] at hstep
    | _ =>
      obtain ⟨r', hr', rfl⟩ := map_eq_some_iff.1 hstep
      exact hinv.step hsplit hr'

theorem ok_init : init.Ok := by
  refine ⟨.empty, rfl, rfl, ⟨.nil, rfl, ?_, .nil, nodup_nil, nodup_nil⟩, ?_, ?_, ?_,
    nodup_nil⟩
  all_goals simp [Disk.empty, tablesAfter, blobsAfter]

theorem ok_of_run {as : List Action} {w : World}
    (hrun : Transition.Run Catalog.step Unsplit init as w) : w.Ok :=
  hrun.invariant (fun _ _ _ h hsplit hstep => h.step hsplit hstep) ok_init

theorem Ok.crash {w : World} (h : w.Ok) (kept : Bool) :
    ∃ p st, p <+: w.pending ∧ (w.disk.crash kept).readState = .ok st ∧
      Records st (w.acked ++ p) ∧
      ∀ r, w = .up r → (∀ t ∈ tablesAfter (r.acked ++ p), t ∈ r.disk.tables) ∧
        (r.s.registering = none → blobsAfter (r.acked ++ p) = blobsAfter r.acked) := by
  cases w with
  | down d acked =>
    obtain ⟨st, hstored⟩ := h
    refine ⟨[], st, nil_prefix, ?_, ?_, nofun⟩
    · exact (Disk.readState_crash_of_settled hstored.settled kept).trans hstored.replays
    · rw [append_nil]
      exact hstored.records
  | up r =>
    obtain ⟨st, claimed, hinv⟩ := h
    obtain ⟨p, st', hp, _, hdisk, hblobs⟩ := hinv.crash kept
    have hread := hdisk.replays
    rw [Disk.crash_crash] at hread
    refine ⟨p, st', hp, hread, hdisk.records, ?_⟩
    rintro _ ⟨⟩
    exact ⟨hdisk.tables, hblobs⟩

end World

/-- In addition, no commit is reported while a crash may take `CURRENT` back. -/
def Durable : World → Action → Prop
  | .up r, .rotateWrite => r.s.registering = none
  | .up r, .sync => r.fallbacks = []
  | _, _ => True

theorem Durable.unsplit {w : World} {a : Action} (h : Durable w a) : Unsplit w a := by
  cases w with
  | down d acked => trivial
  | up r =>
    cases a with
    | rotateWrite => exact h
    | _ => trivial

theorem Running.step_frame {r r' : Running} {a : Action} (hstep : r.step a = some r')
    (hsync : a ≠ .sync) (hswitch : a ≠ .rotateSwitch) (hadopt : a ≠ .rotateAdopt) :
    r'.acked = r.acked ∧ r'.fallbacks = r.fallbacks := by
  cases a with
  | sync => exact absurd rfl hsync
  | rotateSwitch => exact absurd rfl hswitch
  | rotateAdopt => exact absurd rfl hadopt
  | _ =>
    simp only [Running.step, Running.sealBlob, Running.start, Running.build, Running.loadSeq,
      Running.abort, Running.commit, Running.commitTables, Running.register, Running.rotateWrite,
      Running.openWAL] at hstep
    repeat' split at hstep
    all_goals first
      | obtain ⟨_, _, rfl⟩ := map_eq_some_iff.1 hstep
      | cases hstep
    all_goals exact ⟨rfl, rfl⟩

namespace World

/-- Each fallback holds all that was reported, and a crash leaves its tables. -/
def Kept : World → Prop
  | down d acked => ∀ t ∈ tablesAfter acked, t ∈ d.tables
  | up r => ∀ f ∈ r.fallbacks, f.2 = r.acked

theorem Kept.step {w w' : World} (h : w.Kept) (hok : w.Ok) {a : Action} (hdurable : Durable w a)
    (hstep : Catalog.step w a = some w') : w'.Kept := by
  cases w with
  | down d acked =>
    cases a with
    | load logs =>
      simp only [Catalog.step] at hstep
      split at hstep <;> cases hstep
      exact nofun
    | _ => cases hstep
  | up r =>
    obtain ⟨st, claimed, hinv⟩ := hok
    cases a with
    | crash kept =>
      cases hstep
      obtain ⟨p, st', _, hsurvivors, hdisk, _⟩ := hinv.crash kept
      exact hsurvivors ▸ hdisk.tables
    | fallBack kept num =>
      obtain ⟨cs, hcs, rfl⟩ := map_eq_some_iff.1 hstep
      obtain rfl : cs = r.acked := h _ (mem_of_lookup hcs)
      exact hinv.onDisk.tables
    | load logs => simp [Catalog.step, Running.step] at hstep
    | sync =>
      obtain ⟨r', hr', rfl⟩ := map_eq_some_iff.1 hstep
      simp only [Running.step, Running.sync] at hr'
      split at hr' <;> cases hr'
      simp [Kept, show r.fallbacks = [] from hdurable]
    | rotateSwitch =>
      obtain ⟨r', hr', rfl⟩ := map_eq_some_iff.1 hstep
      simp only [Running.step, Running.rotateSwitch] at hr'
      split at hr' <;> cases hr'
      exact nofun
    | rotateAdopt =>
      obtain ⟨r', hr', rfl⟩ := map_eq_some_iff.1 hstep
      simp only [Running.step, Running.rotateAdopt] at hr'
      split at hr' <;> cases hr'
      intro f hf
      exact (mem_append.1 hf).elim (h f) fun heq => by rw [mem_singleton.1 heq]
    | _ =>
      obtain ⟨r', hr', rfl⟩ := map_eq_some_iff.1 hstep
      obtain ⟨hacked, hfallbacks⟩ := Running.step_frame hr' nofun nofun nofun
      intro f hf
      rw [hacked]
      exact h f (hfallbacks ▸ hf)

theorem kept_of_run {as : List Action} {w : World}
    (hrun : Transition.Run Catalog.step Durable init as w) : w.Ok ∧ w.Kept := by
  refine hrun.invariant (P := fun w => w.Ok ∧ w.Kept) (fun _ _ _ h hdurable hstep => ?_)
    ⟨ok_init, nofun⟩
  exact ⟨h.1.step hdurable.unsplit hstep, h.2.step h.1 hdurable hstep⟩

end World

/-- Wherever the database crashes, the manifest `CURRENT` names replays to the
tables that some commits lead to, among them all that were reported. -/
theorem crash_replays_commits {as : List Action} {w : World}
    (hrun : Transition.Run step Durable init as w) {d : Disk} (hcrash : w.MayLeave d) :
    ∃ p st, p <+: w.pending ∧ d.readState = .ok st ∧
      st.tables.Perm ((tablesAfter (w.acked ++ p)).map (·.info)) ∧
      st.replayLogNum = boundaryAfter (w.acked ++ p) ∧
      (∀ t ∈ tablesAfter (w.acked ++ p), ∀ q ∈ t.seqs, q ≤ st.lastSeq) ∧
      ∀ i ∈ st.tables, ∃ t ∈ d.tables, t.info = i := by
  obtain ⟨hok, hkept⟩ := World.kept_of_run hrun
  suffices hcase : ∃ p st, p <+: w.pending ∧ d.readState = .ok st ∧ Records st (w.acked ++ p) ∧
      ∀ t ∈ tablesAfter (w.acked ++ p), t ∈ d.tables by
    obtain ⟨p, st, hp, hread, hrecords, htables⟩ := hcase
    refine ⟨p, st, hp, hread, hrecords.tables, hrecords.log, hrecords.seqs, fun i hi => ?_⟩
    obtain ⟨t, ht, hinfo⟩ := List.mem_map.1 (hrecords.tables.subset hi)
    exact ⟨t, htables t ht, hinfo⟩
  obtain ⟨kept, rfl | ⟨⟨num, cs⟩, hnum, rfl⟩⟩ := hcrash
  · obtain ⟨p, st, hp, hread, hrecords, hup⟩ := hok.crash kept
    refine ⟨p, st, hp, hread, hrecords, ?_⟩
    cases w with
    | down d acked =>
      obtain rfl := prefix_nil.1 hp
      rw [append_nil]
      exact hkept
    | up r => exact (hup r rfl).1
  · cases w with
    | down d acked => cases hnum
    | up r =>
      obtain ⟨st, claimed, hinv⟩ := hok
      obtain rfl : cs = r.acked := hkept _ hnum
      obtain ⟨st', hread, hrecords, _⟩ := (hinv.held _ hnum).crash kept
      refine ⟨[], st', nil_prefix, hread, ?_⟩
      simpa [World.acked] using ⟨hrecords, hinv.onDisk.tables⟩

def storedTable (num depth : Nat) (w : TableWriter) : TableMeta :=
  finishTable ⟨fun es _ => es.length, fun es => es.length⟩ 10 num depth w []

def flushedTable (num : Nat) (key : Key) (seq : Nat) : TableMeta :=
  storedTable num 0 ⟨[⟨⟨key, seq, .set⟩, [1]⟩], pairwise_singleton _ _⟩

def mergedPoints : TableWriter :=
  ⟨[⟨⟨[107], 1, .set⟩, [1]⟩, ⟨⟨[108], 2, .set⟩, [1]⟩], by decide⟩

/-- A flush whose edit rotates the manifest, without the directory sync. -/
def adoptedRotation : List Action :=
  [.load [], .openWAL, .rotateWrite, .rotateSwitch, .opened, .reserve 1, .apply 1, .start [],
    .build .engine (flushedTable 3 [107] 1), .loadSeq .engine, .commit .engine, .sync,
    .rotateWrite, .rotateAdopt]

theorem crash_replays_commits_adoptedRotation :
    ∃ w d, Transition.Run step Durable init adoptedRotation w ∧ w.MayLeave d ∧
      w.disk.current = some 4 ∧ d.current = some 2 ∧ ∃ p st, p <+: w.pending ∧
      d.readState = .ok st ∧ st.tables.Perm ((tablesAfter (w.acked ++ p)).map (·.info)) ∧
      st.replayLogNum = boundaryAfter (w.acked ++ p) ∧
      (∀ t ∈ tablesAfter (w.acked ++ p), ∀ q ∈ t.seqs, q ≤ st.lastSeq) ∧
      ∀ i ∈ st.tables, ∃ t ∈ d.tables, t.info = i := by
  have hrun : ∃ w, Transition.Run step Durable init adoptedRotation w ∧
      w.MayLeave ((w.disk.crash true).setCurrent 2) ∧ w.disk.current = some 4 := by
    refine ⟨_, .cons trivial rfl <| .cons trivial rfl <| .cons rfl rfl <| .cons trivial rfl <|
      .cons trivial rfl <| .cons trivial rfl <| .cons trivial rfl <| .cons trivial rfl <|
      .cons trivial rfl <| .cons trivial rfl <| .cons trivial rfl <| .cons rfl rfl <|
      .cons rfl rfl <| .cons trivial rfl <| .nil _, ⟨true, .inr ⟨_, .head _, rfl⟩⟩, rfl⟩
  obtain ⟨w, hrun, hleave, hcurrent⟩ := hrun
  exact ⟨w, _, hrun, hleave, hcurrent, rfl, crash_replays_commits hrun hleave⟩

/-- Two flushes; then, while a compaction merges their tables, the edit of a
checkpoint rotates the manifest without the directory sync. -/
def lostFallback : List Action :=
  [.load [], .openWAL, .rotateWrite, .rotateSwitch, .opened, .reserve 2, .apply 1, .start [],
    .build .engine (flushedTable 3 [107] 1), .loadSeq .engine, .commit .engine, .sync, .release,
    .apply 2, .start [], .build .engine (flushedTable 4 [108] 2), .loadSeq .engine,
    .commit .engine, .sync, .release, .rotateWAL, .start [3, 4],
    .build .engine (storedTable 6 1 mergedPoints), .loadSeq .engine, .commitBoundary, .sync,
    .rotateWrite, .rotateAdopt, .commit .engine, .sync, .release, .removeTable 3, .removeTable 4]

/-- A crash may take `CURRENT` back to the old manifest, which does not know of the
compaction and names the tables it has removed. -/
theorem unsynced_rename_loses_commit :
    ∃ w d st, Transition.exec step init lostFallback = some w ∧ w.MayLeave d ∧
      (tablesAfter w.acked).map (·.num) = [6] ∧ d.readState = .ok st ∧
      st.tables.map (·.num) = [3, 4] ∧ d.tables.map (·.num) = [6] ∧
      load d [] = .error (.noSuchFile 3) :=
  ⟨_, _, _, rfl, ⟨true, .inr ⟨_, .head _, rfl⟩⟩, rfl, rfl, rfl, rfl, rfl⟩


/-- The manifest `CURRENT` names replays, and once no registration is under way it
names the registered blob files. -/
theorem registration_keeps_manifest_replayable {as : List Action} {w : World}
    (hrun : Transition.Run step Unsplit init as w) (kept : Bool) :
    ∃ st, (w.disk.crash kept).readState = .ok st ∧
      ∀ r, w = .up r → r.s.man ≠ none → r.s.registering = none →
        st.blobs.Perm r.s.liveBlobs := by
  have hok := World.ok_of_run hrun
  obtain ⟨p, st, hp, hread, hrecords, hup⟩ := hok.crash kept
  refine ⟨st, hread, fun r hr hman hnone => ?_⟩
  subst hr
  have hperm := hrecords.blobs
  change st.blobs.Perm (blobsAfter (r.acked ++ p)) at hperm
  rw [(hup r rfl).2 hnone] at hperm
  obtain ⟨_, _, hinv⟩ := hok
  obtain ⟨man, hman⟩ := ne_none_iff_exists'.1 hman
  have hmemory := (hinv.memory_acked hman).blobs
  rw [hnone] at hmemory
  simp only [getD_none, append_nil] at hmemory
  exact hperm.trans hmemory.symm

def firstBlob : List Action :=
  [.load [], .openWAL, .rotateWrite, .rotateSwitch, .opened, .start [], .sealBlob [1], .register,
    .commitBlobs, .sync, .release]

theorem registration_keeps_manifest_replayable_firstBlob :
    ∃ w, Transition.Run step Unsplit init firstBlob w ∧
      ∃ st, (w.disk.crash true).readState = .ok st ∧
        ∀ r, w = .up r → r.s.man ≠ none → r.s.registering = none →
          st.blobs.Perm r.s.liveBlobs := by
  have hrun : ∃ w, Transition.Run step Unsplit init firstBlob w :=
    ⟨_, .cons trivial rfl <| .cons trivial rfl <| .cons rfl rfl <| .cons trivial rfl <|
      .cons trivial rfl <| .cons trivial rfl <| .cons trivial rfl <| .cons trivial rfl <|
      .cons trivial rfl <| .cons trivial rfl <| .cons trivial rfl <| .nil _⟩
  obtain ⟨w, hrun⟩ := hrun
  exact ⟨w, hrun, registration_keeps_manifest_replayable hrun true⟩

/-- A flush registers its blob file; before it appends the edit, a checkpoint
appends its own and rotates. -/
def splitRegistration : List Action :=
  [.load [], .openWAL, .rotateWrite, .rotateSwitch, .opened, .start [], .sealBlob [1], .register,
    .rotateWAL, .commitBoundary, .sync, .rotateWrite, .rotateSwitch, .rotateRemove, .commitBlobs,
    .sync]

/-- The new baseline already names the blob file, and replay takes the edit behind
it for a reuse of the number. -/
theorem split_registration_breaks_manifest :
    ∃ w, Transition.exec step init splitRegistration = some w ∧
      (w.disk.crash true).readState = .error (.manifestBlobReused 3) :=
  ⟨_, rfl, rfl⟩

end Catalog

end LevisDB
