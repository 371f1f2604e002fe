import LevisDB.Db.CatalogSteps

/-!
# Appending to the manifest

A commit that fits is appended, synced and installed; a rotation replaces the
manifest by a baseline of what is installed; the next session starts behind it.
-/

namespace LevisDB

open List

namespace Catalog

namespace Inv

variable {r : Running} {st : ManifestState} {claimed : List Nat}
variable {c : Commit} {who : Committer} {inputs outputs : List TableMeta} {last man num : Nat}
  {r' : Running}

section

variable (h : Inv r st claimed)
include h

theorem haveIdentity (hman : r.s.man = some man) :
    st.haveIdentity = true := by
  have hcurrent := h.manCurrent man hman
  obtain ⟨f, hf⟩ := Disk.exists_file h.onDisk.replays hcurrent
  have hreplays := h.onDisk.replays
  rw [Disk.readState_of_file hcurrent hf] at hreplays
  exact replayManifestFile_haveIdentity hreplays

theorem held_current (hman : r.s.man = some man) (g : ManifestFile → ManifestFile) :
    ∀ f ∈ r.fallbacks, Fallback (r.disk.updateManifest man g) r.s.alloc f.1 f.2 := by
  refine fun f hf => (h.held f hf).putManifest (fun heq => ?_) _
  exact (h.held f hf).other (heq ▸ h.manCurrent man hman)

theorem memory_acked (hman : r.s.man = some man) :
    InMemory r.acked r.disk.tables r.s.tables r.s.replayLogNum r.s.liveBlobs r.s.registering := by
  have hmemory := h.memory
  rw [hman] at hmemory
  exact hmemory

theorem append (hman : r.s.man = some man)
    (hmu : r.s.manMu = .free) (hready : r.s.ready = true) {holder : Holder}
    (hfits : st.Fits c.edit) (hsound : Sound r.acked c)
    (htables : ∀ t ∈ tablesAfter (r.acked ++ [c]), t ∈ r.disk.tables ∧ t.num ∉ r.s.retired)
    (hblobs : ∀ b ∈ blobsAfter (r.acked ++ [c]), ∃ f ∈ r.disk.blobs, f.1 = b.num)
    (hlink : Linked r.s.wal r.s.jobs r.s.registering c holder) :
    Inv (r.append man holder c) st claimed := by
  have hcurrent := h.manCurrent man hman
  obtain ⟨f, hf⟩ := Disk.exists_file h.onDisk.replays hcurrent
  have hpending : r.pending = [] := by
    have hphase := h.phase
    rw [hmu] at hphase
    cases hphase with
    | free _ hpending => exact hpending (by simp [hman])
  refine { h with
    memory := ?_
    onDisk := ?_
    moving := trivial
    held := h.held_current hman _
    staged := ?_
    phase := ?_ }
  · have hmemory := h.memory_acked hman
    change InMemory (installed r.s.man _ _) _ _ _ _ _
    rw [hman]
    exact hmemory
  · refine { h.onDisk with replays := ?_ }
    rw [← h.onDisk.replays]
    exact Disk.readState_updateManifest hcurrent fun f => rfl
  · refine { h.staged with calm := fun hready' => ?_ }
    cases hready.symm.trans hready'
  · refine .appending ?_ ?_ ⟨?_, hfits, hsound, htables, hblobs⟩ hlink
    · change r.s.man ≠ none
      simp [hman]
    · change r.pending ++ [c] = [c]
      rw [hpending, nil_append]
    · exact Disk.unsynced_updateManifest hcurrent hf _

theorem ready_of_job (hman : r.s.man = some man)
    {job : Job} (hjob : r.s.jobs who = some job) : r.s.ready = true := by
  by_contra hready
  have hwal := h.staged.busy hjob (by simpa using hready)
  exact h.staged.manWal (by simp [hman]) hwal

theorem sound_tables (hjob : r.s.jobs who = some ⟨inputs, outputs, some last⟩) :
    Sound (installed r.s.man r.acked r.pending) (.tables inputs outputs last) := by
  obtain ⟨hnodup, houtputs⟩ := h.numbered.outputs who _ hjob
  refine ⟨h.sequenced.loaded who _ hjob last rfl, hnodup, fun t ht =>
    ⟨fun hmem => ?_, fun hmem => ?_⟩⟩
  · obtain ⟨i, hi, heq⟩ := mem_map.1 hmem
    have hlive := (h.numbered.inputs who _ hjob).1.subset hi
    exact (houtputs t ht).2 (heq ▸ h.numbered.liveClaimed i hlive)
  · obtain ⟨t', ht', heq⟩ := mem_map.1 hmem
    obtain ⟨t₁, ht₁, hnum⟩ := h.memory.exists_live ht'
    exact (houtputs t ht).2 (heq ▸ hnum ▸ h.numbered.liveClaimed t₁ ht₁)

theorem fits_tables (hman : r.s.man = some man)
    (hjob : r.s.jobs who = some ⟨inputs, outputs, some last⟩) :
    st.Fits (Commit.tables inputs outputs last).edit := by
  obtain ⟨hnodup, houtputs⟩ := h.numbered.outputs who _ hjob
  obtain ⟨hsub, _⟩ := h.numbered.inputs who _ hjob
  have hseen := (h.seen (by simp [hman])).1
  constructor
  · rw [h.haveIdentity hman]
    rfl
  · exact Or.inl rfl
  · intro i hi
    obtain ⟨t, ht, rfl⟩ := mem_map.1 hi
    exact (h.numbered.fileNums t (houtputs t ht).1).1
  · change ((outputs.map (·.info)).map (·.num)).Nodup
    rw [map_map]
    exact hnodup
  · intro i hi hmem
    obtain ⟨t, ht, rfl⟩ := mem_map.1 hi
    exact (houtputs t ht).2 (hseen _ hmem)
  · exact h.numbered.liveDistinct.sublist (hsub.map _)
  · intro n hn
    obtain ⟨i, hi, rfl⟩ := mem_map.1 hn
    have hinfo := map_info_of_recorded (h.memory_acked hman).live
    have hmem := (hinfo.trans h.onDisk.records.tables.symm).subset
      (mem_map.2 ⟨i, hsub.subset hi, rfl⟩)
    exact ⟨i.info, mem_append_left _ hmem, rfl⟩
  · exact nodup_nil
  · intro b hb
    cases hb
  · rfl

theorem present_of_live (hman : r.s.man = some man) :
    ∀ t ∈ tablesAfter r.acked, t ∈ r.disk.tables ∧ t.num ∉ r.s.retired := by
  intro t ht
  refine ⟨h.onDisk.tables t ht, fun hret => ?_⟩
  obtain ⟨t', ht', heq⟩ := (h.memory_acked hman).exists_live ht
  exact (h.numbered.retiredGone _ hret).2 t' ht' heq

theorem present_tables (hman : r.s.man = some man)
    {last : Option Nat}
    (hjob : r.s.jobs who = some ⟨inputs, outputs, last⟩) (q : Nat) :
    ∀ t ∈ tablesAfter (r.acked ++ [.tables inputs outputs q]),
      t ∈ r.disk.tables ∧ t.num ∉ r.s.retired := by
  intro t ht
  rw [tablesAfter_concat] at ht
  rcases mem_append.1 ht with ht | ht
  · exact h.present_of_live hman t (mem_of_mem_filter ht)
  · obtain ⟨hfile, hnew⟩ := (h.numbered.outputs who _ hjob).2 t ht
    exact ⟨hfile, fun hret => hnew (h.numbered.retiredGone _ hret).1⟩

theorem not_ready (hman : r.s.man = none) : r.s.ready = false := by
  by_contra hready
  exact h.staged.readyMan (by simpa using hready) hman

theorem engine_of_recovering (hman : r.s.man = none)
    {job : Job} (hjob : r.s.jobs who = some job) : who = .engine := by
  cases who with
  | engine => rfl
  | ingest =>
    rw [h.sequenced.idle (h.staged.noIngest (h.not_ready hman))] at hjob
    cases hjob

theorem sealed_of_loaded
    (hjob : r.s.jobs .engine = some ⟨inputs, outputs, some last⟩) : r.s.sealedBlobs = [] :=
  h.staged.noBlobs (by simp [hjob])

theorem commit (hstep : r.commit who = some r') : ∃ claimed', Inv r' st claimed' := by
  unfold Running.commit at hstep
  split at hstep
  · rename_i inputs outputs last hjob
    unfold Running.commitTables at hstep
    split at hstep
    · -- recovery installs at once
      rename_i hman hmu
      cases hstep
      refine ⟨claimed ++ outputs.map (·.num), ?_⟩
      have hwho : who = .engine := h.engine_of_recovering hman hjob
      subst hwho
      have hnumbered := h.numbered.install hjob
      refine { h with
        numbered := { hnumbered with
          retiredGone := fun n hn => hnumbered.retiredGone n (mem_append_left _ hn) }
        sequenced := ?_
        memory := ?_
        staged := h.staged.setEngine none (h.staged.busy hjob) fun _ => h.sealed_of_loaded hjob
        seen := fun hne => absurd hman hne
        phase := ?_ }
      · refine (h.sequenced.addLive hjob fun t ht => ?_).endJob .engine
        exact (mem_append.1 ht).imp mem_of_mem_filter id
      · have hmemory : InMemory (_ ++ [.tables inputs outputs last]) _ _ _ _ _ :=
          h.memory.install fun t ht => ((h.numbered.outputs .engine _ hjob).2 t ht).1
        change InMemory (installed r.s.man _ _) _ _ _ _ _
        rw [hman] at hmemory ⊢
        rw [installed, ← append_assoc]
        exact hmemory
      · exact h.phase.recovering hman (h.staged.busy hjob (h.not_ready hman))
    · rename_i man hman hmu
      cases hstep
      have hready := h.ready_of_job hman hjob
      refine ⟨claimed, h.append hman hmu hready (h.fits_tables hman hjob) ?_
        (h.present_tables hman hjob last) ?_ ⟨inputs, outputs, last, hjob, rfl⟩⟩
      · have hsound := h.sound_tables hjob
        rw [hman] at hsound
        exact hsound
      · simpa using h.onDisk.blobs
    · cases hstep
  · cases hstep

theorem register (hstep : r.register = some r') :
    Inv r' st claimed := by
  unfold Running.register at hstep
  split_ifs at hstep with hguard
  obtain ⟨hnone, hblobs⟩ := hguard
  have hjob : r.s.jobs .engine ≠ none := fun hjob => hblobs (h.staged.noBlobs (by simp [hjob]))
  obtain ⟨job, hjob⟩ := Option.ne_none_iff_exists'.1 hjob
  have hmemory := h.memory
  rw [hnone] at hmemory
  have hadd := hmemory.register r.s.sealedBlobs
  rw [← registerBlobs_eq h.blobs.distinct] at hadd
  split at hstep
  · rename_i hman
    cases hstep
    refine { h with
      blobs := h.blobs.register
      memory := ?_
      staged := { h.staged with noBlobs := fun _ => rfl }
      phase := ?_ }
    · have hdone := hadd.registered
      change InMemory (installed r.s.man _ _) _ _ _ _ r.s.registering
      rw [hman] at hdone ⊢
      rw [hnone, installed, ← append_assoc]
      exact hdone
    · exact h.phase.recovering hman (h.staged.busy hjob (h.not_ready hman))
  · rename_i man hman
    cases hstep
    have hready := h.ready_of_job hman hjob
    refine { h with
      blobs := h.blobs.register
      memory := hadd
      staged := ?_
      phase := ?_ }
    · refine { h.staged with recovering := ?_, quiet := ?_, noBlobs := fun _ => rfl }
      · intro hnone'
        cases hman.symm.trans hnone'
      · intro hready'
        cases hready.symm.trans hready'
    · refine h.phase.frame rfl rfl (fun t ht _ => ht) (fun f hf => hf) id (fun _ => by simp)
        fun holder c _ hl => ?_
      cases holder with
      | tables who => exact hl
      | checkpoint => exact hl
      | blobs =>
        obtain ⟨added, hadded, _⟩ := hl
        cases hnone.symm.trans hadded

theorem commitBlobs {added : List BlobInfo}
    (hadded : r.s.registering = some added) (hman : r.s.man = some man)
    (hmu : r.s.manMu = .free) : Inv (r.append man .blobs (.blobs added)) st claimed := by
  have hready : r.s.ready = true := by
    by_contra hready
    have hquiet := h.staged.quiet (by simpa using hready) (h.staged.manWal (by simp [hman]))
    cases hquiet.2.symm.trans hadded
  have hmemory := (h.memory_acked hman).blobs
  rw [hadded] at hmemory
  have hdistinct : ((blobsAfter r.acked ++ added).map (·.num)).Nodup := by
    refine ((hmemory.map _).nodup_iff).1 ?_
    exact h.blobs.distinct.sublist ((sublist_append_left _ _).map _)
  have hpresent : ∀ b ∈ blobsAfter r.acked ++ added, ∃ f ∈ r.disk.blobs, f.1 = b.num :=
    fun b hb => h.blobs.present b (mem_append_left _ (hmemory.symm.subset hb))
  refine h.append hman hmu hready ?_ hdistinct ?_ ?_ ⟨added, hadded, rfl⟩
  · rw [map_append, nodup_append'] at hdistinct
    refine .of_noTables (by rw [h.haveIdentity hman]; rfl) (Or.inl rfl) rfl rfl hdistinct.2.1 ?_ rfl
    intro b hb hseen
    exact hdistinct.2.2 ((h.seen (by simp [hman])).2 _ hseen) (mem_map.2 ⟨b, hb, rfl⟩)
  · simpa using h.present_of_live hman
  · simpa using hpresent

theorem commitBoundary (hwal : r.s.wal = some num)
    (hman : r.s.man = some man) (hmu : r.s.manMu = .free) (hready : r.s.ready = true) :
    Inv (r.append man .checkpoint (.boundary num)) st claimed := by
  obtain ⟨hle, _, hpos⟩ := h.boundary num hwal
  refine h.append hman hmu hready ?_ hpos ?_ ?_ ⟨num, rfl, fun n hn => ?_⟩
  · refine .of_noTables (by rw [h.haveIdentity hman]; rfl) (Or.inr ?_) rfl rfl nodup_nil nofun rfl
    rw [h.onDisk.records.log, ← (h.memory_acked hman).log]
    exact hle
  · simpa using h.present_of_live hman
  · simpa using h.onDisk.blobs
  · cases hwal.symm.trans hn
    exact Nat.le_refl _

theorem onDisk_sync (hman : r.s.man = some man)
    (hc : Unsettled r.disk r.s.retired r.acked st c) :
    OnDisk (r.disk.updateManifest man (·.sync)) (r.acked ++ [c]) (st.after c.edit) ∧
      (r.disk.updateManifest man (·.sync)).unsynced = none := by
  have hcurrent := h.manCurrent man hman
  obtain ⟨f, hf⟩ := Disk.exists_file h.onDisk.replays hcurrent
  obtain ⟨hreplays, hrecords⟩ := hc.onDisk h.onDisk
  refine ⟨⟨?_, hrecords, fun t ht => (hc.tables t ht).1, hc.blobs⟩, ?_⟩
  · rw [← hreplays]
    exact Disk.readState_updateManifest hcurrent fun f => rfl
  · exact Disk.unsynced_updateManifest hcurrent hf _

theorem syncTables (hman : r.s.man = some man)
    (hready : r.s.ready = true)
    (hjob : r.s.jobs who = some ⟨inputs, outputs, some last⟩)
    (hc : Unsettled r.disk r.s.retired r.acked st (.tables inputs outputs last)) :
    Inv ⟨r.disk.updateManifest man (·.sync), r.finish (.tables who) (.tables inputs outputs last),
      r.acked ++ [.tables inputs outputs last], [], r.fallbacks⟩
      (st.after (Commit.tables inputs outputs last).edit) (claimed ++ outputs.map (·.num)) := by
  obtain ⟨hdisk, hsettled⟩ := h.onDisk_sync hman hc
  obtain ⟨hseen, hseenBlobs⟩ := h.seen (by simp [hman])
  have hne : r.s.man ≠ none := by simp [hman]
  refine { h with
    numbered := h.numbered.install hjob
    sequenced := ?_
    memory := ?_
    onDisk := hdisk
    moving := trivial
    held := h.held_current hman _
    staged := .of_ready hready hne (h.staged.manWal hne) ?_
    seen := fun _ => ⟨fun n hn => ?_, ?_⟩
    phase := .appended hsettled hne rfl }
  · refine (h.sequenced.addLive hjob fun t ht => ?_).endJob who
    exact (mem_append.1 ht).imp mem_of_mem_filter id
  · change InMemory (installed r.s.man _ _) _ _ _ _ _
    rw [hman]
    exact (h.memory_acked hman).install fun t ht => ((h.numbered.outputs who _ hjob).2 t ht).1
  · cases who with
    | engine => exact fun _ => h.sealed_of_loaded hjob
    | ingest =>
      change (∀ j ∈ Function.update r.s.jobs .ingest none .engine, j.lastSeq ≠ none) → _
      rw [Function.update_of_ne (by decide)]
      exact h.staged.noBlobs
  · rcases mem_append.1 hn with hn | hn
    · exact mem_append_left _ (hseen n hn)
    · refine mem_append_right _ ?_
      change n ∈ (outputs.map (·.info)).map (·.num) at hn
      rwa [map_map] at hn
  · rw [blobsAfter_concat]
    simpa [ManifestState.after, Commit.edit, ManifestEdit.tableChange] using hseenBlobs

theorem syncBoundary (hman : r.s.man = some man)
    (hready : r.s.ready = true) (hnum : ∀ n ∈ r.s.wal, num ≤ n)
    (hc : Unsettled r.disk r.s.retired r.acked st (.boundary num)) :
    Inv ⟨r.disk.updateManifest man (·.sync), r.finish .checkpoint (.boundary num),
      r.acked ++ [.boundary num], [], r.fallbacks⟩ (st.after (Commit.boundary num).edit) claimed :=
        by
  obtain ⟨hdisk, hsettled⟩ := h.onDisk_sync hman hc
  have hne : r.s.man ≠ none := by simp [hman]
  refine { h with
    memory := ?_
    onDisk := hdisk
    moving := trivial
    held := h.held_current hman _
    boundary := fun n hn => ⟨hnum n hn, (h.boundary n hn).2⟩
    staged := .of_ready hready hne (h.staged.manWal hne) h.staged.noBlobs
    seen := fun _ => ?_
    phase := .appended hsettled hne rfl }
  · change InMemory (installed r.s.man _ _) _ _ _ _ _
    rw [hman]
    exact (h.memory_acked hman).boundary num
  · rw [blobsAfter_concat]
    simpa [ManifestState.after, Commit.edit, ManifestEdit.replayLog] using h.seen hne

theorem syncBlobs (hman : r.s.man = some man)
    (hready : r.s.ready = true) {added : List BlobInfo} (hadded : r.s.registering = some added)
    (hc : Unsettled r.disk r.s.retired r.acked st (.blobs added)) :
    Inv ⟨r.disk.updateManifest man (·.sync), r.finish .blobs (.blobs added),
      r.acked ++ [.blobs added], [], r.fallbacks⟩ (st.after (Commit.blobs added).edit) claimed := by
  obtain ⟨hdisk, hsettled⟩ := h.onDisk_sync hman hc
  obtain ⟨hseen, hseenBlobs⟩ := h.seen (by simp [hman])
  have hne : r.s.man ≠ none := by simp [hman]
  refine { h with
    memory := ?_
    onDisk := hdisk
    moving := trivial
    held := h.held_current hman _
    staged := .of_ready hready hne (h.staged.manWal hne) h.staged.noBlobs
    seen := fun _ => ⟨?_, fun n hn => ?_⟩
    phase := .appended hsettled hne rfl }
  · change InMemory (installed r.s.man _ _) _ _ _ _ none
    have hmemory := h.memory_acked hman
    rw [hadded] at hmemory
    rw [hman]
    exact hmemory.registered
  · simpa [ManifestState.after, Commit.edit, ManifestEdit.blobAdd] using hseen
  · rw [blobsAfter_concat, Commit.addBlobs, map_append]
    exact (mem_append.1 hn).elim (fun hn => mem_append_left _ (hseenBlobs n hn))
      (mem_append_right _)

theorem sync (hstep : r.sync = some r') :
    ∃ st' claimed', Inv r' st' claimed' := by
  unfold Running.sync at hstep
  split at hstep
  · rename_i holder c man hmu hman
    cases hstep
    have hready : r.s.ready = true := by
      by_contra hready
      have hcalm := h.staged.calm (by simpa using hready) (by simp [hman])
      rw [hmu] at hcalm
      cases hcalm
    have hphase := h.phase
    rw [hmu] at hphase
    cases hphase with
    | appending _ hpending hc hlink =>
      rw [hpending]
      cases holder with
      | tables who =>
        obtain ⟨inputs, outputs, last, hjob, rfl⟩ := hlink
        exact ⟨_, _, h.syncTables hman hready hjob hc⟩
      | checkpoint =>
        obtain ⟨num, rfl, hnum⟩ := hlink
        exact ⟨_, _, h.syncBoundary hman hready hnum hc⟩
      | blobs =>
        obtain ⟨added, hadded, rfl⟩ := hlink
        exact ⟨_, _, h.syncBlobs hman hready hadded hc⟩
  · cases hstep

theorem syncFail {holder : Holder}
    (hmu : r.s.manMu = .appending holder c) :
    Inv { r with s := { r.s with manMu := .failed } } st claimed := by
  have hphase := h.phase
  rw [hmu] at hphase
  cases hphase with
  | appending hman hpending hc hlink =>
    refine { h with
      moving := trivial
      staged := { h.staged with calm := fun hready _ => ?_ }
      phase := .failed hman hpending hc fun _ => hlink.registering }
    have hcalm := h.staged.calm hready hman
    rw [hmu] at hcalm
    cases hcalm

theorem free (hunsynced : r.disk.unsynced = none)
    (hpending : r.s.man ≠ none → r.pending = []) :
    Inv { r with s := { r.s with manMu := .free } } st claimed :=
  { h with
    moving := trivial
    staged := { h.staged with calm := fun _ _ => rfl }
    phase := .free hunsynced hpending }

theorem release (hmu : r.s.manMu = .appended) :
    Inv { r with s := { r.s with manMu := .free } } st claimed := by
  have hphase := h.phase
  rw [hmu] at hphase
  cases hphase with
  | appended hunsynced _ hpending => exact h.free hunsynced fun _ => hpending

theorem putManifest (hnum : r.disk.current ≠ some num)
    (f : Option ManifestFile) (hmu : ∀ n, r.s.manMu ≠ .rotating n)
    (hheld : ∀ f ∈ r.fallbacks, f.1 ≠ num) :
    Inv { r with disk := r.disk.putManifest num f } st claimed := by
  have hunsynced := Disk.unsynced_putManifest hnum f
  refine { h with
    onDisk := { h.onDisk with replays := ?_ }
    held := fun f hf => (h.held f hf).putManifest (hheld f hf) _
    phase := ?_ }
  · rw [Disk.readState_putManifest hnum]
    exact h.onDisk.replays
  · have hphase := h.phase
    change Phase _ _ _ _ _ _ _ _ _ _ r.s.manMu
    generalize r.s.manMu = mu at hphase hmu ⊢
    cases hphase with
    | free hun hpending => exact .free (hunsynced.trans hun) hpending
    | appending hman hpending hc hlink =>
      exact .appending hman hpending (hc.frame hunsynced (fun t ht _ => ht) fun f hf => hf) hlink
    | appended hun hman hpending => exact .appended (hunsynced.trans hun) hman hpending
    | failed hman hpending hc hadded =>
      exact .failed hman hpending (hc.frame hunsynced (fun t ht _ => ht) fun f hf => hf) hadded
    | rotating => exact absurd rfl (hmu _)
    | switched hun hman hpending hold => exact .switched (hunsynced.trans hun) hman hpending hold

theorem baseline (hregistering : r.s.registering = none) :
    ∃ st', Baseline (r.disk.putManifest num (some (Running.baseline r.s))) num
      (installed r.s.man r.acked r.pending) claimed st' := by
  have hblobs := h.memory.blobs
  rw [hregistering] at hblobs
  simp only [Option.getD_none, append_nil] at hblobs
  have hpos : ∀ t ∈ r.s.tables, t.num ≠ 0 := by
    intro t ht
    obtain ⟨t', ht', hnum, _⟩ := exists_of_recorded h.memory.live ht
    rw [← hnum]
    exact (h.numbered.fileNums t' (h.memory.present t' ht')).1
  have hdistinct : (r.s.liveBlobs.map (·.num)).Nodup :=
    h.blobs.distinct.sublist ((sublist_append_left _ _).map _)
  have hnums : (r.s.tables.map (·.num)).Perm
      ((tablesAfter (installed r.s.man r.acked r.pending)).map (·.num)) := by
    have hperm := h.memory.live.map (·.num)
    simpa [map_map, Function.comp_def, TableMeta.recorded] using hperm
  have hreplay : replayManifestFile
      [.identity, .baseline r.s.walSeq r.s.replayLogNum r.s.tables r.s.liveBlobs] = .ok _ :=
    replayManifestFile_baseline hpos h.numbered.liveDistinct hdistinct
  refine ⟨_, ⟨_, Function.update_self num _ _, hreplay⟩, ⟨?_, ?_, ?_, ?_, ?_, ?_⟩, fun n hn => ?_,
    fun n hn => ?_⟩
  · exact map_info_of_recorded h.memory.live
  · exact h.memory.log
  · intro t ht q hq
    obtain ⟨t', ht', _, hseqs⟩ := exists_of_recorded h.memory.live.symm ht
    rw [← hseqs] at hq
    exact Nat.le_trans (h.sequenced.liveLe t' ht' q hq) (settledSeq_le _ _)
  · exact hblobs
  · exact hnums.nodup_iff.1 h.numbered.liveDistinct
  · exact (hblobs.map _).nodup_iff.1 hdistinct
  · obtain ⟨t, ht, rfl⟩ := mem_map.1 hn
    exact h.numbered.liveClaimed t ht
  · exact (hblobs.map _).subset hn

end

theorem installed_eq (hpending : r.s.man ≠ none → r.pending = []) :
    installed r.s.man r.acked r.pending = r.acked ++ r.pending := by
  cases hman : r.s.man with
  | none => rfl
  | some man =>
    rw [hpending (by simp [hman]), append_nil]
    rfl

section

variable (h : Inv r st claimed)
include h

theorem rotateWrite (hregistering : r.s.registering = none)
    (hstep : r.rotateWrite = some r') : Inv r' st claimed := by
  unfold Running.rotateWrite at hstep
  split_ifs at hstep with hmay
  split at hstep
  · cases hstep
  · rename_i num hnum
    cases hstep
    obtain rfl := allocNext_eq_some hnum
    have hstage : (∀ n, r.s.manMu ≠ .rotating n) ∧ r.disk.unsynced = none ∧ r.s.wal ≠ none ∧
        (r.s.man ≠ none → r.pending = []) ∧ (r.s.ready = false → r.s.man = none) := by
      have hphase := h.phase
      have hcalm := h.staged.calm
      unfold Running.MayRotate at hmay
      split at hmay
      · rename_i hman hmu
        rw [hmu] at hphase
        cases hphase with
        | free hun _ =>
          exact ⟨by simp [hmu], hun, hmay, fun hne => absurd hman hne, fun _ => hman⟩
      · rename_i man hman hmu
        rw [hmu] at hphase hcalm
        cases hphase with
        | appended hun hne hpending =>
          refine ⟨by simp [hmu], hun, h.staged.manWal hne, fun _ => hpending, fun hready => ?_⟩
          cases hcalm hready hne
      · exact hmay.elim
    obtain ⟨hmu, hunsynced, hwal, hpending, hready⟩ := hstage
    have hnum : r.disk.current ≠ some (r.s.alloc + 1) := by
      intro heq
      have := h.currentLe _ heq
      omega
    obtain ⟨st', hbase⟩ := h.baseline hregistering
    rw [installed_eq hpending] at hbase
    have hheld : ∀ f ∈ r.fallbacks, f.1 ≠ r.s.alloc + 1 := fun f hf =>
      (Nat.lt_succ_of_le (h.held f hf).numLe).ne
    have hput := (h.putManifest hnum (some (Running.baseline r.s)) hmu hheld).grow
      (Nat.le_succ r.s.alloc)
    refine { hput with
      moving := ⟨Nat.le_refl _, hheld⟩
      staged := { h.staged with calm := fun hr hne => absurd (hready hr) hne }
      phase := ?_ }
    exact .rotating ((Disk.unsynced_putManifest hnum _).trans hunsynced) hwal hpending hnum hbase

theorem rotateFail (hmu : r.s.manMu = .rotating num) :
    Inv { r with
      disk := r.disk.putManifest num none
      s := { r.s with manMu := .free } } st claimed := by
  have hphase := h.phase
  have hmoving := h.moving
  rw [hmu] at hphase hmoving
  cases hphase with
  | rotating hunsynced _ hpending hnum _ =>
    exact (h.free hunsynced hpending).putManifest hnum none (by simp) hmoving.2

theorem rotateRemove {old : Nat} (hmu : r.s.manMu = .switched old) :
    Inv { r with
      disk := r.disk.putManifest old none
      s := { r.s with manMu := .free } } st claimed := by
  have hphase := h.phase
  have hmoving := h.moving
  rw [hmu] at hphase hmoving
  cases hphase with
  | switched hunsynced _ hpending hold =>
    refine (h.free hunsynced fun _ => hpending).putManifest hold none (by simp) fun f hf => ?_
    rw [show r.fallbacks = [] from hmoving] at hf
    cases hf

theorem switch (hmu : r.s.manMu = .rotating num) (mu : ManMu)
    (fallbacks : List (Nat × List Commit)) (hcalm : r.s.ready = false → mu = .free)
    (hmoving : Moving r.s.alloc fallbacks mu)
    (hheld : ∀ f ∈ fallbacks, Fallback (r.disk.setCurrent num) r.s.alloc f.1 f.2)
    (hheldReady : r.s.ready = false → fallbacks = [])
    (hphase : ∀ st', (r.disk.setCurrent num).unsynced = none → r.disk.current ≠ some num →
      Phase (r.disk.setCurrent num) (some num) r.s.wal (r.acked ++ r.pending) [] r.s.retired
        r.s.jobs r.s.registering st' claimed mu) :
    ∃ st', Inv ⟨r.disk.setCurrent num, { r.s with man := some num, manMu := mu },
      r.acked ++ r.pending, [], fallbacks⟩ st' claimed := by
  have hrotating := h.phase
  have hle := h.moving
  rw [hmu] at hrotating hle
  cases hrotating with
  | rotating hunsynced hwal hpending hnum hbase =>
    rename_i st'
    obtain ⟨edits, hfile, hreplay⟩ := hbase.file
    have hmemory := h.memory
    rw [installed_eq hpending] at hmemory
    refine ⟨st', { h with
      memory := hmemory
      onDisk := ⟨?_, hbase.records, hmemory.present, ?_⟩
      currentLe := ?_
      manCurrent := fun n hn => hn
      moving := hmoving
      held := hheld
      heldReady := hheldReady
      staged := ?_
      seen := fun _ => ⟨hbase.seenTables, hbase.seenBlobs⟩
      phase := hphase st' (by simp [Disk.unsynced, Disk.setCurrent, hfile]) hnum }⟩
    · have hnew : (r.disk.setCurrent num).manifests num = some ⟨edits, none⟩ := hfile
      refine (Disk.readState_of_file rfl hnew false).trans ?_
      simpa [ManifestFile.crash, ManifestFile.edits] using hreplay
    · intro b hb
      refine h.blobs.present b (mem_append_left _ (hmemory.blobs.symm.subset ?_))
      exact mem_append_left _ hb
    · rintro n ⟨⟩
      exact hle.1
    · exact { h.staged with
        recovering := fun hnone => by cases hnone
        manWal := fun _ => hwal
        readyMan := fun _ => by simp
        calm := fun hready _ => hcalm hready }

theorem ready_of_rotating (hmu : r.s.manMu = .rotating num) (hman : r.s.man ≠ none) :
    r.s.ready = true := by
  by_contra hready
  have hcalm := h.staged.calm (by simpa using hready) hman
  rw [hmu] at hcalm
  cases hcalm

theorem rotateSwitch (hstep : r.rotateSwitch = some r') :
    ∃ st', Inv r' st' claimed := by
  unfold Running.rotateSwitch at hstep
  split at hstep
  · rename_i num hmu
    cases hstep
    refine h.switch hmu _ [] ?_ ?_ nofun (fun _ => rfl) fun st' hsettled hnum => ?_
    all_goals cases hman : r.s.man with
      | none => ?_
      | some man => ?_
    · exact fun _ => rfl
    · intro hready
      cases (h.ready_of_rotating hmu (by simp [hman])).symm.trans hready
    · trivial
    · rfl
    · exact .free hsettled fun _ => rfl
    · refine .switched hsettled (by simp) rfl fun heq => hnum ?_
      rw [h.manCurrent man hman]
      exact heq.symm
  · cases hstep

theorem fallback (hman : r.s.man = some man) (hunsynced : r.disk.unsynced = none)
    (hnum : r.disk.current ≠ some num) :
    Fallback (r.disk.setCurrent num) r.s.alloc man r.acked := by
  have hcurrent := h.manCurrent man hman
  obtain ⟨⟨edits, unsynced⟩, hf⟩ := Disk.exists_file h.onDisk.replays hcurrent
  obtain rfl : unsynced = none := by simpa [Disk.unsynced, hcurrent, hf] using hunsynced
  have hreplays := h.onDisk.replays
  rw [Disk.readState_of_file hcurrent hf] at hreplays
  refine ⟨fun heq => hnum (hcurrent.trans heq.symm), h.currentLe man hcurrent,
    ⟨st, edits, hf, ?_, h.onDisk.records⟩, fun t ht => ?_, h.onDisk.blobs⟩
  · simpa [ManifestFile.crash, ManifestFile.edits] using hreplays
  · have hmem := h.onDisk.tables t ht
    exact ⟨(h.numbered.fileNums t hmem).2, fun t' ht' heq =>
      inj_on_of_nodup_map h.numbered.distinct ht' hmem heq⟩

theorem rotateAdopt (hstep : r.rotateAdopt = some r') : ∃ st', Inv r' st' claimed := by
  unfold Running.rotateAdopt at hstep
  split at hstep
  · rename_i num old hmu hman
    cases hstep
    have hphase := h.phase
    have hmoving := h.moving
    rw [hmu] at hphase hmoving
    cases hphase with
    | rotating hunsynced _ hpending hnum _ =>
      have hready := h.ready_of_rotating hmu (by simp [hman])
      have hnil := hpending (by simp [hman])
      have hswitch := h.switch hmu .free (r.fallbacks ++ [(old, r.acked)])
        (fun _ => rfl) trivial (fun f hf => ?_)
        (fun hready' => by cases hready.symm.trans hready')
        fun st' hsettled _ => .free hsettled fun _ => rfl
      · rw [hnil, append_nil] at hswitch
        simpa only [hnil] using hswitch
      · rcases mem_append.1 hf with hf | hf
        · refine (h.held f hf).frame (Nat.le_refl _) (fun heq => ?_) rfl (fun _ => Or.inl)
            fun _ => id
          exact hmoving.2 f hf (Option.some.inj heq).symm
        · rw [mem_singleton.1 hf]
          exact h.fallback hman hunsynced hnum
  · cases hstep

theorem openWAL (hstep : r.openWAL = some r') :
    Inv r' st claimed := by
  unfold Running.openWAL at hstep
  split at hstep
  · rename_i num hwal hjob hnum
    cases hstep
    obtain rfl := allocNext_eq_some hnum
    have hman : r.s.man = none := by
      by_contra hne
      exact h.staged.manWal hne hwal
    have hready := h.not_ready hman
    have hgrow := h.grow (Nat.le_succ r.s.alloc)
    refine { hgrow with
      memory := ?_
      boundary := ?_
      staged := ?_
      phase := h.phase.recovering hman hwal }
    · have hmemory := h.memory.boundary (r.s.alloc + 1)
      change InMemory (installed r.s.man _ _) _ _ _ _ _
      rw [hman] at hmemory ⊢
      rw [installed, ← append_assoc]
      exact hmemory
    · rintro n ⟨⟩
      exact ⟨Nat.le_refl _, Nat.le_refl _, Nat.succ_ne_zero _⟩
    · refine { h.staged with manWal := fun _ => by simp, quiet := fun _ _ => ⟨fun who => ?_, ?_⟩ }
      · cases who with
        | engine => exact hjob
        | ingest => exact h.sequenced.idle (h.staged.noIngest hready)
      · exact (h.staged.recovering hman).1
  · cases hstep

theorem opened (hman : r.s.man ≠ none) :
    Inv { r with s := { r.s with ready := true } } st claimed :=
  { h with
    heldReady := nofun
    staged := .of_ready rfl hman (h.staged.manWal hman) h.staged.noBlobs }

theorem cleaning (hclean : Running.Cleaning r.s) :
    (∀ who, r.s.jobs who = none) ∧ r.s.sealedBlobs = [] ∧ r.s.manMu = .free ∧
      InMemory r.acked r.disk.tables r.s.tables r.s.replayLogNum r.s.liveBlobs none := by
  obtain ⟨hman, hready⟩ := hclean
  obtain ⟨hjobs, hregistering⟩ := h.staged.quiet hready (h.staged.manWal hman)
  obtain ⟨man, hman'⟩ := Option.ne_none_iff_exists'.1 hman
  have hmemory := h.memory_acked hman'
  rw [hregistering] at hmemory
  exact ⟨hjobs, h.staged.noBlobs (by simp [hjobs]), h.staged.calm hready hman, hmemory⟩

theorem cleanTable (hclean : Running.Cleaning r.s)
    (hnum : ∀ t ∈ r.s.tables, t.num ≠ num) :
    Inv { r with disk := { r.disk with
      tables := r.disk.tables.filter fun t => decide (t.num ≠ num) } } st claimed := by
  obtain ⟨hjobs, _, hmu, hmemory⟩ := h.cleaning hclean
  refine { h with
    numbered := h.numbered.removeFile (by simp [hjobs])
    held := by simp [h.heldReady hclean.2]
    memory := h.memory.removeFile hnum
    onDisk := { h.onDisk with tables := (hmemory.removeFile hnum).present }
    phase := ?_ }
  have hphase := h.phase
  change Phase _ _ _ _ _ _ _ _ _ _ r.s.manMu
  rw [hmu] at hphase ⊢
  cases hphase with
  | free hunsynced hpending => exact .free hunsynced hpending

theorem cleanBlob (hclean : Running.Cleaning r.s)
    (hnum : ∀ b ∈ r.s.liveBlobs, b.num ≠ num) :
    Inv { r with disk := { r.disk with
      blobs := r.disk.blobs.filter fun b => decide (b.1 ≠ num) } } st claimed := by
  obtain ⟨_, hsealed, hmu, hmemory⟩ := h.cleaning hclean
  have hblobs := h.blobs
  rw [hsealed] at hblobs
  have hremoved := hblobs.removeFile hnum
  refine { h with
    blobs := ?_
    onDisk := { h.onDisk with blobs := fun b hb => ?_ }
    held := by simp [h.heldReady hclean.2]
    phase := ?_ }
  · change BlobsNumbered _ _ _ r.s.sealedBlobs
    rw [hsealed]
    exact hremoved
  · refine hremoved.present b (mem_append_left _ (hmemory.blobs.symm.subset ?_))
    exact mem_append_left _ hb
  · have hphase := h.phase
    change Phase _ _ _ _ _ _ _ _ _ _ r.s.manMu
    rw [hmu] at hphase ⊢
    cases hphase with
    | free hunsynced hpending => exact .free hunsynced hpending

theorem cleanManifest (hclean : Running.Cleaning r.s)
    (hnum : r.s.man ≠ some num) : Inv { r with disk := r.disk.putManifest num none } st claimed :=
    by
  obtain ⟨_, _, hmu, _⟩ := h.cleaning hclean
  obtain ⟨man, hman⟩ := Option.ne_none_iff_exists'.1 hclean.1
  refine h.putManifest ?_ none (by simp [hmu]) (by simp [h.heldReady hclean.2])
  rw [h.manCurrent man hman, ← hman]
  exact hnum

end

end Inv

end Catalog

end LevisDB
