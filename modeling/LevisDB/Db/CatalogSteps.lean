import LevisDB.Db.CatalogInvariant

/-!
# Steps of the catalog

The invariant of an open database, and the steps that leave its manifest alone:
sequences, file numbers, the tables and blob files a job writes.
-/

namespace LevisDB

open List Function

namespace Catalog

/-- What a session holds in memory is what its installed commits lead to. -/
structure InMemory (installed : List Commit) (files tables : List TableMeta) (replayLogNum : Nat)
    (liveBlobs : List BlobInfo) (registering : Option (List BlobInfo)) : Prop where
  live : (tables.map (·.recorded)).Perm ((tablesAfter installed).map (·.recorded))
  present : ∀ t ∈ tablesAfter installed, t ∈ files
  log : replayLogNum = boundaryAfter installed
  blobs : liveBlobs.Perm (blobsAfter installed ++ registering.getD [])

namespace InMemory

variable {installed : List Commit} {files tables : List TableMeta} {replayLogNum : Nat}
  {liveBlobs : List BlobInfo} {registering : Option (List BlobInfo)}

theorem install (h : InMemory installed files tables replayLogNum liveBlobs registering)
    {inputs outputs : List TableMeta} {lastSeq : Nat} (houtputs : ∀ t ∈ outputs, t ∈ files) :
    InMemory (installed ++ [.tables inputs outputs lastSeq]) files
      ((tables.filter fun t => decide (t.num ∉ inputs.map (·.num))) ++ outputs) replayLogNum
      liveBlobs registering := by
  have hfilter : ∀ ts : List TableMeta,
      (ts.filter fun t => decide (t.num ∉ inputs.map (·.num))).map (·.recorded) =
        (ts.map (·.recorded)).filter fun t => decide (t.num ∉ inputs.map (·.num)) := by
    intro ts
    rw [filter_map]
    rfl
  refine ⟨?_, ?_, ?_, ?_⟩
  · rw [tablesAfter_concat, Commit.install, map_append, map_append, hfilter, hfilter]
    exact (h.live.filter _).append_right _
  · intro t ht
    rw [tablesAfter_concat] at ht
    rcases mem_append.1 ht with ht | ht
    · exact h.present t (mem_of_mem_filter ht)
    · exact houtputs t ht
  · rw [boundaryAfter_concat]
    exact h.log
  · rw [blobsAfter_concat]
    exact h.blobs

theorem boundary (h : InMemory installed files tables replayLogNum liveBlobs registering)
    (num : Nat) :
    InMemory (installed ++ [.boundary num]) files tables num liveBlobs registering :=
  ⟨by simpa using h.live, by simpa using h.present, by simp, by simpa using h.blobs⟩

theorem register (h : InMemory installed files tables replayLogNum liveBlobs none)
    (added : List BlobInfo) :
    InMemory installed files tables replayLogNum (liveBlobs ++ added) (some added) :=
  { h with blobs := by simpa using h.blobs.append_right added }

theorem registered {added : List BlobInfo}
    (h : InMemory installed files tables replayLogNum liveBlobs (some added)) :
    InMemory (installed ++ [.blobs added]) files tables replayLogNum liveBlobs none :=
  ⟨by simpa using h.live, by simpa using h.present, by simpa using h.log, by simpa using h.blobs⟩

section

variable (h : InMemory installed files tables replayLogNum liveBlobs registering)
include h

theorem addFile (t : TableMeta) :
    InMemory installed (files ++ [t]) tables replayLogNum liveBlobs registering :=
  { h with present := fun t' ht' => mem_append_left _ (h.present t' ht') }

theorem exists_live
    {t : TableMeta} (ht : t ∈ tablesAfter installed) : ∃ t' ∈ tables, t'.num = t.num := by
  obtain ⟨t', ht', hnum, _⟩ := exists_of_recorded h.live.symm ht
  exact ⟨t', ht', hnum⟩

theorem removeFile {num : Nat} (hnum : ∀ t ∈ tables, t.num ≠ num) :
    InMemory installed (files.filter fun t => decide (t.num ≠ num)) tables replayLogNum liveBlobs
      registering := by
  refine { h with present := fun t ht => mem_filter.2 ⟨h.present t ht, ?_⟩ }
  obtain ⟨t', ht', heq⟩ := h.exists_live ht
  exact decide_eq_true (heq ▸ hnum t' ht')

end

end InMemory

namespace Disk

theorem readState_congr {d d' : Disk} {kept : Bool} (hcurrent : d'.current = d.current)
    (hfile : ∀ n, d.current = some n →
      (d'.manifests n).map (·.crash kept) = (d.manifests n).map (·.crash kept)) :
    (d'.crash kept).readState = (d.crash kept).readState := by
  unfold readState crash
  simp only [hcurrent]
  cases hc : d.current with
  | none => rfl
  | some n => simp only [hfile n hc]

theorem readState_putManifest {d : Disk} {num : Nat} (hnum : d.current ≠ some num)
    (f : Option ManifestFile) (kept : Bool) :
    ((d.putManifest num f).crash kept).readState = (d.crash kept).readState := by
  refine readState_congr rfl fun n hn => ?_
  have hne : n ≠ num := fun heq => hnum (heq ▸ hn)
  simp [putManifest, update_of_ne hne]

theorem readState_of_file {d : Disk} {n : Nat} {f : ManifestFile} (hcurrent : d.current = some n)
    (hfile : d.manifests n = some f) (kept : Bool) :
    (d.crash kept).readState = replayManifestFile (f.crash kept).edits := by
  simp [readState, crash, hcurrent, hfile]

theorem unsynced_putManifest {d : Disk} {num : Nat} (hnum : d.current ≠ some num)
    (f : Option ManifestFile) : (d.putManifest num f).unsynced = d.unsynced := by
  unfold unsynced putManifest
  cases hc : d.current with
  | none => rfl
  | some n =>
    have hne : n ≠ num := fun heq => hnum (heq ▸ hc)
    simp [update_of_ne hne]

theorem exists_file {d : Disk} {kept : Bool} {st : ManifestState} {n : Nat}
    (hread : (d.crash kept).readState = .ok st) (hcurrent : d.current = some n) :
    ∃ f, d.manifests n = some f := by
  cases hfile : d.manifests n with
  | none => simp [readState, crash, hcurrent, hfile] at hread
  | some f => exact ⟨f, rfl⟩

theorem unsynced_updateManifest {d : Disk} {n : Nat} {f : ManifestFile}
    (hcurrent : d.current = some n) (hfile : d.manifests n = some f)
    (g : ManifestFile → ManifestFile) : (d.updateManifest n g).unsynced = (g f).unsynced := by
  simp [unsynced, updateManifest, putManifest, hcurrent, hfile]

theorem readState_updateManifest {d : Disk} {n : Nat} {g : ManifestFile → ManifestFile}
    {kept kept' : Bool} (hcurrent : d.current = some n)
    (hg : ∀ f, (g f).crash kept = f.crash kept') :
    ((d.updateManifest n g).crash kept).readState = (d.crash kept').readState := by
  cases hfile : d.manifests n <;>
    simp [readState, crash, updateManifest, putManifest, hcurrent, hfile, hg]

end Disk

/-- The files hold what the reported commits lead to. -/
structure OnDisk (d : Disk) (acked : List Commit) (st : ManifestState) : Prop where
  replays : (d.crash false).readState = .ok st
  records : Records st acked
  tables : ∀ t ∈ tablesAfter acked, t ∈ d.tables
  blobs : ∀ b ∈ blobsAfter acked, ∃ f ∈ d.blobs, f.1 = b.num

/-- The record of `c` is written and may survive a crash. -/
structure Unsettled (d : Disk) (retired : List Nat) (acked : List Commit) (st : ManifestState)
    (c : Commit) : Prop where
  record : d.unsynced = some c.edit
  fits : st.Fits c.edit
  sound : Sound acked c
  tables : ∀ t ∈ tablesAfter (acked ++ [c]), t ∈ d.tables ∧ t.num ∉ retired
  blobs : ∀ b ∈ blobsAfter (acked ++ [c]), ∃ f ∈ d.blobs, f.1 = b.num

theorem Unsettled.onDisk {d : Disk} {retired : List Nat} {acked : List Commit}
    {st : ManifestState} {c : Commit} (h : Unsettled d retired acked st c)
    (hdisk : OnDisk d acked st) :
    (d.crash true).readState = .ok (st.after c.edit) ∧
      Records (st.after c.edit) (acked ++ [c]) := by
  refine ⟨?_, hdisk.records.concat h.sound⟩
  have hrec := h.record
  unfold Disk.unsynced at hrec
  obtain ⟨f, hf, hunsynced⟩ := Option.bind_eq_some_iff.1 hrec
  obtain ⟨n, hcurrent, hfile⟩ := Option.bind_eq_some_iff.1 hf
  have hreplays := hdisk.replays
  rw [Disk.readState_of_file hcurrent hfile] at hreplays
  rw [Disk.readState_of_file hcurrent hfile]
  have hsynced : (f.crash false).edits = f.synced :=
    by simp [ManifestFile.crash, ManifestFile.edits]
  have hkept : (f.crash true).edits = f.synced ++ [c.edit] := by
    simp [ManifestFile.crash, ManifestFile.sync, ManifestFile.edits, hunsynced]
  rw [hsynced] at hreplays
  rw [hkept]
  exact replayManifestFile_concat hreplays h.fits

def installed (man : Option Nat) (acked pending : List Commit) : List Commit :=
  match man with
  | none => acked ++ pending
  | some _ => acked

/-- The commit being appended is the one its holder has prepared. -/
def Linked (wal : Option Nat) (jobs : Committer → Option Job)
    (registering : Option (List BlobInfo)) (c : Commit) : Holder → Prop
  | .tables who => ∃ inputs outputs last,
      jobs who = some ⟨inputs, outputs, some last⟩ ∧ c = .tables inputs outputs last
  | .checkpoint => ∃ num, c = .boundary num ∧ ∀ n ∈ wal, num ≤ n
  | .blobs => ∃ added, registering = some added ∧ c = .blobs added

theorem Linked.registering {wal : Option Nat} {jobs : Committer → Option Job}
    {registering : Option (List BlobInfo)} {c : Commit} {holder : Holder}
    (h : Linked wal jobs registering c holder) {added : List BlobInfo} (hc : c = .blobs added) :
    registering ≠ none := by
  subst hc
  cases holder with
  | tables who =>
    obtain ⟨_, _, _, _, heq⟩ := h
    cases heq
  | checkpoint =>
    obtain ⟨_, heq, _⟩ := h
    cases heq
  | blobs =>
    obtain ⟨_, hreg, _⟩ := h
    simp [hreg]

structure Baseline (d : Disk) (num : Nat) (cs : List Commit) (claimed : List Nat)
    (st : ManifestState) : Prop where
  file : ∃ edits, d.manifests num = some ⟨edits, none⟩ ∧ replayManifestFile edits = .ok st
  records : Records st cs
  seenTables : ∀ n ∈ st.seenTableNums, n ∈ claimed
  seenBlobs : ∀ n ∈ st.seenBlobNums, n ∈ (blobsAfter cs).map (·.num)

/-- The commits of a manifest that `CURRENT` may name again. -/
structure Fallback (d : Disk) (alloc num : Nat) (cs : List Commit) : Prop where
  other : d.current ≠ some num
  numLe : num ≤ alloc
  file : ∃ st edits, d.manifests num = some ⟨edits, none⟩ ∧ replayManifestFile edits = .ok st ∧
    Records st cs
  tables : ∀ t ∈ tablesAfter cs, t.num ≤ alloc ∧ ∀ t' ∈ d.tables, t'.num = t.num → t' = t
  blobs : ∀ b ∈ blobsAfter cs, ∃ f ∈ d.blobs, f.1 = b.num

theorem Fallback.frame {d d' : Disk} {alloc alloc' num : Nat} {cs : List Commit}
    (h : Fallback d alloc num cs) (hle : alloc ≤ alloc') (hother : d'.current ≠ some num)
    (hfile : d'.manifests num = d.manifests num)
    (htables : ∀ t ∈ d'.tables, t ∈ d.tables ∨ alloc < t.num)
    (hblobs : ∀ f ∈ d.blobs, f ∈ d'.blobs) : Fallback d' alloc' num cs where
  other := hother
  numLe := Nat.le_trans h.numLe hle
  file := by simpa only [hfile] using h.file
  tables t ht := by
    obtain ⟨htle, hsame⟩ := h.tables t ht
    refine ⟨Nat.le_trans htle hle, fun t' ht' heq => ?_⟩
    exact (htables t' ht').elim (fun hmem => hsame t' hmem heq) fun hlt => by omega
  blobs b hb := by
    obtain ⟨f, hf, heq⟩ := h.blobs b hb
    exact ⟨f, hblobs f hf, heq⟩

theorem Fallback.putManifest {d : Disk} {alloc num n : Nat} {cs : List Commit}
    (h : Fallback d alloc num cs) (hne : num ≠ n) (f : Option ManifestFile) :
    Fallback (d.putManifest n f) alloc num cs :=
  h.frame (Nat.le_refl _) h.other (update_of_ne hne _ _) (fun _ => Or.inl) fun _ => id

/-- A rotation under way is to a new manifest, and past any fallback once its
directory sync has returned. -/
def Moving (alloc : Nat) (fallbacks : List (Nat × List Commit)) : ManMu → Prop
  | .rotating num => num ≤ alloc ∧ ∀ f ∈ fallbacks, f.1 ≠ num
  | .switched _ => fallbacks = []
  | _ => True

theorem Moving.grow {alloc alloc' : Nat} {fallbacks : List (Nat × List Commit)} {mu : ManMu}
    (h : Moving alloc fallbacks mu) (hle : alloc ≤ alloc') : Moving alloc' fallbacks mu := by
  cases mu with
  | rotating num => exact ⟨Nat.le_trans h.1 hle, h.2⟩
  | _ => exact h

inductive Phase (d : Disk) (man wal : Option Nat) (acked pending : List Commit)
    (retired : List Nat) (jobs : Committer → Option Job) (registering : Option (List BlobInfo))
    (st : ManifestState) (claimed : List Nat) : ManMu → Prop
  | free (hunsynced : d.unsynced = none) (hpending : man ≠ none → pending = []) :
      Phase d man wal acked pending retired jobs registering st claimed .free
  | appending {holder : Holder} {c : Commit} (hman : man ≠ none) (hpending : pending = [c])
      (hc : Unsettled d retired acked st c) (hlink : Linked wal jobs registering c holder) :
      Phase d man wal acked pending retired jobs registering st claimed (.appending holder c)
  | appended (hunsynced : d.unsynced = none) (hman : man ≠ none) (hpending : pending = []) :
      Phase d man wal acked pending retired jobs registering st claimed .appended
  | failed {c : Commit} (hman : man ≠ none) (hpending : pending = [c])
      (hc : Unsettled d retired acked st c)
      (hblobs : ∀ added, c = .blobs added → registering ≠ none) :
      Phase d man wal acked pending retired jobs registering st claimed .failed
  | rotating {num : Nat} {st' : ManifestState} (hunsynced : d.unsynced = none) (hwal : wal ≠ none)
      (hpending : man ≠ none → pending = []) (hnum : d.current ≠ some num)
      (hbase : Baseline d num (acked ++ pending) claimed st') :
      Phase d man wal acked pending retired jobs registering st claimed (.rotating num)
  | switched {old : Nat} (hunsynced : d.unsynced = none) (hman : man ≠ none)
      (hpending : pending = []) (hold : d.current ≠ some old) :
      Phase d man wal acked pending retired jobs registering st claimed (.switched old)

structure Staged (man wal : Option Nat) (ready : Bool) (ingestSeq : Option Nat)
    (registering : Option (List BlobInfo)) (retired : List Nat) (jobs : Committer → Option Job)
    (sealedBlobs : List BlobInfo) (manMu : ManMu) : Prop where
  recovering : man = none → registering = none ∧ retired = []
  manWal : man ≠ none → wal ≠ none
  readyMan : ready = true → man ≠ none
  quiet : ready = false → wal ≠ none → (∀ who, jobs who = none) ∧ registering = none
  calm : ready = false → man ≠ none → manMu = .free
  noIngest : ready = false → ingestSeq = none
  noBlobs : (∀ j ∈ jobs .engine, j.lastSeq ≠ none) → sealedBlobs = []

namespace Staged

variable {man wal : Option Nat} {ready : Bool} {ingestSeq ingestSeq' : Option Nat}
  {registering : Option (List BlobInfo)} {retired : List Nat} {jobs : Committer → Option Job}
  {sealedBlobs sealedBlobs' : List BlobInfo} {manMu : ManMu}

section

variable (h : Staged man wal ready ingestSeq registering retired jobs sealedBlobs manMu)
include h

theorem busy {who : Committer} {job : Job} (hjob : jobs who = some job) (hready : ready = false) :
    wal = none := by
  by_contra hwal
  have hnone := (h.quiet hready hwal).1 who
  rw [hjob] at hnone
  cases hnone

theorem setEngine (job : Option Job) (hready : ready = false → wal = none)
    (hblobs : (∀ j ∈ job, j.lastSeq ≠ none) → sealedBlobs' = []) :
    Staged man wal ready ingestSeq registering retired (Function.update jobs .engine job)
      sealedBlobs' manMu :=
  { h with
    quiet := fun hr hwal => absurd (hready hr) hwal
    noBlobs := fun hjob => hblobs (by rwa [update_self] at hjob) }

theorem setIngest (job : Option Job) (hready : ready = false → wal = none ∧ ingestSeq' = none) :
    Staged man wal ready ingestSeq' registering retired (Function.update jobs .ingest job)
      sealedBlobs manMu :=
  { h with
    quiet := fun hr hwal => absurd (hready hr).1 hwal
    noIngest := fun hr => (hready hr).2
    noBlobs := fun hjob => h.noBlobs (by rwa [update_of_ne (by decide)] at hjob) }

end

theorem of_ready (hready : ready = true) (hman : man ≠ none) (hwal : wal ≠ none)
    (hblobs : (∀ j ∈ jobs .engine, j.lastSeq ≠ none) → sealedBlobs = []) :
    Staged man wal ready ingestSeq registering retired jobs sealedBlobs manMu where
  recovering hnone := absurd hnone hman
  manWal _ := hwal
  readyMan _ := hman
  quiet hready' := by cases hready.symm.trans hready'
  calm hready' := by cases hready.symm.trans hready'
  noIngest hready' := by cases hready.symm.trans hready'
  noBlobs := hblobs

theorem setJob (h : Staged man wal ready ingestSeq registering retired jobs sealedBlobs manMu)
    {who : Committer} {job : Job} (hjob : jobs who = some job) (job' : Job)
    (hblobs : who = .engine → job'.lastSeq ≠ none → sealedBlobs = []) :
    Staged man wal ready ingestSeq registering retired (Function.update jobs who (some job'))
      sealedBlobs manMu := by
  cases who with
  | engine => exact h.setEngine _ (h.busy hjob) fun hlast => hblobs rfl (hlast job' rfl)
  | ingest => exact h.setIngest _ fun hready => ⟨h.busy hjob hready, h.noIngest hready⟩

end Staged

structure Inv (r : Running) (st : ManifestState) (claimed : List Nat) : Prop where
  numbered : Numbered r.s.alloc r.disk.tables r.s.tables r.s.retired claimed r.s.jobs
  blobs : BlobsNumbered r.s.alloc r.disk.blobs r.s.liveBlobs r.s.sealedBlobs
  sequenced : Sequenced r.s.walSeq r.s.applied r.s.ingestSeq r.s.tables r.s.jobs
  memory : InMemory (installed r.s.man r.acked r.pending) r.disk.tables r.s.tables
    r.s.replayLogNum r.s.liveBlobs r.s.registering
  onDisk : OnDisk r.disk r.acked st
  currentLe : ∀ n ∈ r.disk.current, n ≤ r.s.alloc
  manCurrent : ∀ n ∈ r.s.man, r.disk.current = some n
  moving : Moving r.s.alloc r.fallbacks r.s.manMu
  held : ∀ f ∈ r.fallbacks, Fallback r.disk r.s.alloc f.1 f.2
  heldReady : r.s.ready = false → r.fallbacks = []
  boundary : ∀ n ∈ r.s.wal, r.s.replayLogNum ≤ n ∧ n ≤ r.s.alloc ∧ n ≠ 0
  staged : Staged r.s.man r.s.wal r.s.ready r.s.ingestSeq r.s.registering r.s.retired r.s.jobs
    r.s.sealedBlobs r.s.manMu
  seen : r.s.man ≠ none → (∀ n ∈ st.seenTableNums, n ∈ claimed) ∧
    ∀ n ∈ st.seenBlobNums, n ∈ (blobsAfter r.acked).map (·.num)
  phase : Phase r.disk r.s.man r.s.wal r.acked r.pending r.s.retired r.s.jobs r.s.registering st
    claimed r.s.manMu

section Frame

variable {d d' : Disk} {man wal wal' : Option Nat} {acked pending : List Commit}
  {retired : List Nat} {jobs jobs' : Committer → Option Job}
  {registering registering' : Option (List BlobInfo)} {st : ManifestState} {claimed : List Nat}
  {mu : ManMu}

theorem Unsettled.frame {c : Commit} (h : Unsettled d retired acked st c)
    (hunsynced : d'.unsynced = d.unsynced)
    (htables : ∀ t ∈ d.tables, t.num ∉ retired → t ∈ d'.tables)
    (hblobs : ∀ f ∈ d.blobs, f ∈ d'.blobs) : Unsettled d' retired acked st c := by
  refine { h with record := hunsynced.trans h.record, tables := fun t ht => ?_, blobs :=
    fun b hb => ?_ }
  · obtain ⟨hmem, hret⟩ := h.tables t ht
    exact ⟨htables t hmem hret, hret⟩
  · obtain ⟨f, hf, heq⟩ := h.blobs b hb
    exact ⟨f, hblobs f hf, heq⟩

section

variable (h : Phase d man wal acked pending retired jobs registering st claimed mu)
include h

theorem Phase.frame (hcurrent : d'.current = d.current) (hmanifests : d'.manifests = d.manifests)
    (htables : ∀ t ∈ d.tables, t.num ∉ retired → t ∈ d'.tables)
    (hblobs : ∀ f ∈ d.blobs, f ∈ d'.blobs) (hwal : wal ≠ none → wal' ≠ none)
    (hregistering : registering ≠ none → registering' ≠ none)
    (hlink : ∀ holder c, mu = .appending holder c → Linked wal jobs registering c holder →
      Linked wal' jobs' registering' c holder) :
    Phase d' man wal' acked pending retired jobs' registering' st claimed mu := by
  have hunsynced : d'.unsynced = d.unsynced := by
    unfold Disk.unsynced
    rw [hcurrent, hmanifests]
  cases h with
  | free hun hpending => exact .free (hunsynced.trans hun) hpending
  | appending hman hpending hc hl =>
    exact .appending hman hpending (hc.frame hunsynced htables hblobs) (hlink _ _ rfl hl)
  | appended hun hman hpending => exact .appended (hunsynced.trans hun) hman hpending
  | failed hman hpending hc hadded =>
    exact .failed hman hpending (hc.frame hunsynced htables hblobs) fun added h =>
      hregistering (hadded added h)
  | rotating hun hw hpending hnum hbase =>
    refine .rotating (hunsynced.trans hun) (hwal hw) hpending (hcurrent ▸ hnum)
      { hbase with file := ?_ }
    rw [hmanifests]
    exact hbase.file
  | switched hun hman hpending hold =>
    exact .switched (hunsynced.trans hun) hman hpending (hcurrent ▸ hold)

theorem Phase.setJob {who : Committer} (job : Option Job)
    (hwho : (∀ j ∈ jobs who, j.lastSeq = none) ∨ ∀ c, mu ≠ .appending (.tables who) c) :
    Phase d man wal acked pending retired (Function.update jobs who job) registering st claimed
      mu := by
  refine h.frame rfl rfl (fun t ht _ => ht) (fun f hf => hf) id id fun holder c hmu hl => ?_
  cases holder with
  | tables who' =>
    obtain ⟨inputs, outputs, last, hjob, hc⟩ := hl
    have hne : who' ≠ who := by
      rintro rfl
      rcases hwho with hwho | hwho
      · cases hwho _ hjob
      · exact hwho c hmu
    refine ⟨inputs, outputs, last, ?_, hc⟩
    rw [update_of_ne hne]
    exact hjob
  | checkpoint => exact hl
  | blobs => exact hl

theorem Phase.recovering (hman : man = none)
    (hwal : wal = none) {pending' : List Commit} {claimed' : List Nat} :
    Phase d man wal' acked pending' retired jobs' registering' st claimed' mu := by
  cases h with
  | free hunsynced _ => exact .free hunsynced fun hne => absurd hman hne
  | appending hne _ _ _ => exact absurd hman hne
  | appended _ hne _ => exact absurd hman hne
  | failed hne _ _ _ => exact absurd hman hne
  | rotating _ hne _ _ _ => exact absurd hwal hne
  | switched _ hne _ _ => exact absurd hman hne

end

end Frame

theorem allocNext_eq_some {alloc num : Nat} (h : allocNext alloc = some num) : num = alloc + 1 := by
  unfold allocNext at h
  split_ifs at h
  exact (Option.some.inj h).symm

namespace Inv

variable {r : Running} {st : ManifestState} {claimed : List Nat}

section

variable (h : Inv r st claimed)
include h

theorem grow {num : Nat} (hle : r.s.alloc ≤ num) :
    Inv { r with s := { r.s with alloc := num } } st claimed :=
  { h with
    numbered := h.numbered.grow hle
    blobs := h.blobs.grow hle
    currentLe := fun n hn => Nat.le_trans (h.currentLe n hn) hle
    moving := h.moving.grow hle
    held := fun f hf => (h.held f hf).frame hle (h.held f hf).other rfl (fun _ => Or.inl) fun _ =>
      id
    boundary := fun n hn =>
      ⟨(h.boundary n hn).1, Nat.le_trans (h.boundary n hn).2.1 hle, (h.boundary n hn).2.2⟩ }

theorem advance (hnone : r.s.ingestSeq = none) {walSeq applied : Nat}
    (hle : r.s.walSeq ≤ walSeq) (happlied : applied ≤ walSeq) :
    Inv { r with s := { r.s with walSeq := walSeq, applied := applied } } st claimed := by
  have hseq := h.sequenced
  rw [hnone] at hseq
  refine { h with sequenced := ?_ }
  change Sequenced walSeq applied r.s.ingestSeq r.s.tables r.s.jobs
  rw [hnone]
  exact hseq.advance hle happlied

theorem applied_le : r.s.applied ≤ r.s.walSeq :=
  Nat.le_trans h.sequenced.appliedLe (settledSeq_le _ _)

theorem sealBlob {r' : Running} {content : Bytes}
    (hstep : r.sealBlob content = some r') : Inv r' st claimed := by
  unfold Running.sealBlob at hstep
  split at hstep
  · rename_i inputs outputs num hjob hnum
    cases hstep
    obtain rfl := allocNext_eq_some hnum
    have hgrow := h.grow (Nat.le_succ r.s.alloc)
    refine { hgrow with
      blobs := h.blobs.sealFile content _
      onDisk := ?_
      held := fun f hf => (hgrow.held f hf).frame (Nat.le_refl _) (h.held f hf).other rfl
        (fun _ => Or.inl) fun _ => mem_append_left _
      staged := ?_
      phase := ?_ }
    · refine { h.onDisk with blobs := fun b hb => ?_ }
      obtain ⟨f, hf, heq⟩ := h.onDisk.blobs b hb
      exact ⟨f, mem_append_left _ hf, heq⟩
    · exact { h.staged with noBlobs := fun hlast => absurd rfl (hlast _ hjob) }
    · exact h.phase.frame rfl rfl (fun t ht _ => ht) (fun f hf => mem_append_left _ hf) id id
        fun _ _ _ hl => hl
  · cases hstep

theorem start {r' : Running} {nums : List Nat}
    (hstep : r.start nums = some r') : Inv r' st claimed := by
  unfold Running.start at hstep
  split_ifs at hstep with hstart
  cases hstep
  obtain ⟨hfree, hstage⟩ := hstart
  have hnone : r.s.jobs .engine = none := Option.isNone_iff_eq_none.1 hfree
  refine { h with numbered := ?_, sequenced := ?_, staged := ?_, phase := ?_ }
  · refine h.numbered.setJob .engine _ ?_ (by simp) (by simp)
    rintro _ ⟨⟩
    exact ⟨filter_sublist, by simp⟩
  · exact h.sequenced.setEngine _ (by simp) (by simp)
  · refine h.staged.setEngine _ (fun hready => ?_) (by simp)
    rcases hstage with hready' | ⟨hwal, _⟩
    · cases hready'.symm.trans hready
    · exact hwal
  · exact h.phase.setJob _ (Or.inl (by simp [hnone]))

theorem ingestReserve (hready : r.s.ready = true)
    (hnone : r.s.ingestSeq = none) :
    Inv { r with s := { r.s.setJob .ingest (some ⟨[], [], none⟩) with
      walSeq := r.s.walSeq + 1
      ingestSeq := some (r.s.walSeq + 1) } } st claimed := by
  have hidle := h.sequenced.idle hnone
  refine { h with numbered := ?_, sequenced := ?_, staged := ?_, phase := ?_ }
  · refine h.numbered.setJob .ingest _ ?_ (by simp) (by simp)
    rintro _ ⟨⟩
    exact ⟨nil_sublist _, fun _ => rfl⟩
  · refine h.sequenced.setIngest _ ?_ (by simp) (by simp) rfl (by simp)
    exact settledSeq_le _ _
  · refine h.staged.setIngest _ fun hready' => ?_
    cases hready.symm.trans hready'
  · exact h.phase.setJob _ (Or.inl (by simp [hidle]))

theorem loadSeq {r' : Running} {who : Committer}
    (hstep : r.loadSeq who = some r') : Inv r' st claimed := by
  unfold Running.loadSeq at hstep
  split at hstep
  · rename_i job hjob
    split_ifs at hstep with hguard
    obtain ⟨hlast, hdone⟩ := hguard
    cases hstep
    refine { h with
      numbered := h.numbered.load hjob _
      sequenced := h.sequenced.load hjob
      staged := h.staged.setJob hjob _ ?_
      phase := h.phase.setJob _ (Or.inl (by simpa [hjob] using hlast)) }
    rintro rfl _
    exact hdone.1
  · cases hstep

theorem build {r' : Running} {who : Committer} {t : TableMeta}
    (hstep : r.build who t = some r') : Inv r' st claimed := by
  unfold Running.build at hstep
  split at hstep
  · rename_i job num hjob hnum
    split_ifs at hstep with hguard
    obtain ⟨htnum, hlast, hwrite⟩ := hguard
    cases hstep
    obtain rfl := allocNext_eq_some hnum
    have hgrow := h.grow (Nat.le_succ r.s.alloc)
    have hnew : ∀ t' ∈ r.disk.tables, t' ∈ r.disk.tables ++ [t] := fun t' ht' =>
      mem_append_left _ ht'
    refine { hgrow with
      numbered := h.numbered.build hjob htnum
      sequenced := ?_
      memory := h.memory.addFile t
      onDisk := { h.onDisk with tables := fun t' ht' => hnew t' (h.onDisk.tables t' ht') }
      held := fun f hf => (h.held f hf).frame (Nat.le_succ _) (h.held f hf).other rfl ?_
        fun _ => id
      staged := h.staged.setJob hjob _ fun _ hne => absurd hlast hne
      phase := ?_ }
    · cases who with
      | engine =>
        refine h.sequenced.buildEngine hjob hlast fun q hq => ?_
        by_cases hinputs : job.inputs = []
        · rw [Session.MayWrite, if_pos hinputs] at hwrite
          exact Nat.le_trans (hwrite q hq) h.sequenced.appliedLe
        · rw [Session.MayWrite, if_neg hinputs] at hwrite
          obtain ⟨i, hi, hqi⟩ := hwrite q hq
          exact h.sequenced.liveLe i ((h.numbered.inputs .engine job hjob).1.subset hi) q hqi
      | ingest => exact h.sequenced.buildIngest hjob hlast hwrite.1 hwrite.2
    · intro t' ht'
      refine (mem_append.1 ht').imp_right fun heq => ?_
      rw [mem_singleton.1 heq, htnum]
      exact Nat.lt_succ_self _
    · have hidle : ∀ j ∈ r.s.jobs who, j.lastSeq = none := by simpa [hjob] using hlast
      have hphase := h.phase.setJob (some { job with outputs := job.outputs ++ [t] })
        (Or.inl hidle)
      exact hphase.frame rfl rfl (fun t' ht' _ => hnew t' ht') (fun f hf => hf) id id
        fun _ _ _ hl => hl
  · cases hstep

theorem abort {r' : Running} {who : Committer}
    (hidle : ¬ Running.Appending r.s who) (hstep : r.abort who = some r') : Inv r' st claimed := by
  have hphase : ∀ c, r.s.manMu ≠ .appending (.tables who) c := by
    intro c hmu
    refine hidle ?_
    unfold Running.Appending
    rw [hmu]
  unfold Running.abort at hstep
  split at hstep
  · rename_i job hjob
    split_ifs at hstep with hready
    cases hstep
    refine { h with
      numbered := h.numbered.endJob .engine
      blobs := h.blobs.drop
      sequenced := h.sequenced.endJob .engine
      staged := h.staged.setEngine none (fun hready' => ?_) fun _ => rfl
      phase := h.phase.setJob none (Or.inr hphase) }
    cases hready.symm.trans hready'
  · rename_i job hjob
    cases hstep
    refine { h with
      numbered := h.numbered.endJob .ingest
      sequenced := ?_
      staged := h.staged.setIngest none fun hready => ⟨h.staged.busy hjob hready, rfl⟩
      phase := h.phase.setJob none (Or.inr hphase) }
    refine h.sequenced.setIngest none ?_ (by simp) (by simp) rfl (by simp)
    rw [hjob]
    obtain ⟨inputs, outputs, last⟩ := job
    cases outputs <;> exact Nat.le_refl _
  · cases hstep

theorem rotateWAL (hready : r.s.ready = true) :
    Inv { r with s := { r.s with
      alloc := r.s.alloc + 1
      wal := some (r.s.alloc + 1) } } st claimed := by
  have hman := h.staged.readyMan hready
  obtain ⟨wal, hwal⟩ := Option.ne_none_iff_exists'.1 (h.staged.manWal hman)
  obtain ⟨hlog, hle, _⟩ := h.boundary wal hwal
  have hgrow := h.grow (Nat.le_succ r.s.alloc)
  refine { hgrow with boundary := ?_, staged := ?_, phase := ?_ }
  · intro n hn
    cases hn
    exact ⟨Nat.le_trans hlog (Nat.le_succ_of_le hle), Nat.le_refl _, Nat.succ_ne_zero _⟩
  · refine { h.staged with manWal := fun _ => by simp, quiet := fun hready' => ?_ }
    cases hready.symm.trans hready'
  · refine h.phase.frame rfl rfl (fun t ht _ => ht) (fun f hf => hf) (fun _ => by simp) id ?_
    intro holder c _ hl
    cases holder with
    | tables who => exact hl
    | checkpoint =>
      obtain ⟨num, hc, hnum⟩ := hl
      refine ⟨num, hc, fun n hn => ?_⟩
      cases hn
      have := hnum wal hwal
      omega
    | blobs => exact hl

theorem removeTable {num : Nat} (hnum : num ∈ r.s.retired) :
    Inv { r with disk := { r.disk with
      tables := r.disk.tables.filter fun t => decide (t.num ≠ num) } } st claimed := by
  obtain ⟨hclaimed, hlive⟩ := h.numbered.retiredGone num hnum
  have hman : r.s.man ≠ none := by
    intro hnone
    rw [(h.staged.recovering hnone).2] at hnum
    cases hnum
  have hmemory := h.memory.removeFile hlive
  refine { h with
    numbered := h.numbered.removeFile fun who j hj t ht heq =>
      ((h.numbered.outputs who j hj).2 t ht).2 (heq ▸ hclaimed)
    memory := hmemory
    onDisk := { h.onDisk with tables := ?_ }
    held := fun f hf => (h.held f hf).frame (Nat.le_refl _) (h.held f hf).other rfl
      (fun _ ht => Or.inl (mem_of_mem_filter ht)) fun _ => id
    phase := ?_ }
  · have hpresent := hmemory.present
    obtain ⟨m, hm⟩ := Option.ne_none_iff_exists'.1 hman
    rw [hm] at hpresent
    exact hpresent
  · refine h.phase.frame rfl rfl (fun t ht hret => ?_) (fun f hf => hf) id id fun _ _ _ hl => hl
    exact mem_filter.2 ⟨ht, decide_eq_true fun heq => hret (heq ▸ hnum)⟩

end

end Inv

end Catalog

end LevisDB
