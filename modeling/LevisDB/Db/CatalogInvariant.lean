import LevisDB.Db.Catalog

/-!
# What the catalog maintains

The manifest that `CURRENT` names replays to the state the reported commits lead
to, the memory of a session agrees with the commits it has installed, file numbers
in use are never handed out again, and no table holds a sequence beyond the
watermark that will be recorded with it.
-/

namespace LevisDB

open List Function

namespace Catalog

@[simp] theorem tablesAfter_concat (cs : List Commit) (c : Commit) :
    tablesAfter (cs ++ [c]) = c.install (tablesAfter cs) := by
  simp [tablesAfter]

@[simp] theorem boundaryAfter_concat (cs : List Commit) (c : Commit) :
    boundaryAfter (cs ++ [c]) = c.moveBoundary (boundaryAfter cs) := by
  simp [boundaryAfter]

@[simp] theorem blobsAfter_concat (cs : List Commit) (c : Commit) :
    blobsAfter (cs ++ [c]) = c.addBlobs (blobsAfter cs) := by
  simp [blobsAfter]

theorem recordedBound_idem (bound : Option Key) :
    recordedBound (recordedBound bound) = recordedBound bound := by
  cases bound with
  | none => rfl
  | some key => cases key <;> rfl

@[simp] theorem info_recorded (t : TableMeta) : t.recorded.info = t.info := by
  simp [TableMeta.info, TableMeta.recorded, recordedBound_idem]

@[simp] theorem recorded_recorded (t : TableMeta) : t.recorded.recorded = t.recorded := by
  simp [TableMeta.recorded, recordedBound_idem]

theorem map_info_of_recorded {ts ts' : List TableMeta}
    (h : (ts.map (·.recorded)).Perm (ts'.map (·.recorded))) :
    (ts.map (·.info)).Perm (ts'.map (·.info)) := by
  have hinfo := h.map (·.info)
  simpa [map_map, comp_def] using hinfo

theorem exists_of_recorded {ts ts' : List TableMeta}
    (h : (ts.map (·.recorded)).Perm (ts'.map (·.recorded))) {t : TableMeta} (ht : t ∈ ts) :
    ∃ t' ∈ ts', t'.num = t.num ∧ t'.seqs = t.seqs := by
  obtain ⟨t', ht', heq⟩ := mem_map.1 (h.subset (mem_map.2 ⟨t, ht, rfl⟩))
  have hnum : t'.recorded.num = t.recorded.num := congrArg TableMeta.num heq
  have hseqs : t'.recorded.seqs = t.recorded.seqs := congrArg TableMeta.seqs heq
  exact ⟨t', ht', hnum, hseqs⟩

/-- The manifest state says what the commits lead to, and that names every file
once. -/
structure Records (st : ManifestState) (cs : List Commit) : Prop where
  tables : st.tables.Perm ((tablesAfter cs).map (·.info))
  log : st.replayLogNum = boundaryAfter cs
  seqs : ∀ t ∈ tablesAfter cs, ∀ q ∈ t.seqs, q ≤ st.lastSeq
  blobs : st.blobs.Perm (blobsAfter cs)
  distinct : ((tablesAfter cs).map (·.num)).Nodup
  blobsDistinct : ((blobsAfter cs).map (·.num)).Nodup

/-- What a commit has to satisfy behind the commits `cs`. -/
def Sound (cs : List Commit) : Commit → Prop
  | .tables inputs outputs lastSeq =>
    (∀ t ∈ outputs, ∀ q ∈ t.seqs, q ≤ lastSeq) ∧
    (outputs.map (·.num)).Nodup ∧
    ∀ t ∈ outputs, t.num ∉ inputs.map (·.num) ∧ t.num ∉ (tablesAfter cs).map (·.num)
  | .boundary num => num ≠ 0
  | .blobs added => ((blobsAfter cs ++ added).map (·.num)).Nodup

theorem filter_info (ts : List TableMeta) (nums : List Nat) :
    (ts.map (·.info)).filter (fun i => decide (i.num ∉ nums)) =
      (ts.filter fun t => decide (t.num ∉ nums)).map (·.info) := by
  rw [filter_map]
  rfl

theorem install_distinct {live outputs : List TableMeta} {nums : List Nat}
    (hlive : (live.map (·.num)).Nodup) (houtputs : (outputs.map (·.num)).Nodup)
    (hnew : ∀ t ∈ outputs, t.num ∉ live.map (·.num)) :
    (((live.filter fun t => decide (t.num ∉ nums)) ++ outputs).map (·.num)).Nodup := by
  rw [map_append, nodup_append']
  refine ⟨hlive.sublist (filter_sublist.map _), houtputs, fun n hn hn' => ?_⟩
  obtain ⟨t, ht, rfl⟩ := mem_map.1 hn'
  exact hnew t ht (map_subset _ filter_sublist.subset hn)

theorem Records.concat {st : ManifestState} {cs : List Commit} (h : Records st cs) {c : Commit}
    (hc : Sound cs c) : Records (st.after c.edit) (cs ++ [c]) := by
  cases c with
  | tables inputs outputs lastSeq =>
    obtain ⟨hle, hnodup, hnew⟩ := hc
    have houtputs : outputs.filter (fun t => decide (t.num ∉ inputs.map (·.num))) = outputs :=
      filter_eq_self.2 fun t ht => decide_eq_true (hnew t ht).1
    have hperm := (h.tables.append_right (outputs.map (·.info))).filter
      fun i => decide (i.num ∉ inputs.map (·.num))
    rw [← map_append, filter_info, filter_append (tablesAfter cs), houtputs] at hperm
    refine ⟨?_, ?_, fun t ht q hq => ?_, ?_, ?_, ?_⟩
    · rw [tablesAfter_concat]
      exact hperm
    · rw [boundaryAfter_concat]
      exact h.log
    · rw [tablesAfter_concat] at ht
      rcases mem_append.1 ht with ht | ht
      · exact Nat.le_trans (h.seqs t (mem_of_mem_filter ht) q hq) (Nat.le_max_left _ _)
      · exact Nat.le_trans (hle t ht q hq) (Nat.le_max_right _ _)
    · simpa [ManifestState.after, Commit.edit, ManifestEdit.tableChange] using h.blobs
    · rw [tablesAfter_concat]
      exact install_distinct h.distinct hnodup fun t ht => (hnew t ht).2
    · simpa using h.blobsDistinct
  | boundary num =>
    refine ⟨?_, ?_, ?_, ?_, ?_, ?_⟩
    · simpa [ManifestState.after, Commit.edit, ManifestEdit.replayLog] using h.tables
    · rw [boundaryAfter_concat]
      exact if_neg hc
    · simpa [ManifestState.after, Commit.edit, ManifestEdit.replayLog] using h.seqs
    · simpa [ManifestState.after, Commit.edit, ManifestEdit.replayLog] using h.blobs
    · simpa using h.distinct
    · simpa using h.blobsDistinct
  | blobs added =>
    refine ⟨?_, ?_, ?_, ?_, ?_, ?_⟩
    · simpa [ManifestState.after, Commit.edit, ManifestEdit.blobAdd] using h.tables
    · rw [boundaryAfter_concat]
      exact h.log
    · simpa [ManifestState.after, Commit.edit, ManifestEdit.blobAdd] using h.seqs
    · rw [blobsAfter_concat]
      exact h.blobs.append_right added
    · simpa using h.distinct
    · rw [blobsAfter_concat]
      exact hc

/-- Table numbers of a session. -/
structure Numbered (alloc : Nat) (files live : List TableMeta) (retired claimed : List Nat)
    (jobs : Committer → Option Job) : Prop where
  fileNums : ∀ t ∈ files, t.num ≠ 0 ∧ t.num ≤ alloc
  distinct : (files.map (·.num)).Nodup
  claimedLe : ∀ n ∈ claimed, n ≤ alloc
  liveClaimed : ∀ t ∈ live, t.num ∈ claimed
  liveDistinct : (live.map (·.num)).Nodup
  retiredGone : ∀ n ∈ retired, n ∈ claimed ∧ ∀ t ∈ live, t.num ≠ n
  inputs : ∀ who, ∀ j ∈ jobs who, j.inputs.Sublist live ∧ (who = .ingest → j.inputs = [])
  outputs : ∀ who, ∀ j ∈ jobs who, (j.outputs.map (·.num)).Nodup ∧
    ∀ t ∈ j.outputs, t ∈ files ∧ t.num ∉ claimed
  apart : ∀ who who', who ≠ who' → ∀ j ∈ jobs who, ∀ j' ∈ jobs who',
    ∀ t ∈ j.outputs, ∀ t' ∈ j'.outputs, t.num ≠ t'.num

namespace Numbered

variable {alloc : Nat} {files live : List TableMeta} {retired claimed : List Nat}
  {jobs : Committer → Option Job}

section

variable (h : Numbered alloc files live retired claimed jobs)
include h

theorem grow {alloc' : Nat}
    (hle : alloc ≤ alloc') : Numbered alloc' files live retired claimed jobs :=
  { h with
    fileNums := fun t ht => ⟨(h.fileNums t ht).1, Nat.le_trans (h.fileNums t ht).2 hle⟩
    claimedLe := fun n hn => Nat.le_trans (h.claimedLe n hn) hle }

theorem setJob (who : Committer)
    (job : Option Job)
    (hinputs : ∀ j ∈ job, j.inputs.Sublist live ∧ (who = .ingest → j.inputs = []))
    (houtputs : ∀ j ∈ job, (j.outputs.map (·.num)).Nodup ∧
      ∀ t ∈ j.outputs, t ∈ files ∧ t.num ∉ claimed)
    (hapart : ∀ who', who' ≠ who → ∀ j ∈ job, ∀ j' ∈ jobs who',
      ∀ t ∈ j.outputs, ∀ t' ∈ j'.outputs, t.num ≠ t'.num) :
    Numbered alloc files live retired claimed (Function.update jobs who job) := by
  refine { h with inputs := ?_, outputs := ?_, apart := ?_ }
  · intro who' j hj
    rcases eq_or_ne who' who with rfl | hne
    · rw [update_self] at hj
      exact hinputs j hj
    · rw [update_of_ne hne] at hj
      exact h.inputs who' j hj
  · intro who' j hj
    rcases eq_or_ne who' who with rfl | hne
    · rw [update_self] at hj
      exact houtputs j hj
    · rw [update_of_ne hne] at hj
      exact h.outputs who' j hj
  · intro who₁ who₂ hwho j hj j' hj' t ht t' ht'
    rcases eq_or_ne who₁ who with rfl | hne₁
    · rw [update_self] at hj
      rw [update_of_ne (Ne.symm hwho)] at hj'
      exact hapart who₂ (Ne.symm hwho) j hj j' hj' t ht t' ht'
    · rw [update_of_ne hne₁] at hj
      rcases eq_or_ne who₂ who with rfl | hne₂
      · rw [update_self] at hj'
        exact (hapart who₁ hwho j' hj' j hj t' ht' t ht).symm
      · rw [update_of_ne hne₂] at hj'
        exact h.apart who₁ who₂ hwho j hj j' hj' t ht t' ht'

theorem endJob (who : Committer) :
    Numbered alloc files live retired claimed (Function.update jobs who none) :=
  h.setJob who none (by simp) (by simp) (by simp)

theorem load {who : Committer} {job : Job}
    (hjob : jobs who = some job) (last : Nat) :
    Numbered alloc files live retired claimed
      (Function.update jobs who (some { job with lastSeq := some last })) := by
  refine h.setJob who _ ?_ ?_ ?_
  · rintro _ ⟨⟩
    exact h.inputs who job hjob
  · rintro _ ⟨⟩
    exact h.outputs who job hjob
  · rintro who' hne _ ⟨⟩
    exact h.apart who who' hne.symm job hjob

theorem build {who : Committer} {job : Job}
    (hjob : jobs who = some job) {t : TableMeta} (hnum : t.num = alloc + 1) :
    Numbered (alloc + 1) (files ++ [t]) live retired claimed
      (Function.update jobs who (some { job with outputs := job.outputs ++ [t] })) := by
  have hfiles : ∀ t' ∈ files, t'.num ≠ t.num := by
    intro t' ht'
    have := (h.fileNums t' ht').2
    omega
  have hgrown : Numbered (alloc + 1) (files ++ [t]) live retired claimed jobs := by
    refine { h.grow (Nat.le_succ alloc) with fileNums := ?_, distinct := ?_, outputs := ?_ }
    · intro t' ht'
      rcases mem_append.1 ht' with ht' | ht'
      · exact (h.grow (Nat.le_succ alloc)).fileNums t' ht'
      · rw [mem_singleton.1 ht']
        omega
    · rw [map_append, nodup_append']
      refine ⟨h.distinct, nodup_singleton _, fun n hn hn' => ?_⟩
      obtain ⟨t', ht', rfl⟩ := mem_map.1 hn
      exact hfiles t' ht' (mem_singleton.1 hn')
    · intro who' j hj
      refine ⟨(h.outputs who' j hj).1, fun t' ht' => ?_⟩
      exact ⟨mem_append_left _ ((h.outputs who' j hj).2 t' ht').1,
        ((h.outputs who' j hj).2 t' ht').2⟩
  refine hgrown.setJob who _ ?_ ?_ ?_
  · rintro _ ⟨⟩
    exact h.inputs who job hjob
  · rintro _ ⟨⟩
    obtain ⟨hnodup, houtputs⟩ := hgrown.outputs who job hjob
    refine ⟨?_, fun t' ht' => ?_⟩
    · rw [map_append, nodup_append']
      refine ⟨hnodup, nodup_singleton _, fun n hn hn' => ?_⟩
      obtain ⟨t', ht', rfl⟩ := mem_map.1 hn
      exact hfiles t' ((h.outputs who job hjob).2 t' ht').1 (mem_singleton.1 hn')
    · rcases mem_append.1 ht' with ht' | ht'
      · exact houtputs t' ht'
      · rw [mem_singleton.1 ht']
        refine ⟨by simp, fun hmem => ?_⟩
        have := h.claimedLe t.num hmem
        omega
  · rintro who' hne _ ⟨⟩ j' hj' t₁ ht₁ t' ht'
    rcases mem_append.1 ht₁ with ht₁ | ht₁
    · exact h.apart who who' (Ne.symm hne) job hjob j' hj' t₁ ht₁ t' ht'
    · rw [mem_singleton.1 ht₁]
      exact (hfiles t' ((h.outputs who' j' hj').2 t' ht').1).symm

theorem install {who : Committer}
    {inputs outputs : List TableMeta} {last : Option Nat}
    (hjob : jobs who = some ⟨inputs, outputs, last⟩) :
    Numbered alloc files
      ((live.filter fun t => decide (t.num ∉ inputs.map (·.num))) ++ outputs)
      (retired ++ inputs.map (·.num)) (claimed ++ outputs.map (·.num))
      (Function.update jobs who none) := by
  obtain ⟨hnodup, houtputs⟩ := h.outputs who _ hjob
  obtain ⟨hsub, hingest⟩ := h.inputs who _ hjob
  have hended := h.endJob who
  have hnew : ∀ t ∈ outputs, ∀ t' ∈ live, t'.num ≠ t.num := fun t ht t' ht' heq =>
    (houtputs t ht).2 (heq ▸ h.liveClaimed t' ht')
  refine { hended with
    claimedLe := ?_
    liveClaimed := ?_
    liveDistinct := ?_
    retiredGone := ?_
    inputs := ?_
    outputs := ?_ }
  · intro n hn
    rcases mem_append.1 hn with hn | hn
    · exact h.claimedLe n hn
    · obtain ⟨t, ht, rfl⟩ := mem_map.1 hn
      exact (h.fileNums t (houtputs t ht).1).2
  · intro t ht
    rcases mem_append.1 ht with ht | ht
    · exact mem_append_left _ (h.liveClaimed t (mem_of_mem_filter ht))
    · exact mem_append_right _ (mem_map.2 ⟨t, ht, rfl⟩)
  · refine install_distinct h.liveDistinct hnodup fun t ht hmem => ?_
    obtain ⟨t', ht', heq⟩ := mem_map.1 hmem
    exact hnew t ht t' ht' heq
  · intro n hn
    rcases mem_append.1 hn with hn | hn
    · refine ⟨mem_append_left _ (h.retiredGone n hn).1, fun t ht heq => ?_⟩
      rcases mem_append.1 ht with ht | ht
      · exact (h.retiredGone n hn).2 t (mem_of_mem_filter ht) heq
      · exact (houtputs t ht).2 (heq ▸ (h.retiredGone n hn).1)
    · obtain ⟨i, hi, rfl⟩ := mem_map.1 hn
      refine ⟨mem_append_left _ (h.liveClaimed i (hsub.subset hi)), fun t ht heq => ?_⟩
      rcases mem_append.1 ht with ht | ht
      · exact of_decide_eq_true (mem_filter.1 ht).2 (heq ▸ mem_map.2 ⟨i, hi, rfl⟩)
      · exact hnew t ht i (hsub.subset hi) heq.symm
  · intro who' j hj
    rcases eq_or_ne who' who with rfl | hne
    · rw [update_self] at hj
      cases hj
    · rw [update_of_ne hne] at hj
      refine ⟨?_, (h.inputs who' j hj).2⟩
      cases who' with
      | ingest =>
        rw [(h.inputs .ingest j hj).2 rfl]
        exact nil_sublist _
      | engine =>
        have hwho : who = .ingest := by
          cases who with
          | engine => exact absurd rfl hne
          | ingest => rfl
        have hnil : inputs = [] := hingest hwho
        subst hnil
        have hall : live.filter (fun t => decide (t.num ∉ ([] : List TableMeta).map (·.num))) =
            live := filter_eq_self.2 fun t _ => by simp
        rw [hall]
        exact (h.inputs .engine j hj).1.trans (sublist_append_left _ _)
  · intro who' j hj
    rcases eq_or_ne who' who with rfl | hne
    · rw [update_self] at hj
      cases hj
    · rw [update_of_ne hne] at hj
      refine ⟨(h.outputs who' j hj).1, fun t ht =>
        ⟨((h.outputs who' j hj).2 t ht).1, fun hmem => ?_⟩⟩
      rcases mem_append.1 hmem with hmem | hmem
      · exact ((h.outputs who' j hj).2 t ht).2 hmem
      · obtain ⟨t', ht', heq⟩ := mem_map.1 hmem
        exact h.apart who' who hne j hj _ hjob t ht t' ht' heq.symm

theorem removeFile {num : Nat}
    (hnum : ∀ who, ∀ j ∈ jobs who, ∀ t ∈ j.outputs, t.num ≠ num) :
    Numbered alloc (files.filter fun t => decide (t.num ≠ num)) live retired claimed jobs :=
  { h with
    fileNums := fun t ht => h.fileNums t (mem_of_mem_filter ht)
    distinct := h.distinct.sublist (filter_sublist.map _)
    outputs := fun who j hj => ⟨(h.outputs who j hj).1, fun t ht =>
      ⟨mem_filter.2 ⟨((h.outputs who j hj).2 t ht).1, decide_eq_true (hnum who j hj t ht)⟩,
        ((h.outputs who j hj).2 t ht).2⟩⟩ }

end

end Numbered

/-- Every blob file that is registered or about to be exists, under its own number. -/
structure BlobsNumbered (alloc : Nat) (files : List (Nat × Bytes)) (live done : List BlobInfo) :
    Prop where
  fileNums : ∀ f ∈ files, f.1 ≤ alloc
  present : ∀ b ∈ live ++ done, ∃ f ∈ files, f.1 = b.num
  distinct : ((live ++ done).map (·.num)).Nodup

theorem registerBlobs_eq {live added : List BlobInfo} (h : ((live ++ added).map (·.num)).Nodup) :
    registerBlobs live added = live ++ added := by
  unfold registerBlobs
  induction added generalizing live with
  | nil => simp
  | cons b added ih =>
    have hnew : live.filter (fun b' => decide (b'.num ≠ b.num)) = live := by
      refine filter_eq_self.2 fun b' hb' => decide_eq_true fun heq => ?_
      rw [map_append, nodup_append'] at h
      exact h.2.2 (mem_map.2 ⟨b', hb', rfl⟩) (by simp [heq])
    rw [foldl_cons, hnew, ih]
    · simp
    · simpa using h

namespace BlobsNumbered

variable {alloc : Nat} {files : List (Nat × Bytes)} {live done : List BlobInfo}

section

variable (h : BlobsNumbered alloc files live done)
include h

theorem grow {alloc' : Nat} (hle : alloc ≤ alloc') :
    BlobsNumbered alloc' files live done :=
  { h with fileNums := fun f hf => Nat.le_trans (h.fileNums f hf) hle }

theorem sealFile (content : Bytes) (size : Nat) :
    BlobsNumbered (alloc + 1) (files ++ [(alloc + 1, content)]) live
      (done ++ [⟨alloc + 1, size⟩]) := by
  refine ⟨?_, ?_, ?_⟩
  · intro f hf
    rcases mem_append.1 hf with hf | hf
    · exact Nat.le_succ_of_le (h.fileNums f hf)
    · rw [mem_singleton.1 hf]
  · intro b hb
    rw [← append_assoc] at hb
    rcases mem_append.1 hb with hb | hb
    · obtain ⟨f, hf, heq⟩ := h.present b hb
      exact ⟨f, mem_append_left _ hf, heq⟩
    · rw [mem_singleton.1 hb]
      exact ⟨_, mem_append_right _ (mem_singleton.2 rfl), rfl⟩
  · rw [← append_assoc, map_append, nodup_append']
    refine ⟨h.distinct, nodup_singleton _, fun n hn hn' => ?_⟩
    obtain ⟨b, hb, rfl⟩ := mem_map.1 hn
    obtain ⟨f, hf, heq⟩ := h.present b hb
    have hle := h.fileNums f hf
    rw [heq, mem_singleton.1 hn'] at hle
    exact Nat.not_succ_le_self alloc hle

theorem register :
    BlobsNumbered alloc files (registerBlobs live done) [] := by
  rw [registerBlobs_eq h.distinct]
  exact ⟨h.fileNums, by simpa using h.present, by simpa using h.distinct⟩

theorem drop : BlobsNumbered alloc files live [] := by
  refine ⟨h.fileNums, fun b hb => h.present b ?_, ?_⟩
  · rw [append_nil] at hb
    exact mem_append_left _ hb
  · rw [append_nil]
    exact h.distinct.sublist ((sublist_append_left live done).map _)

end

theorem removeFile (h : BlobsNumbered alloc files live []) {num : Nat}
    (hnum : ∀ b ∈ live, b.num ≠ num) :
    BlobsNumbered alloc (files.filter fun f => decide (f.1 ≠ num)) live [] := by
  refine ⟨fun f hf => h.fileNums f (mem_of_mem_filter hf), fun b hb => ?_, h.distinct⟩
  obtain ⟨f, hf, heq⟩ := h.present b hb
  rw [append_nil] at hb
  exact ⟨f, mem_filter.2 ⟨hf, decide_eq_true (heq ▸ hnum b hb)⟩, heq⟩

end BlobsNumbered

/-- The sequences that are certain to be recorded: an ingestion that has written
nothing may still return its own. -/
def settledSeq (walSeq : Nat) : Option Job → Nat
  | some ⟨_, [], _⟩ => walSeq - 1
  | _ => walSeq

theorem settledSeq_le (walSeq : Nat) (job : Option Job) : settledSeq walSeq job ≤ walSeq := by
  unfold settledSeq
  split
  · exact Nat.sub_le _ _
  · exact Nat.le_refl _

/-- No table holds a sequence above the watermark its edit will record. -/
structure Sequenced (walSeq applied : Nat) (ingestSeq : Option Nat) (live : List TableMeta)
    (jobs : Committer → Option Job) : Prop where
  appliedLe : applied ≤ settledSeq walSeq (jobs .ingest)
  liveLe : ∀ t ∈ live, ∀ q ∈ t.seqs, q ≤ settledSeq walSeq (jobs .ingest)
  outputsLe : ∀ who, ∀ j ∈ jobs who, ∀ t ∈ j.outputs, ∀ q ∈ t.seqs,
    q ≤ settledSeq walSeq (jobs .ingest)
  loaded : ∀ who, ∀ j ∈ jobs who, ∀ last ∈ j.lastSeq, ∀ t ∈ j.outputs, ∀ q ∈ t.seqs, q ≤ last
  ingesting : (jobs .ingest).isSome = ingestSeq.isSome
  reserved : ∀ q ∈ ingestSeq, q ≤ walSeq

namespace Sequenced

variable {walSeq applied : Nat} {ingestSeq : Option Nat} {live : List TableMeta}
  {jobs : Committer → Option Job}

theorem idle (h : Sequenced walSeq applied ingestSeq live jobs) (hnone : ingestSeq = none) :
    jobs .ingest = none := by
  have hsome := h.ingesting
  rw [hnone] at hsome
  simpa using hsome

theorem advance (h : Sequenced walSeq applied none live jobs) {walSeq' applied' : Nat}
    (hle : walSeq ≤ walSeq') (happlied : applied' ≤ walSeq') :
    Sequenced walSeq' applied' none live jobs := by
  have hidle := h.idle rfl
  have hsettled : ∀ n, settledSeq n (jobs .ingest) = n := fun n => by rw [hidle]; rfl
  refine { h with appliedLe := ?_, liveLe := ?_, outputsLe := ?_, reserved := by simp }
  · rwa [hsettled]
  · intro t ht q hq
    rw [hsettled]
    exact Nat.le_trans (h.liveLe t ht q hq) (Nat.le_trans (settledSeq_le _ _) hle)
  · intro who j hj t ht q hq
    rw [hsettled]
    exact Nat.le_trans (h.outputsLe who j hj t ht q hq) (Nat.le_trans (settledSeq_le _ _) hle)

section

variable (h : Sequenced walSeq applied ingestSeq live jobs)
include h

theorem setEngine (job : Option Job)
    (houtputs : ∀ j ∈ job, ∀ t ∈ j.outputs, ∀ q ∈ t.seqs, q ≤ settledSeq walSeq (jobs .ingest))
    (hloaded : ∀ j ∈ job, ∀ last ∈ j.lastSeq, ∀ t ∈ j.outputs, ∀ q ∈ t.seqs, q ≤ last) :
    Sequenced walSeq applied ingestSeq live (Function.update jobs .engine job) := by
  have hingest : Function.update jobs .engine job .ingest = jobs .ingest :=
    update_of_ne (by decide) _ _
  refine ⟨?_, ?_, ?_, ?_, ?_, h.reserved⟩
  · rw [hingest]
    exact h.appliedLe
  · rw [hingest]
    exact h.liveLe
  · intro who j hj
    rw [hingest]
    cases who with
    | engine =>
      rw [update_self] at hj
      exact houtputs j hj
    | ingest =>
      rw [hingest] at hj
      exact h.outputsLe .ingest j hj
  · intro who j hj
    cases who with
    | engine =>
      rw [update_self] at hj
      exact hloaded j hj
    | ingest =>
      rw [hingest] at hj
      exact h.loaded .ingest j hj
  · rw [hingest]
    exact h.ingesting

theorem setIngest (job : Option Job)
    {walSeq' : Nat} {ingestSeq' : Option Nat}
    (hsettled : settledSeq walSeq (jobs .ingest) ≤ settledSeq walSeq' job)
    (houtputs : ∀ j ∈ job, ∀ t ∈ j.outputs, ∀ q ∈ t.seqs, q ≤ settledSeq walSeq' job)
    (hloaded : ∀ j ∈ job, ∀ last ∈ j.lastSeq, ∀ t ∈ j.outputs, ∀ q ∈ t.seqs, q ≤ last)
    (hingesting : job.isSome = ingestSeq'.isSome) (hreserved : ∀ q ∈ ingestSeq', q ≤ walSeq') :
    Sequenced walSeq' applied ingestSeq' live (Function.update jobs .ingest job) := by
  have hengine : Function.update jobs .ingest job .engine = jobs .engine :=
    update_of_ne (by decide) _ _
  refine ⟨?_, ?_, ?_, ?_, ?_, hreserved⟩
  · rw [update_self]
    exact Nat.le_trans h.appliedLe hsettled
  · intro t ht q hq
    rw [update_self]
    exact Nat.le_trans (h.liveLe t ht q hq) hsettled
  · intro who j hj t ht q hq
    rw [update_self]
    cases who with
    | engine =>
      rw [hengine] at hj
      exact Nat.le_trans (h.outputsLe .engine j hj t ht q hq) hsettled
    | ingest =>
      rw [update_self] at hj
      exact houtputs j hj t ht q hq
  · intro who j hj
    cases who with
    | engine =>
      rw [hengine] at hj
      exact h.loaded .engine j hj
    | ingest =>
      rw [update_self] at hj
      exact hloaded j hj
  · rw [update_self]
    exact hingesting

theorem load {who : Committer} {job : Job}
    (hjob : jobs who = some job) :
    Sequenced walSeq applied ingestSeq live
      (Function.update jobs who (some { job with lastSeq := some walSeq })) := by
  have hloaded : ∀ t ∈ job.outputs, ∀ q ∈ t.seqs, q ≤ walSeq := fun t ht q hq =>
    Nat.le_trans (h.outputsLe who job hjob t ht q hq) (settledSeq_le _ _)
  cases who with
  | engine =>
    refine h.setEngine _ ?_ ?_
    · rintro _ ⟨⟩
      exact h.outputsLe .engine job hjob
    · rintro _ ⟨⟩ _ ⟨⟩
      exact hloaded
  | ingest =>
    have hsame : settledSeq walSeq (some { job with lastSeq := some walSeq }) =
        settledSeq walSeq (jobs .ingest) := by
      rw [hjob]
      obtain ⟨inputs, outputs, last⟩ := job
      cases outputs <;> rfl
    refine h.setIngest _ hsame.ge ?_ ?_ ?_ h.reserved
    · rintro _ ⟨⟩
      rw [hsame]
      exact h.outputsLe .ingest job hjob
    · rintro _ ⟨⟩ _ ⟨⟩
      exact hloaded
    · rw [← h.ingesting, hjob]
      rfl

theorem buildEngine {job : Job}
    (hjob : jobs .engine = some job) (hlast : job.lastSeq = none) {t : TableMeta}
    (ht : ∀ q ∈ t.seqs, q ≤ settledSeq walSeq (jobs .ingest)) :
    Sequenced walSeq applied ingestSeq live
      (Function.update jobs .engine (some { job with outputs := job.outputs ++ [t] })) := by
  refine h.setEngine _ ?_ ?_
  · rintro _ ⟨⟩ t' ht'
    rcases mem_append.1 ht' with ht' | ht'
    · exact h.outputsLe .engine job hjob t' ht'
    · rw [mem_singleton.1 ht']
      exact ht
  · rintro _ ⟨⟩ last hl
    rw [hlast] at hl
    cases hl

theorem buildIngest {job : Job}
    (hjob : jobs .ingest = some job) (hlast : job.lastSeq = none) (hempty : job.outputs = [])
    {t : TableMeta} (ht : ∀ q ∈ t.seqs, ingestSeq = some q) :
    Sequenced walSeq applied ingestSeq live
      (Function.update jobs .ingest (some { job with outputs := job.outputs ++ [t] })) := by
  have hsettled : settledSeq walSeq (some { job with outputs := job.outputs ++ [t] }) = walSeq := by
    rw [hempty]
    rfl
  refine h.setIngest _ ?_ ?_ ?_ ?_ h.reserved
  · rw [hsettled]
    exact settledSeq_le _ _
  · rintro _ ⟨⟩ t' ht' q hq
    rw [hempty] at ht'
    rw [mem_singleton.1 ht'] at hq
    rw [hsettled]
    exact h.reserved q (ht q hq)
  · rintro _ ⟨⟩ last hl
    rw [hlast] at hl
    cases hl
  · rw [← h.ingesting, hjob]
    rfl

theorem addLive {who : Committer} {job : Job}
    (hjob : jobs who = some job) {live' : List TableMeta}
    (hlive : ∀ t ∈ live', t ∈ live ∨ t ∈ job.outputs) :
    Sequenced walSeq applied ingestSeq live' jobs :=
  { h with
    liveLe := fun t ht => by
      rcases hlive t ht with ht | ht
      · exact h.liveLe t ht
      · exact h.outputsLe who job hjob t ht }

theorem endJob (who : Committer) :
    Sequenced walSeq applied (if who = .ingest then none else ingestSeq) live
      (Function.update jobs who none) := by
  cases who with
  | engine => exact h.setEngine none (by simp) (by simp)
  | ingest => exact h.setIngest none (settledSeq_le _ _) (by simp) (by simp) rfl (by simp)

end

end Sequenced

end Catalog

end LevisDB
