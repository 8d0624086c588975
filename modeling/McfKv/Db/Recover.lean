import McfKv.Db.VersionControl

/-!
# Recovery from the manifest (`VersionControl::Recover` in `db/version_control.cc`)

`Recover` reads the records of the manifest, decodes each into an edit, and feeds all
edits to one `Builder` over the version the process starts with; a single save then
produces the recovered version. Before the restart the same edits were applied one at
a time, each with a builder of its own.

The two ways do not agree in general, and the module says exactly when they do.

* A snapshot record lists the files of a version under two tags, but the builder reads
  only the list of new files. `snapshot_live_iff`: a snapshot restores the live files
  exactly when no merge candidate is missing from `files_`.
* A builder keeps added files, deleted numbers and dead-key counters in separate
  containers, so a delete or a counter never reaches a file that an earlier edit of
  the same replay added, and only the first counter of a file counts.
  `replay_agrees_iff` lists, file by file, when this makes no difference, and
  `recoverRecords_edits` says that the record loop is this replay.

The proofs follow one file number at a time: `Slot` is what a version holds under a
number, and a save acts on each slot by itself (`saveTo_slot`).
-/

namespace McfKv

namespace VersionControl

variable {D : Type*}

/-! ## The record loop -/

/-- The local variables of `Recover`; a `have_` flag and its value are one `Option`. -/
structure Recovery where
  builder : Builder
  status : Status
  logNumber : Option ℕ
  prevLogNumber : Option ℕ
  nextFile : Option ℕ
  lastSequence : Option ℕ

/-- The variables before the first record. -/
def Recovery.start : Recovery := ⟨Builder.new, .ok, none, none, none, none⟩

/-- The check of the comparator name of an edit. -/
def checkComparator (comparatorName : Slice) (edit : VersionEdit) : Status :=
  match edit.comparator with
  | some name =>
    if name = comparatorName then .ok
    else .invalidArgument (name ++ " does not match existing comparator ".toUTF8.data.toList)
      comparatorName
  | none => .ok

/-- One iteration of the record loop; after an error the loop has ended. -/
def recoverRecord (comparatorName : Slice) (r : Recovery) (record : Slice) : Recovery :=
  if r.status.isOk then
    let decoded := VersionEdit.new.decodeFrom record
    let edit := decoded.2
    let s := if decoded.1.isOk then checkComparator comparatorName edit else decoded.1
    { builder := if s.isOk then r.builder.apply edit else r.builder
      status := s
      logNumber := edit.logNumber.or r.logNumber
      prevLogNumber := edit.prevLogNumber.or r.prevLogNumber
      nextFile := edit.nextFileNumber.or r.nextFile
      lastSequence := edit.lastSequence.or r.lastSequence }
  else r

/-- The record loop of `Recover`. -/
def recoverRecords (comparatorName : Slice) (records : List Slice) : Recovery :=
  records.foldl (recoverRecord comparatorName) Recovery.start

/-- The checks after the record loop. -/
def Recovery.check (r : Recovery) : Status :=
  if r.status.isOk then
    if r.nextFile = none then .corruption "no meta-nextfile entry in descriptor" ""
    else if r.logNumber = none then .corruption "no meta-lognumber entry in descriptor" ""
    else if r.lastSequence = none then
      .corruption "no last-sequence-number entry in descriptor" ""
    else .ok
  else r.status

/-- `VersionControl::MarkFileNumberUsed`. -/
def markFileNumberUsed (vc : VersionControl) (number : ℕ) : VersionControl :=
  if vc.nextFileNumber ≤ number then { vc with nextFileNumber := number + 1 } else vc

/-- `VersionControl::Recover`, given the records that the log reader returns. -/
def recover (env : Env D) (comparatorName : Slice) (threshold : ℤ) (vc : VersionControl)
    (records : List Slice) : Option (Status × VersionControl) :=
  let r := recoverRecords comparatorName records
  let logNumber := r.logNumber.getD 0
  let prevLogNumber := r.prevLogNumber.getD 0
  let vc :=
    if r.status.isOk then (vc.markFileNumberUsed prevLogNumber).markFileNumberUsed logNumber
    else vc
  if r.check.isOk then
    (r.builder.saveTo vc.current Version.new threshold vc.stateChange).bind fun saved =>
      (finalize env saved.2 saved.1).map fun v =>
        (.ok,
          { vc with
            current := v
            stateChange := saved.2
            manifestFileNumber := r.nextFile.getD 0
            nextFileNumber := r.nextFile.getD 0 + 1
            lastSequence := r.lastSequence.getD 0
            logNumber := logNumber
            prevLogNumber := prevLogNumber })
  else some (r.check, vc)

theorem markFileNumberUsed_current (vc : VersionControl) (n : ℕ) :
    (vc.markFileNumberUsed n).current = vc.current := by
  unfold markFileNumberUsed
  split_ifs <;> rfl

theorem markFileNumberUsed_stateChange (vc : VersionControl) (n : ℕ) :
    (vc.markFileNumberUsed n).stateChange = vc.stateChange := by
  unfold markFileNumberUsed
  split_ifs <;> rfl

variable {name : Slice} {threshold : ℤ} {v base : Version} {b : Builder} {edits : List VersionEdit}
  {sc sc' : Bool}

/-- **What a call of `Recover` does.** It installs the finalized version that the records lead to,
or it fails and leaves the current version as it is. -/
theorem recover_cases {env : Env D} {vc vc' : VersionControl} {records : List Slice} {s : Status}
    (h : recover env name threshold vc records = some (s, vc')) : if s.isOk then
      ∃ saved, (recoverRecords name records).builder.saveTo vc.current Version.new threshold
          vc.stateChange = some (saved, vc'.stateChange) ∧
        finalize env vc'.stateChange saved = some vc'.current
    else vc'.current = vc.current ∧ vc'.stateChange = vc.stateChange := by
  unfold recover at h
  dsimp only at h
  by_cases hcheck : (recoverRecords name records).check.isOk
  · have hstatus : (recoverRecords name records).status.isOk := by
      by_contra hbad
      rw [Recovery.check, if_neg hbad] at hcheck
      exact hbad hcheck
    rw [if_pos hcheck, if_pos hstatus, markFileNumberUsed_current, markFileNumberUsed_current,
      markFileNumberUsed_stateChange, markFileNumberUsed_stateChange] at h
    obtain ⟨⟨saved, stateChange⟩, hsave, h⟩ := Option.bind_eq_some_iff.mp h
    obtain ⟨v, hfin, h⟩ := Option.map_eq_some_iff.mp h
    obtain ⟨rfl, rfl⟩ := Prod.mk.inj h
    exact ⟨saved, hsave, hfin⟩
  · rw [if_neg hcheck] at h
    obtain ⟨rfl, rfl⟩ := Prod.mk.inj (Option.some.inj h)
    rw [if_neg hcheck]
    split_ifs
    · rw [markFileNumberUsed_current, markFileNumberUsed_current, markFileNumberUsed_stateChange,
        markFileNumberUsed_stateChange]
      exact ⟨rfl, rfl⟩
    · exact ⟨rfl, rfl⟩

/-! ## A snapshot record -/

theorem foldl_addFile (l : List FileMetaData) (e : VersionEdit) : l.foldl VersionEdit.addFile e =
    { e with newFiles := e.newFiles ++ l.map VersionEdit.fileEntry } := by
  induction l generalizing e with
  | nil => simp
  | cons f l ih =>
    rw [List.foldl_cons, ih]
    simp [VersionEdit.addFile]

theorem foldl_addMergeCandidates (l : List FileMetaData) (e : VersionEdit) :
    l.foldl VersionEdit.addMergeCandidates e =
      { e with mergeCandidates := e.mergeCandidates ++ l.map VersionEdit.fileEntry } := by
  induction l generalizing e with
  | nil => simp
  | cons f l ih =>
    rw [List.foldl_cons, ih]
    simp [VersionEdit.addMergeCandidates]

theorem snapshotEdit_eq (env : Env D) (name : Slice) (v : Version) : snapshotEdit env name v =
      { VersionEdit.new with
        comparator := some name
        newFiles := (env.order Config.maxMergeCandidateCheckRound v.files).map
          VersionEdit.fileEntry
        mergeCandidates :=
          (env.order Config.maxMergeCandidateCheckRound v.mergeCandidates).map
            VersionEdit.fileEntry } := by
  dsimp only [snapshotEdit]
  rw [foldl_addFile, foldl_addMergeCandidates]
  rfl

/-- The numbers and keys of every live file fit their types. -/
def FilesFit (v : Version) : Prop :=
  ∀ f, f ∈ v.files.entries ∨ f ∈ v.mergeCandidates.entries → VersionEdit.FileFits f

theorem snapshotEdit_fits (env : Env D) (hname : name.length < 2 ^ 32) (hfits : FilesFit v) :
    ∀ item ∈ (snapshotEdit env name v).items, item.Fits := by
  have hentry : ∀ {f : FileMetaData}, VersionEdit.FileFits f →
      VersionEdit.FileFits (VersionEdit.fileEntry f) :=
    fun h => ⟨h.number, h.fileSize, h.total, h.alive, h.smallest, h.largest⟩
  intro item hitem
  rw [snapshotEdit_eq] at hitem
  simp only [VersionEdit.items, VersionEdit.new, Option.map_some, Option.map_none,
    Option.toList_some, Option.toList_none, List.map_nil, KeyedMap.entries_empty,
    List.append_nil, List.mem_append, List.mem_singleton, List.map_map, List.mem_map,
    Function.comp_apply] at hitem
  rcases hitem with (rfl | ⟨f, hf, rfl⟩) | ⟨f, hf, rfl⟩
  · exact hname
  · exact hentry (hfits f (Or.inl ((env.order_perm _ _).mem_iff.mp hf)))
  · exact hentry (hfits f (Or.inr ((env.order_perm _ _).mem_iff.mp hf)))

/-- Recovering from a snapshot record gives the builder one added file for each entry
of `files_`, and nothing else. -/
theorem recoverRecords_snapshot (env : Env D) (hname : name.length < 2 ^ 32) (hfits : FilesFit v) :
    (recoverRecords name [writeSnapshot env name v]).status = .ok ∧
    (recoverRecords name [writeSnapshot env name v]).builder = { Builder.new with
        addedFiles := (env.order Config.maxMergeCandidateCheckRound v.files).map
          fun f => Builder.newFile (VersionEdit.fileEntry f) } := by
  have hdecode := VersionEdit.decodeFrom_encodeTo VersionEdit.new _
    (snapshotEdit_fits env hname hfits)
  rw [VersionEdit.foldl_applyTo_items, snapshotEdit_eq] at hdecode
  unfold recoverRecords recoverRecord writeSnapshot
  rw [List.foldl_cons, List.foldl_nil, snapshotEdit_eq, hdecode]
  simp only [Recovery.start, Status.isOk, if_true, checkComparator]
  refine ⟨trivial, ?_⟩
  simp only [Builder.apply, Builder.new, VersionEdit.new, List.map_map, List.nil_append,
    KeyedMap.entries_empty, KeyedMap.insertAll_nil, Builder.mk.injEq, and_true]
  refine ⟨rfl, List.eq_nil_iff_forall_not_mem.mpr fun n hn => ?_⟩
  simpa using ((Builder.mem_foldl_filter_ne _ _ n).mp hn).1

theorem saveTo_snapshot (env : Env D) (v : Version) (threshold : ℤ) : ∃ r, Builder.saveTo
        { Builder.new with
          addedFiles := (env.order Config.maxMergeCandidateCheckRound v.files).map
            fun f => Builder.newFile (VersionEdit.fileEntry f) }
        Version.new Version.new threshold false = some (r, false) ∧
      ∀ n, r.files.find? n =
          (v.files.find? n).map (fun f => Builder.newFile (VersionEdit.fileEntry f)) ∧
        r.mergeCandidates.find? n = none := by
  refine ⟨_, rfl, fun n => ⟨?_, ?_⟩⟩
  · rw [(Builder.foldl_saveAdded _ _).1, KeyedMap.find?_insertAll, List.find?_map,
      ← v.files.find?_of_perm (env.order_perm Config.maxMergeCandidateCheckRound v.files) n]
    rfl
  · rw [(Builder.foldl_saveAdded _ _).2]
    rfl

/-- **When a snapshot preserves the live files.** The record of a snapshot, decoded and
replayed into an empty base, restores exactly the live files, with their metadata, if
and only if every merge candidate is in `files_` as well. -/
theorem snapshot_live_iff (env : Env D) (name : Slice) (threshold : ℤ) (v : Version)
    (hname : name.length < 2 ^ 32) (hfits : FilesFit v) :
    ((recoverRecords name [writeSnapshot env name v]).status = .ok ∧
      ∃ r stateChange,
        (recoverRecords name [writeSnapshot env name v]).builder.saveTo Version.new Version.new
          threshold false = some (r, stateChange) ∧
        ∀ n, (r.IsAlive n ↔ v.IsAlive n) ∧
          (r.metaData? n).map VersionEdit.fileEntry =
            (v.metaData? n).map VersionEdit.fileEntry) ↔
      ∀ n ∈ v.mergeCandidates, n ∈ v.files := by
  obtain ⟨hstatus, hbuilder⟩ := recoverRecords_snapshot env hname hfits
  obtain ⟨r, hsave, hr⟩ := saveTo_snapshot env v threshold
  have hmeta : ∀ n, (r.metaData? n).map VersionEdit.fileEntry =
      (v.files.find? n).map VersionEdit.fileEntry := by
    intro n
    unfold Version.metaData?
    rw [(hr n).1, (hr n).2, Option.or_none, Option.map_map]
    rfl
  have halive : ∀ n, r.IsAlive n ↔ n ∈ v.files := by
    intro n
    unfold Version.IsAlive
    rw [KeyedMap.mem_iff_find?, KeyedMap.mem_iff_find?, KeyedMap.mem_iff_find?, (hr n).1, (hr n).2]
    simp
  constructor
  · rintro ⟨-, r', stateChange, hsave', hsame⟩ n hn
    rw [hbuilder, hsave] at hsave'
    obtain ⟨rfl, -⟩ := Prod.mk.inj (Option.some.inj hsave')
    exact (halive n).mp ((hsame n).1.mpr (Or.inr hn))
  · intro hsub
    refine ⟨hstatus, r, false, by rw [hbuilder, hsave], fun n => ⟨?_, ?_⟩⟩
    · exact (halive n).trans ⟨Or.inl, fun h => h.elim id (hsub n)⟩
    · rw [hmeta n]
      unfold Version.metaData?
      cases hfind : v.files.find? n with
      | some f => rfl
      | none =>
        have hn : n ∉ v.mergeCandidates := fun h =>
          KeyedMap.find?_eq_none_iff.mp hfind (hsub n h)
        rw [KeyedMap.find?_eq_none_iff.mpr hn, Option.none_or]

theorem rangeFile_fits (n : ℕ) (hn : n < 2 ^ 64) : VersionEdit.FileFits (rangeFile n) :=
  ⟨hn, by simp [rangeFile], by simp [rangeFile], by simp [rangeFile],
    by simp [rangeFile, digitKey, Coding.encodeFixed64],
    by simp [rangeFile, digitKey, Coding.encodeFixed64]⟩

theorem snapshot_live_iff_rangeVersion :
    ((recoverRecords [] [writeSnapshot (clockEnv 1) [] rangeVersion]).status = .ok ∧
      ∃ r stateChange,
        (recoverRecords [] [writeSnapshot (clockEnv 1) [] rangeVersion]).builder.saveTo
          Version.new Version.new 70 false = some (r, stateChange) ∧
        ∀ n, (r.IsAlive n ↔ rangeVersion.IsAlive n) ∧
          (r.metaData? n).map VersionEdit.fileEntry =
            (rangeVersion.metaData? n).map VersionEdit.fileEntry) ↔
      ∀ n ∈ rangeVersion.mergeCandidates, n ∈ rangeVersion.files := by
  refine snapshot_live_iff (clockEnv 1) [] 70 rangeVersion (by simp) ?_
  rintro f (hf | hf)
  · obtain ⟨n, hn, rfl⟩ := List.mem_map.mp hf
    exact rangeFile_fits n (by have := List.mem_range.mp hn; omega)
  · simp [rangeVersion, Version.new] at hf

/-- A version whose only file is a merge candidate. -/
def candidateVersion : Version :=
  { Version.new with mergeCandidates := KeyedMap.insert ∅ (rangeFile 7) }

/-- The file of `candidateVersion` is not live after a snapshot and a restart. -/
theorem snapshot_drops_candidate :
    candidateVersion.IsAlive 7 ∧
      ∃ r stateChange,
        (recoverRecords [] [writeSnapshot (clockEnv 1) [] candidateVersion]).builder.saveTo
          Version.new Version.new 70 false = some (r, stateChange) ∧ ¬ r.IsAlive 7 := by
  have hfits : FilesFit candidateVersion := by
    rintro f (hf | hf)
    · simp [candidateVersion, Version.new] at hf
    · obtain rfl : f = rangeFile 7 := by
        simpa [candidateVersion, KeyedMap.insert] using hf
      exact rangeFile_fits 7 (by norm_num)
  obtain ⟨-, hbuilder⟩ := recoverRecords_snapshot (clockEnv 1)
    (show ([] : Slice).length < 2 ^ 32 by simp) hfits
  obtain ⟨r, hsave, hr⟩ := saveTo_snapshot (clockEnv 1) candidateVersion 70
  refine ⟨by decide, r, false, by rw [hbuilder, hsave], ?_⟩
  unfold Version.IsAlive
  rw [KeyedMap.mem_iff_find?, KeyedMap.mem_iff_find?, (hr 7).1, (hr 7).2]
  simp [candidateVersion, Version.new, KeyedMap.find?]

/-! ## Two ways to apply a list of edits -/

/-- What `Recover` does with the edits of the manifest: one builder, one save. -/
def replayBatch (threshold : ℤ) (v : Version) (edits : List VersionEdit) : Option Version :=
  ((edits.foldl Builder.apply Builder.new).saveTo v Version.new threshold false).map Prod.fst

/-- What successive calls of `LogAndApply` do: a builder and a save for each edit. -/
def replayStepwise (threshold : ℤ) (v : Version) (edits : List VersionEdit) : Option Version :=
  edits.foldlM
    (fun v edit => ((Builder.new.apply edit).saveTo v Version.new threshold false).map Prod.fst) v

/-- Both ways give versions with the same live files and the same alive counts. -/
def ReplayAgrees (threshold : ℤ) (v : Version) (edits : List VersionEdit) : Prop :=
  ∃ batch stepwise, replayBatch threshold v edits = some batch ∧
    replayStepwise threshold v edits = some stepwise ∧
    ∀ n, (batch.IsAlive n ↔ stepwise.IsAlive n) ∧
      (batch.metaData? n).map FileMetaData.alive = (stepwise.metaData? n).map FileMetaData.alive

/-- What `DecodeFrom` makes of the record of an edit. -/
def decoded (e : VersionEdit) : VersionEdit :=
  (VersionEdit.new.decodeFrom (e.encodeTo [])).2

theorem apply_decoded {b' : Builder} {e : VersionEdit} (h : Builder.Agrees b b')
    (hfits : ∀ item ∈ e.items, item.Fits) : Builder.Agrees (b.apply (decoded e)) (b'.apply e) := by
  have hdecoded : decoded e = { e with
      newFiles := e.newFiles.map VersionEdit.fileEntry
      mergeCandidates := e.mergeCandidates.map VersionEdit.fileEntry
      deadKeyCounter := KeyedMap.insertAll ∅ e.deadKeyCounter.entries } := by
    unfold decoded
    rw [VersionEdit.decodeFrom_encodeTo _ _ hfits, VersionEdit.foldl_applyTo_items]
    rfl
  rw [hdecoded]
  refine ⟨?_, ?_, fun n => ?_⟩
  · show b.addedFiles ++ (e.newFiles.map VersionEdit.fileEntry).map Builder.newFile =
      b'.addedFiles ++ e.newFiles.map Builder.newFile
    rw [h.addedFiles, List.map_map]
    rfl
  · show (e.newFiles.map VersionEdit.fileEntry).foldl _ (b.deletedFiles ++ e.deletedFiles) =
      e.newFiles.foldl _ (b'.deletedFiles ++ e.deletedFiles)
    rw [h.deletedFiles, List.foldl_map]
    rfl
  · rw [Builder.find?_deadKeyCounter_apply, Builder.find?_deadKeyCounter_apply, h.deadKeyCounter,
      KeyedMap.find?_insertAll]
    rfl

section

variable (hfits : ∀ e ∈ edits, ∀ item ∈ e.items, item.Fits)
  (hname : ∀ e ∈ edits, ∀ c, e.comparator = some c → c = name)

include hfits hname

theorem foldl_recoverRecord {r : Recovery} (hstatus : r.status = .ok)
    (hb : Builder.Agrees r.builder b) :
    ((edits.map fun e => e.encodeTo []).foldl (recoverRecord name) r).status = .ok ∧
    Builder.Agrees ((edits.map fun e => e.encodeTo []).foldl (recoverRecord name) r).builder
      (edits.foldl Builder.apply b) := by
  induction edits generalizing r b with
  | nil => exact ⟨hstatus, hb⟩
  | cons e edits ih =>
    have he := hfits e List.mem_cons_self
    have hok : (VersionEdit.new.decodeFrom (e.encodeTo [])).1 = .ok := by
      rw [VersionEdit.decodeFrom_encodeTo _ _ he]
    have hcomparator : checkComparator name (decoded e) = .ok := by
      have hsame : (decoded e).comparator = e.comparator := by
        unfold decoded
        rw [VersionEdit.decodeFrom_encodeTo _ _ he, VersionEdit.foldl_applyTo_items]
      unfold checkComparator
      rw [hsame]
      cases hc : e.comparator with
      | none => rfl
      | some c => simp [hname e List.mem_cons_self c hc]
    have hrecord : (recoverRecord name r (e.encodeTo [])).status = .ok ∧
        (recoverRecord name r (e.encodeTo [])).builder = r.builder.apply (decoded e) := by
      unfold recoverRecord
      rw [hstatus]
      dsimp only
      rw [hok]
      change checkComparator name (decoded e) = .ok ∧ (if (checkComparator name (decoded e)).isOk
        then r.builder.apply (decoded e) else r.builder) = _
      rw [hcomparator]
      exact ⟨rfl, rfl⟩
    rw [List.map_cons, List.foldl_cons, List.foldl_cons]
    refine ih (fun e' he' => hfits e' (List.mem_cons_of_mem _ he'))
      (fun e' he' => hname e' (List.mem_cons_of_mem _ he')) hrecord.1 ?_
    rw [hrecord.2]
    exact apply_decoded hb he

/-- **The record loop feeds all edits of the manifest to one builder.** -/
theorem recoverRecords_edits (threshold : ℤ) (v : Version) :
    (recoverRecords name (edits.map fun e => e.encodeTo [])).status = .ok ∧
    ((recoverRecords name (edits.map fun e => e.encodeTo [])).builder.saveTo v Version.new
      threshold false).map Prod.fst = replayBatch threshold v edits := by
  obtain ⟨hstatus, hagrees⟩ := foldl_recoverRecord (b := Builder.new) (r := Recovery.start) hfits
    hname rfl ⟨rfl, rfl, fun _ => rfl⟩
  refine ⟨hstatus, ?_⟩
  unfold replayBatch
  rw [← hagrees.saveTo_eq]
  rfl

end

/-- The edits of a manifest: one names the comparator and adds the files 4 and 5, and one deletes
the file 3 and adds the file 6. -/
def manifestEdits : List VersionEdit :=
  [{ VersionEdit.new with comparator := some [99], newFiles := [rangeFile 4, rangeFile 5] },
    { VersionEdit.new with deletedFiles := [3], newFiles := [rangeFile 6] }]

/-- The version that the edits start from. -/
def manifestBase : Version := { Version.new with files := ⟨[rangeFile 2, rangeFile 3], by decide⟩ }

/-- The records are read back, and the files 2, 4, 5 and 6 are saved. -/
theorem recoverRecords_edits_manifest :
    (recoverRecords [99] (manifestEdits.map fun e => e.encodeTo [])).status = .ok ∧
    (((recoverRecords [99] (manifestEdits.map fun e => e.encodeTo [])).builder.saveTo manifestBase
      Version.new 70 false).map Prod.fst).map (fun v => v.files.keys) = some [6, 5, 4, 2] := by
  have hfits : ∀ e ∈ manifestEdits, ∀ item ∈ e.items, item.Fits := by
    simp [manifestEdits, VersionEdit.items, VersionEdit.new, or_imp, forall_and,
      VersionEdit.Item.Fits, rangeFile_fits]
  obtain ⟨hstatus, hsave⟩ := @recoverRecords_edits [99] manifestEdits hfits
    (by simp [manifestEdits, VersionEdit.new]) 70 manifestBase
  refine ⟨hstatus, ?_⟩
  rw [hsave]
  decide +kernel

/-- What the callers promise about a list of edits: no file is without keys, and
`NewFileNumber` gives every new file a number of its own. -/
structure EditsOk (v : Version) (edits : List VersionEdit) : Prop where
  disjoint : v.Disjoint
  baseTotal : ∀ f ∈ v.files.entries, f.total ≠ 0
  newTotal : ∀ e ∈ edits, ∀ f ∈ e.newFiles, f.total ≠ 0
  fresh : ∀ e ∈ edits, ∀ f ∈ e.newFiles, ¬ v.IsAlive f.number
  nodup : ((edits.flatMap VersionEdit.newFiles).map FileMetaData.number).Nodup

/-- The dead keys that the first edit with an entry for a file records. -/
def firstDead (edits : List VersionEdit) (n : ℕ) : ℕ :=
  ((edits.findSome? fun e => e.deadKeyCounter.find? n).map Prod.snd).getD 0

/-- The counters of a list of edits take a base file to where its first counter alone
takes it: the file is used up by the first counter, or becomes a merge candidate with
it, or no later counter changes it. -/
def CountersAgree (threshold : ℤ) : List VersionEdit → FileMetaData → Prop
  | [], f => 0 < f.alive
  | e :: rest, f =>
    match e.deadKeyCounter.find? f.number with
    | some (_, dead) =>
      f.alive ≤ dead ∨ Builder.isLow threshold { f with alive := f.alive - dead } ∨
        ∀ e' ∈ rest, e'.dead f.number = 0
    | none =>
      f.alive = 0 ∨
        if Builder.isLow threshold f then firstDead rest f.number = 0
        else CountersAgree threshold rest f

/-- The edits after the one that added a file leave it as it was added. -/
def AddedKept (threshold : ℤ) (post : List VersionEdit) (f : FileMetaData) : Prop :=
  (∀ e ∈ post, f.number ∉ e.deletedFiles) ∧
    match post with
    | [] => True
    | e :: rest =>
      0 < f.alive ∧ e.dead f.number = 0 ∧
        (Builder.isLow threshold f ∨ ∀ e' ∈ rest, e'.dead f.number = 0)

/-- The condition under which a replay agrees with the steps: every base file is
deleted or has counters that agree, and every added file is kept as it was added. -/
def ReplayCondition (threshold : ℤ) (v : Version) (edits : List VersionEdit) : Prop :=
  (∀ f ∈ v.files.entries,
    (∃ e ∈ edits, f.number ∈ e.deletedFiles) ∨ CountersAgree threshold edits f) ∧
  ∀ pre e post, edits = pre ++ e :: post → ∀ f ∈ e.newFiles, AddedKept threshold post f

/-! ## One file number at a time -/

/-- What a version holds under one number: the entry in `files_` and the entry in
`merge_candidates_`. -/
abbrev Slot := Option FileMetaData × Option FileMetaData

/-- The slot of a number. -/
def slot (v : Version) (n : ℕ) : Slot := (v.files.find? n, v.mergeCandidates.find? n)

/-- The alive count of a slot. -/
def Slot.alive (s : Slot) : Option ℕ := (s.1.or s.2).map FileMetaData.alive

/-- What a save does to the slot of a number. -/
def saveSlot (threshold : ℤ) (n : ℕ) (b : Builder) (s : Slot) : Slot :=
  ((s.1.bind (b.keep threshold)).or (b.addedFiles.find? fun f => decide (f.number = n)),
    (s.1.bind (b.move threshold)).or (if n ∈ b.deletedFiles then none else s.2))

theorem alive_slot (v : Version) (n : ℕ) :
    (slot v n).alive = (v.metaData? n).map FileMetaData.alive := rfl

theorem isAlive_iff_alive_slot (v : Version) (n : ℕ) : v.IsAlive n ↔ (slot v n).alive.isSome := by
  rw [alive_slot]
  unfold Version.IsAlive Version.metaData?
  rw [KeyedMap.mem_iff_find?, KeyedMap.mem_iff_find?, ← Option.isSome_iff_exists,
    ← Option.isSome_iff_exists]
  simp

theorem saveTo_slot (h : b.saveTo base Version.new threshold sc = some (v, sc')) (n : ℕ) :
    slot v n = saveSlot threshold n b (slot base n) :=
  Prod.ext (Builder.saveTo_files h n) (Builder.saveTo_mergeCandidates h n)

theorem saveTo_isSome (threshold : ℤ) (h : ∀ f ∈ base.files.entries, f.total ≠ 0) (b : Builder)
    (sc : Bool) : ∃ v sc', b.saveTo base Version.new threshold sc = some (v, sc') := by
  obtain ⟨st, hst⟩ := Option.isSome_iff_exists.mp
    (b.foldlM_saveFile_isSome base threshold h (Version.new, sc))
  exact ⟨_, _, by rw [Builder.saveTo, hst]; rfl⟩

theorem saveTo_total (h : b.saveTo base Version.new threshold sc = some (v, sc'))
    (hbase : ∀ f ∈ base.files.entries, f.total ≠ 0) (hadded : ∀ f ∈ b.addedFiles, f.total ≠ 0) :
    ∀ f ∈ v.files.entries, f.total ≠ 0 := by
  intro f hf
  have hfind := Builder.saveTo_files h f.number
  rw [KeyedMap.find?_eq_some_iff.mpr ⟨hf, rfl⟩] at hfind
  rcases Option.or_eq_some_iff.mp hfind.symm with hkeep | ⟨-, hadd⟩
  · obtain ⟨f0, hf0, hkeep⟩ := Option.bind_eq_some_iff.mp hkeep
    have hsurv := (Option.filter_eq_some_iff.mp hkeep).1
    unfold Builder.survivor at hsurv
    split_ifs at hsurv
    obtain rfl := Option.some.inj hsurv
    exact hbase f0 (KeyedMap.find?_eq_some_iff.mp hf0).1
  · exact hadded f (List.mem_of_find?_eq_some hadd)

/-- **The stepwise replay**, slot by slot: each edit acts on the slot that the one before has left. -/
theorem replayStepwise_slot (threshold : ℤ) (edits : List VersionEdit) :
    ∀ {v : Version}, (∀ f ∈ v.files.entries, f.total ≠ 0) →
      (∀ e ∈ edits, ∀ f ∈ e.newFiles, f.total ≠ 0) →
      ∃ w, replayStepwise threshold v edits = some w ∧ ∀ n, slot w n =
        edits.foldl (fun s e => saveSlot threshold n (Builder.new.apply e) s) (slot v n) := by
  induction edits with
  | nil => exact fun _ _ => ⟨_, rfl, fun _ => rfl⟩
  | cons e edits ih =>
    intro v hv hnew
    obtain ⟨he, hedits⟩ := List.forall_mem_cons.mp hnew
    obtain ⟨v1, sc, hsave⟩ := saveTo_isSome threshold hv (Builder.new.apply e) false
    have hv1 : ∀ f ∈ v1.files.entries, f.total ≠ 0 := by
      refine saveTo_total hsave hv fun f hf => ?_
      obtain ⟨g, hg, rfl⟩ : ∃ g ∈ e.newFiles, Builder.newFile g = f := by
        simpa [Builder.apply, Builder.new] using hf
      exact he g hg
    obtain ⟨w, hw, hslot⟩ := ih hv1 hedits
    refine ⟨w, ?_, fun n => ?_⟩
    · unfold replayStepwise at hw ⊢
      rw [List.foldlM_cons, hsave]
      exact hw
    · rw [hslot n, saveTo_slot hsave n]
      rfl

/-! ## What a builder knows about one number -/

section OneNumber

variable {threshold : ℤ} {n : ℕ}

/-- No edit of the list adds the number. -/
def NotAdded (n : ℕ) (edits : List VersionEdit) : Prop :=
  ∀ e ∈ edits, ∀ f ∈ e.newFiles, f.number ≠ n

theorem foldl_apply_addedFiles (edits : List VersionEdit) (b : Builder) :
    (edits.foldl Builder.apply b).addedFiles =
      b.addedFiles ++ (edits.flatMap VersionEdit.newFiles).map Builder.newFile := by
  induction edits generalizing b with
  | nil => simp
  | cons e edits ih => simp [ih, Builder.apply]

variable {edits : List VersionEdit} {b : Builder} {e : VersionEdit} {f : FileMetaData}

theorem mem_foldl_apply_deletedFiles (h : NotAdded n edits) (b : Builder) :
    n ∈ (edits.foldl Builder.apply b).deletedFiles ↔
      n ∈ b.deletedFiles ∨ ∃ e ∈ edits, n ∈ e.deletedFiles := by
  induction edits generalizing b with
  | nil => simp
  | cons e edits ih =>
    obtain ⟨he, hedits⟩ := List.forall_mem_cons.mp h
    rw [List.foldl_cons, ih hedits, Builder.mem_deletedFiles_apply, and_iff_left he]
    simp [or_assoc]

theorem foldl_apply_deadKeyCounter (edits : List VersionEdit) (b : Builder) :
    (edits.foldl Builder.apply b).deadKeyCounter.find? n =
      (b.deadKeyCounter.find? n).or (edits.findSome? fun e => e.deadKeyCounter.find? n) := by
  induction edits generalizing b with
  | nil => simp
  | cons e edits ih =>
    rw [List.foldl_cons, ih, Builder.find?_deadKeyCounter_apply, Option.or_assoc]
    rw [List.findSome?_cons]
    cases e.deadKeyCounter.find? n <;> rfl

theorem foldl_apply_dead (edits : List VersionEdit) :
    (edits.foldl Builder.apply Builder.new).dead n = firstDead edits n := by
  unfold Builder.dead firstDead
  rw [foldl_apply_deadKeyCounter]
  rfl

theorem addedFiles_find?_none (h : NotAdded n edits) :
    ((edits.foldl Builder.apply Builder.new).addedFiles.find? fun f => decide (f.number = n)) =
      none := by
  rw [foldl_apply_addedFiles, List.find?_eq_none]
  intro f hf hnum
  obtain ⟨g, hg, rfl⟩ : ∃ g ∈ edits.flatMap VersionEdit.newFiles, Builder.newFile g = f := by
    simpa [Builder.new] using hf
  obtain ⟨e, he, hge⟩ := List.mem_flatMap.mp hg
  exact h e he g hge (of_decide_eq_true hnum)

theorem saveSlot_file (hadd : (b.addedFiles.find? fun f => decide (f.number = n)) = none)
    (f : FileMetaData) : saveSlot threshold n b (some f, none) = match b.survivor f with
      | none => (none, none)
      | some f' => if Builder.isLow threshold f' then (none, some f') else (some f', none) := by
  unfold saveSlot
  simp only [hadd, Option.bind_some, Option.or_none, ite_self, Builder.keep, Builder.move]
  cases b.survivor f with
  | none => rfl
  | some f' => by_cases hlow : Builder.isLow threshold f' <;> simp [Option.filter, hlow]

theorem saveSlot_candidate (hadd : (b.addedFiles.find? fun f => decide (f.number = n)) = none)
    (c : Option FileMetaData) :
    saveSlot threshold n b (none, c) = (none, if n ∈ b.deletedFiles then none else c) := by
  simp [saveSlot, hadd]

theorem apply_of_notAdded (he : ∀ g ∈ e.newFiles, g.number ≠ n) :
    ((Builder.new.apply e).addedFiles.find? fun f => decide (f.number = n)) = none ∧
      (n ∈ (Builder.new.apply e).deletedFiles ↔ n ∈ e.deletedFiles) ∧
      (Builder.new.apply e).dead n = e.dead n := by
  have hone : NotAdded n [e] := by simpa [NotAdded] using he
  refine ⟨addedFiles_find?_none hone, ?_, ?_⟩
  · simpa [Builder.new] using mem_foldl_apply_deletedFiles hone Builder.new
  · unfold Builder.dead VersionEdit.dead
    rw [Builder.find?_deadKeyCounter_apply]
    rfl

/-- A file that an edit does not add loses the keys that are dead, and goes if none is left. -/
theorem saveSlot_apply_file (hnum : f.number = n) (he : ∀ g ∈ e.newFiles, g.number ≠ n) :
    saveSlot threshold n (Builder.new.apply e) (some f, none) =
      if n ∈ e.deletedFiles then (none, none) else if e.dead n < f.alive then
        if Builder.isLow threshold { f with alive := f.alive - e.dead n } then
          (none, some { f with alive := f.alive - e.dead n })
        else (some { f with alive := f.alive - e.dead n }, none)
      else (none, none) := by
  obtain ⟨hadd, hdel, hdead⟩ := apply_of_notAdded he
  rw [saveSlot_file hadd]
  subst hnum
  simp only [Builder.survivor, hdel, hdead]
  split_ifs <;> simp_all

theorem saveSlot_apply_candidate (he : ∀ g ∈ e.newFiles, g.number ≠ n) (c : Option FileMetaData) :
    saveSlot threshold n (Builder.new.apply e) (none, c) =
      (none, if n ∈ e.deletedFiles then none else c) := by
  obtain ⟨hadd, hdel, -⟩ := apply_of_notAdded he
  rw [saveSlot_candidate hadd]
  simp only [hdel]

/-! ## The life of one file under a list of edits -/

/-- The slot of the number after each edit has been saved by itself. -/
def life (threshold : ℤ) (n : ℕ) (edits : List VersionEdit) (s : Slot) : Slot :=
  edits.foldl (fun s e => saveSlot threshold n (Builder.new.apply e) s) s

@[simp] theorem life_nil (s : Slot) : life threshold n [] s = s := rfl

@[simp] theorem life_cons (e : VersionEdit) (edits : List VersionEdit) (s : Slot) :
    life threshold n (e :: edits) s =
      life threshold n edits (saveSlot threshold n (Builder.new.apply e) s) := rfl

theorem life_candidate (h : NotAdded n edits) (c : Option FileMetaData) :
    life threshold n edits (none, c) =
      (none, if ∃ e ∈ edits, n ∈ e.deletedFiles then none else c) := by
  induction edits generalizing c with
  | nil => simp
  | cons e edits ih =>
    obtain ⟨he, hedits⟩ := List.forall_mem_cons.mp h
    rw [life_cons, saveSlot_apply_candidate he, ih hedits]
    by_cases hdel : n ∈ e.deletedFiles <;> simp [hdel]

theorem life_deleted (h : NotAdded n edits) (hnum : f.number = n)
    (hdel : ∃ e ∈ edits, n ∈ e.deletedFiles) :
    (life threshold n edits (some f, none)).alive = none := by
  induction edits generalizing f with
  | nil => simp at hdel
  | cons e edits ih =>
    obtain ⟨he, hedits⟩ := List.forall_mem_cons.mp h
    rw [life_cons, saveSlot_apply_file hnum he]
    have hcand : ∀ c, (life threshold n edits (none, c)).alive =
        if ∃ e ∈ edits, n ∈ e.deletedFiles then none else c.map FileMetaData.alive := by
      intro c
      rw [life_candidate hedits]
      split_ifs <;> rfl
    split_ifs with h1 h2 h3
    · rw [hcand]
      simp
    · have hrest : ∃ e ∈ edits, n ∈ e.deletedFiles := by simpa [h1] using hdel
      rw [hcand, if_pos hrest]
    · exact ih hedits hnum (by simpa [h1] using hdel)
    · rw [hcand]
      simp

theorem life_alive_le (h : NotAdded n edits) (hnum : f.number = n) {a : ℕ}
    (ha : (life threshold n edits (some f, none)).alive = some a) : a ≤ f.alive := by
  induction edits generalizing f with
  | nil =>
    obtain rfl : f.alive = a := by simpa [Slot.alive] using ha
    exact le_rfl
  | cons e edits ih =>
    obtain ⟨he, hedits⟩ := List.forall_mem_cons.mp h
    rw [life_cons, saveSlot_apply_file hnum he] at ha
    split_ifs at ha with h1 h2 h3
    · simp [life_candidate hedits, Slot.alive] at ha
    · rw [life_candidate hedits] at ha
      split_ifs at ha with hdel
      · simp [Slot.alive] at ha
      · obtain rfl : f.alive - e.dead n = a := by simpa [Slot.alive] using ha
        exact Nat.sub_le _ _
    · exact (ih hedits (by simpa using hnum) ha).trans (Nat.sub_le _ _)
    · simp [life_candidate hedits, Slot.alive] at ha

theorem life_charged (h : NotAdded n (e :: edits)) (hnum : f.number = n) (hdead : 0 < e.dead n) :
    (life threshold n (e :: edits) (some f, none)).alive ≠ some f.alive := by
  obtain ⟨he, hedits⟩ := List.forall_mem_cons.mp h
  rw [life_cons, saveSlot_apply_file hnum he]
  split_ifs with h1 h2 h3
  · simp [life_candidate hedits, Slot.alive]
  · rw [life_candidate hedits]
    split_ifs with hdel
    · simp [Slot.alive]
    · have hlt : f.alive - e.dead n ≠ f.alive := by omega
      simpa [Slot.alive] using hlt
  · intro heq
    have hle : f.alive ≤ f.alive - e.dead n := life_alive_le hedits (by simpa using hnum) heq
    omega
  · simp [life_candidate hedits, Slot.alive]

theorem life_unchanged_iff (h : NotAdded n edits) (hnum : f.number = n)
    (hlow : ¬ Builder.isLow threshold f) (hpos : 0 < f.alive) :
    (life threshold n edits (some f, none)).alive = some f.alive ↔
      ∀ e ∈ edits, n ∉ e.deletedFiles ∧ e.dead n = 0 := by
  induction edits with
  | nil => simp [Slot.alive]
  | cons e edits ih =>
    obtain ⟨he, hedits⟩ := List.forall_mem_cons.mp h
    rcases Nat.eq_zero_or_pos (e.dead n) with hzero | hdead
    · rw [life_cons, saveSlot_apply_file hnum he, List.forall_mem_cons, ← ih hedits]
      by_cases hdel : n ∈ e.deletedFiles
      · simp [hdel, life_candidate hedits, Slot.alive]
      · simp [hdel, hzero, hpos, hlow]
    · refine iff_of_false (life_charged h hnum hdead) fun hall => ?_
      have := (hall e List.mem_cons_self).2
      omega

theorem life_added_iff {post : List VersionEdit} (h : NotAdded n post) (hnum : f.number = n) :
    (life threshold n post (some f, none)).alive = some f.alive ↔ AddedKept threshold post f := by
  subst hnum
  cases post with
  | nil => simp [Slot.alive, AddedKept]
  | cons e rest =>
    obtain ⟨he, hrest⟩ := List.forall_mem_cons.mp h
    unfold AddedKept
    rcases Nat.eq_zero_or_pos (e.dead f.number) with hzero | hdead
    · rw [life_cons, saveSlot_apply_file rfl he, List.forall_mem_cons]
      by_cases hdel : f.number ∈ e.deletedFiles
      · simp [hdel, life_candidate hrest, Slot.alive]
      · rcases Nat.eq_zero_or_pos f.alive with halive | hpos
        · simp [hdel, hzero, halive, life_candidate hrest, Slot.alive]
        · by_cases hlow : Builder.isLow threshold f
          · simp only [hdel, hzero, hpos, Nat.sub_zero, hlow, if_true, if_false,
              life_candidate hrest]
            split_ifs with hlater
            · simpa [Slot.alive] using hlater
            · simpa [Slot.alive] using hlater
          · simp only [hdel, hzero, hpos, Nat.sub_zero, hlow, if_true, if_false]
            rw [life_unchanged_iff hrest rfl hlow hpos]
            simp [forall_and]
    · refine iff_of_false (life_charged h rfl hdead) ?_
      rintro ⟨-, -, hzero, -⟩
      omega

/-- Without deletes, a base file ends where its first counter alone takes it exactly
when its counters agree. -/
theorem life_counters_iff (h : NotAdded n edits) (hnum : f.number = n)
    (hdel : ¬ ∃ e ∈ edits, n ∈ e.deletedFiles) : (life threshold n edits (some f, none)).alive =
        (if firstDead edits n < f.alive then some (f.alive - firstDead edits n) else none) ↔
      CountersAgree threshold edits f := by
  subst hnum
  induction edits with
  | nil => simp [Slot.alive, firstDead, CountersAgree]
  | cons e rest ih =>
    obtain ⟨he, hrest⟩ := List.forall_mem_cons.mp h
    have hdele : f.number ∉ e.deletedFiles := fun hd => hdel ⟨e, List.mem_cons_self, hd⟩
    have hdelrest : ¬ ∃ e ∈ rest, f.number ∈ e.deletedFiles := fun ⟨e', he', hd⟩ =>
      hdel ⟨e', List.mem_cons_of_mem _ he', hd⟩
    have hcand : ∀ c, (life threshold f.number rest (none, c)).alive =
        c.map FileMetaData.alive := by
      intro c
      rw [life_candidate hrest, if_neg hdelrest]
      rfl
    rw [life_cons, saveSlot_apply_file rfl he, if_neg hdele, CountersAgree]
    cases hcount : e.deadKeyCounter.find? f.number with
    | some pair =>
      obtain ⟨m, d⟩ := pair
      have hdead : e.dead f.number = d := by simp [VersionEdit.dead, hcount]
      have hfirst : firstDead (e :: rest) f.number = d := by simp [firstDead, hcount]
      rw [hdead, hfirst]
      by_cases hlt : d < f.alive
      · rw [if_pos hlt, if_pos hlt]
        by_cases hlow : Builder.isLow threshold { f with alive := f.alive - d }
        · simp [hlow, hcand]
        · rw [if_neg hlow]
          have hlife : (life threshold f.number rest
                (some { f with alive := f.alive - d }, none)).alive =
              some (f.alive - d) ↔ ∀ e ∈ rest, f.number ∉ e.deletedFiles ∧ e.dead f.number = 0 :=
            life_unchanged_iff hrest rfl hlow (Nat.sub_pos_of_lt hlt)
          rw [hlife]
          simp only [hlow, false_or, Nat.not_le.mpr hlt]
          exact forall₂_congr fun e' he' =>
            and_iff_right fun hd => hdelrest ⟨e', he', hd⟩
      · simp [hlt, hcand, Nat.not_lt.mp hlt]
    | none =>
      have hdead : e.dead f.number = 0 := by simp [VersionEdit.dead, hcount]
      have hfirst : firstDead (e :: rest) f.number = firstDead rest f.number := by
        simp [firstDead, hcount]
      rw [hdead, hfirst]
      rcases Nat.eq_zero_or_pos f.alive with halive | hpos
      · simp [halive, hcand]
      · simp only [hpos, Nat.sub_zero, if_true, hpos.ne', false_or]
        by_cases hlow : Builder.isLow threshold f
        · simp only [hlow, if_true, hcand, Option.map_some]
          split_ifs with hlt
          · rw [Option.some.injEq]
            omega
          · refine iff_of_false (by simp) ?_
            omega
        · simp only [hlow, if_false]
          exact ih hrest hdelrest

end OneNumber

/-! ## When the two ways agree -/

section Agreement

variable {threshold : ℤ} {v : Version} {edits : List VersionEdit}

theorem replayAgrees_iff_alive (hok : EditsOk v edits) : ReplayAgrees threshold v edits ↔
    ∀ n, (saveSlot threshold n (edits.foldl Builder.apply Builder.new) (slot v n)).alive =
      (life threshold n edits (slot v n)).alive := by
  obtain ⟨batch, sc, hbatch⟩ := saveTo_isSome threshold hok.baseTotal
    (edits.foldl Builder.apply Builder.new) false
  obtain ⟨stepwise, hstep, hslot⟩ :=
    replayStepwise_slot threshold edits hok.baseTotal hok.newTotal
  have hsame : ∀ n, (batch.IsAlive n ↔ stepwise.IsAlive n) ∧
      (batch.metaData? n).map FileMetaData.alive = (stepwise.metaData? n).map FileMetaData.alive ↔
      (slot batch n).alive = (slot stepwise n).alive := by
    intro n
    rw [isAlive_iff_alive_slot, isAlive_iff_alive_slot, ← alive_slot, ← alive_slot]
    exact ⟨And.right, fun h => ⟨by rw [h], h⟩⟩
  have hrewrite : ∀ n, (slot batch n).alive = (slot stepwise n).alive ↔
      (saveSlot threshold n (edits.foldl Builder.apply Builder.new) (slot v n)).alive =
        (life threshold n edits (slot v n)).alive := by
    intro n
    rw [saveTo_slot hbatch n, hslot n]
    rfl
  have hbatch' : replayBatch threshold v edits = some batch := by
    rw [replayBatch, hbatch]
    rfl
  constructor
  · rintro ⟨b, s, hb, hs, h⟩ n
    obtain rfl := Option.some.inj (hbatch'.symm.trans hb)
    obtain rfl := Option.some.inj (hstep.symm.trans hs)
    exact (hrewrite n).mp ((hsame n).mp (h n))
  · intro h
    exact ⟨batch, stepwise, hbatch', hstep, fun n => (hsame n).mpr ((hrewrite n).mpr (h n))⟩

theorem slot_of_not_isAlive {n : ℕ} (h : ¬ v.IsAlive n) : slot v n = (none, none) := by
  obtain ⟨hfile, hcand⟩ := not_or.mp h
  exact Prod.ext (KeyedMap.find?_eq_none_iff.mpr hfile) (KeyedMap.find?_eq_none_iff.mpr hcand)

theorem slot_of_mem_files (hok : EditsOk v edits) {f : FileMetaData} (hf : f ∈ v.files.entries) :
    slot v f.number = (some f, none) :=
  Prod.ext (KeyedMap.find?_eq_some_iff.mpr ⟨hf, rfl⟩)
    (KeyedMap.find?_eq_none_iff.mpr (hok.disjoint _ (KeyedMap.mem_of_mem_entries hf)))

theorem baseFile_agrees_iff (hok : EditsOk v edits) {f : FileMetaData} (hf : f ∈ v.files.entries) :
    (saveSlot threshold f.number (edits.foldl Builder.apply Builder.new)
        (slot v f.number)).alive = (life threshold f.number edits (slot v f.number)).alive ↔
      (∃ e ∈ edits, f.number ∈ e.deletedFiles) ∨ CountersAgree threshold edits f := by
  have hnot : NotAdded f.number edits := fun e he g hg heq =>
    hok.fresh e he g hg (heq ▸ Or.inl (KeyedMap.mem_of_mem_entries hf))
  rw [slot_of_mem_files hok hf, saveSlot_file (addedFiles_find?_none hnot)]
  have hdel : f.number ∈ (edits.foldl Builder.apply Builder.new).deletedFiles ↔
      ∃ e ∈ edits, f.number ∈ e.deletedFiles := by
    rw [mem_foldl_apply_deletedFiles hnot]
    simp [Builder.new]
  unfold Builder.survivor
  rw [foldl_apply_dead]
  by_cases hd : ∃ e ∈ edits, f.number ∈ e.deletedFiles
  · rw [if_pos (hdel.mpr hd), life_deleted hnot rfl hd]
    exact iff_of_true rfl (Or.inl hd)
  · rw [if_neg (mt hdel.mp hd), or_iff_right hd, ← life_counters_iff hnot rfl hd]
    split_ifs with hlt
    · simp only
      split_ifs <;> exact eq_comm
    · exact eq_comm

/-- On a number that is in no map and that no edit adds, and on the number of a merge
candidate, the two ways agree. -/
theorem otherNumber_agrees {n : ℕ} (hnot : NotAdded n edits) (c : Option FileMetaData) :
    (saveSlot threshold n (edits.foldl Builder.apply Builder.new) (none, c)).alive =
      (life threshold n edits (none, c)).alive := by
  rw [saveSlot_candidate (addedFiles_find?_none hnot), life_candidate hnot]
  simp only [mem_foldl_apply_deletedFiles hnot]
  simp [Builder.new]

theorem addedFile_agrees_iff (hok : EditsOk v edits) {pre post : List VersionEdit}
    {e : VersionEdit} (hedits : edits = pre ++ e :: post) {f : FileMetaData} (hf : f ∈ e.newFiles) :
    (saveSlot threshold f.number (edits.foldl Builder.apply Builder.new)
        (slot v f.number)).alive = (life threshold f.number edits (slot v f.number)).alive ↔
      AddedKept threshold post f := by
  have he : e ∈ edits := by simp [hedits]
  have hnodup := hok.nodup
  -- the number is added by this edit only, and by this file only
  rw [hedits, List.flatMap_append, List.flatMap_cons, List.map_append, List.map_append,
    List.nodup_append'] at hnodup
  obtain ⟨-, hright, hdisj⟩ := hnodup
  obtain ⟨hefiles, -, hdisj'⟩ := List.nodup_append'.mp hright
  have hpre : NotAdded f.number pre := fun e' he' g hg heq =>
    hdisj (List.mem_map.mpr ⟨g, List.mem_flatMap.mpr ⟨e', he', hg⟩, heq⟩)
      (List.mem_append_left _ (List.mem_map.mpr ⟨f, hf, rfl⟩))
  have hpost : NotAdded f.number post := fun e' he' g hg heq =>
    hdisj' (List.mem_map.mpr ⟨f, hf, rfl⟩)
      (List.mem_map.mpr ⟨g, List.mem_flatMap.mpr ⟨e', he', hg⟩, heq⟩)
  have hfind : ∀ l : List FileMetaData, f ∈ l → (l.map FileMetaData.number).Nodup →
      ((l.map Builder.newFile).find? fun g => decide (g.number = f.number)) =
        some (Builder.newFile f) := by
    intro l hl hnodup
    rw [List.find?_map]
    have := KeyedMap.find?_eq_some_iff (m := (⟨l, hnodup⟩ : FileMap)).mpr ⟨hl, rfl⟩
    exact congrArg (Option.map Builder.newFile) this
  have hslot : slot v f.number = (none, none) := slot_of_not_isAlive (hok.fresh e he f hf)
  have hbatch : saveSlot threshold f.number (edits.foldl Builder.apply Builder.new)
      (none, none) = (some (Builder.newFile f), none) := by
    unfold saveSlot
    rw [foldl_apply_addedFiles]
    simp only [Option.bind_none, Option.none_or, ite_self]
    simp [Builder.new, hfind _ (List.mem_flatMap.mpr ⟨e, he, hf⟩) hok.nodup]
  have hstep : life threshold f.number edits (none, none) =
      life threshold f.number post (some (Builder.newFile f), none) := by
    have hsave : saveSlot threshold f.number (Builder.new.apply e) (none, none) =
        (some (Builder.newFile f), none) := by
      simp [saveSlot, Builder.apply, Builder.new, hfind _ hf hefiles]
    rw [hedits, life, List.foldl_append]
    change life threshold f.number (e :: post) (life threshold f.number pre (none, none)) = _
    rw [life_candidate hpre, ite_self, life_cons, hsave]
  rw [hslot, hbatch, hstep, eq_comm]
  exact life_added_iff hpost (Builder.newFile_number f)

/-- **When a replay of the manifest agrees with the steps it recorded.** Feeding all
edits to one builder gives the same live files and the same alive counts as applying
them one at a time, if and only if every base file is deleted or has counters that
agree, and every added file is kept as it was added. -/
theorem replay_agrees_iff (threshold : ℤ) (v : Version) (edits : List VersionEdit)
    (hok : EditsOk v edits) :
    ReplayAgrees threshold v edits ↔ ReplayCondition threshold v edits := by
  rw [replayAgrees_iff_alive hok]
  constructor
  · intro h
    exact ⟨fun f hf => (baseFile_agrees_iff hok hf).mp (h f.number),
      fun pre e post hedits f hf => (addedFile_agrees_iff hok hedits hf).mp (h f.number)⟩
  · rintro ⟨hbase, hadded⟩ n
    by_cases hnot : NotAdded n edits
    · by_cases hfile : n ∈ v.files
      · obtain ⟨f, hf, rfl⟩ := KeyedMap.mem_def.mp hfile
        exact (baseFile_agrees_iff hok hf).mpr (hbase f hf)
      · have hslot : slot v n = (none, v.mergeCandidates.find? n) :=
          Prod.ext (KeyedMap.find?_eq_none_iff.mpr hfile) rfl
        rw [hslot]
        exact otherNumber_agrees hnot _
    · unfold NotAdded at hnot
      push Not at hnot
      obtain ⟨e, he, f, hf, rfl⟩ := hnot
      obtain ⟨pre, post, hedits⟩ := List.append_of_mem he
      exact (addedFile_agrees_iff hok hedits hf).mpr (hadded pre e post hedits f hf)

end Agreement

/-- The edits of a flush to file 5 and of a compaction that consumes it. -/
def addThenDelete : List VersionEdit :=
  [VersionEdit.new.addFile (rangeFile 5), VersionEdit.new.deleteFile 5]

theorem replay_agrees_iff_addThenDelete :
    ReplayAgrees 70 Version.new addThenDelete ↔ ReplayCondition 70 Version.new addThenDelete := by
  refine replay_agrees_iff 70 Version.new addThenDelete
    ⟨fun n _ => KeyedMap.notMem_empty n, fun f hf => by simp [Version.new] at hf, ?_,
      fun e _ f _ => by simp [Version.IsAlive, Version.new], by decide⟩
  intro e he f hf
  have hall : ∀ f ∈ addThenDelete.flatMap VersionEdit.newFiles, f.total ≠ 0 := by decide
  exact hall f (List.mem_flatMap.mpr ⟨e, he, hf⟩)

/-- After a restart, a file that a compaction had deleted is live again. -/
theorem replay_revives_file :
    ∃ batch stepwise, replayBatch 70 Version.new addThenDelete = some batch ∧
      replayStepwise 70 Version.new addThenDelete = some stepwise ∧
      batch.IsAlive 5 ∧ ¬ stepwise.IsAlive 5 :=
  ⟨_, _, rfl, rfl, by decide, by decide⟩

end VersionControl

end McfKv
