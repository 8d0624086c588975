import McfKv.Db.VersionControl

/-!
# A `LogAndApply` that fails (`db/version_control.cc`)

`LogAndApply` builds the new version before it writes the manifest. When the manifest cannot be
written, the new version is thrown away and the manifest is closed again if the call has opened
it. One thing is not taken back: the metadata of a file is shared between the current version
and the new one, and `SaveTo` has subtracted the dead keys of the edit from it. If the edit is
applied again, the dead keys are subtracted a second time.
-/

namespace McfKv

namespace Builder

/-- Saving leaves the metadata of a file alone if the file is deleted, if it has no dead keys,
or if no key is left. -/
theorem charge_eq_self_iff {b : Builder} {f : FileMetaData} : b.charge f = f ↔
    f.number ∈ b.deletedFiles ∨ b.dead f.number = 0 ∨ f.alive ≤ b.dead f.number := by
  unfold charge survivor
  split_ifs with hdel hlt
  · exact iff_of_true rfl (Or.inl hdel)
  · rw [or_iff_right hdel, or_iff_left (not_le.mpr hlt)]
    constructor
    · intro heq
      have halive : f.alive - b.dead f.number = f.alive := congrArg FileMetaData.alive heq
      omega
    · intro h0
      rw [h0]
      rfl
  · exact iff_of_true rfl (Or.inr (Or.inr (not_lt.mp hlt)))

theorem chargeBase_files_eq_iff {b : Builder} {base : Version} :
    (b.chargeBase base).files = base.files ↔ ∀ f ∈ base.files.entries, b.charge f = f := by
  have hmap : base.files.entries.map b.charge = base.files.entries ↔
      ∀ f ∈ base.files.entries, b.charge f = f := by
    conv_lhs => rhs; rw [← List.map_id base.files.entries]
    exact List.map_inj_left
  rw [← hmap]
  constructor
  · exact fun heq => congrArg KeyedMap.entries heq
  · intro heq
    unfold chargeBase KeyedMap.map
    simp only [heq]

section StateChange

variable (b : Builder) (base : Version) (threshold : ℤ)

theorem saveFile_fst (st st' : Version × Bool) (hst : st.1 = st'.1) (f : FileMetaData) :
    (b.saveFile base threshold st f).map Prod.fst =
      (b.saveFile base threshold st' f).map Prod.fst := by
  unfold saveFile
  cases b.survivor f with
  | none => simp [hst]
  | some f' =>
    dsimp only
    split_ifs
    · rfl
    · simp [hst]
    · simp [hst]

theorem foldlM_saveFile_fst (l : List FileMetaData) : ∀ st st' : Version × Bool, st.1 = st'.1 →
    (l.foldlM (b.saveFile base threshold) st).map Prod.fst =
      (l.foldlM (b.saveFile base threshold) st').map Prod.fst := by
  induction l with
  | nil => exact fun st st' hst => congrArg some hst
  | cons f l ih =>
    intro st st' hst
    rw [List.foldlM_cons, List.foldlM_cons]
    have hstep := b.saveFile_fst base threshold st st' hst f
    cases h : b.saveFile base threshold st f with
    | none =>
      rw [h, Option.map_none, eq_comm, Option.map_eq_none_iff] at hstep
      rw [hstep]
    | some mid =>
      rw [h, Option.map_some, eq_comm, Option.map_eq_some_iff] at hstep
      obtain ⟨mid', h', heq⟩ := hstep
      rw [h']
      exact ih mid mid' heq.symm

theorem saveTo_fst (v : Version) (stateChange stateChange' : Bool) :
    (b.saveTo base v threshold stateChange).map Prod.fst =
      (b.saveTo base v threshold stateChange').map Prod.fst := by
  have hloop := b.foldlM_saveFile_fst base threshold base.files.entries (v, stateChange)
    (v, stateChange') rfl
  have hsave : ∀ sc, (b.saveTo base v threshold sc).map Prod.fst =
      ((base.files.entries.foldlM (b.saveFile base threshold) (v, sc)).map Prod.fst).map fun w =>
        b.addedFiles.foldl saveAdded (base.mergeCandidates.entries.foldl b.saveCandidate w) := by
    intro sc
    unfold saveTo
    rw [Option.map_map, Option.map_map]
    rfl
  rw [hsave, hsave, hloop]

end StateChange

end Builder

namespace VersionControl

variable {D : Type*}

theorem calculateScore_stateChange (env : Env D) (stateChange stateChange' : Bool) (round : ℕ)
    (v : Version) :
    calculateScore env stateChange round v = calculateScore env stateChange' round v := by
  have hthreshold : ∀ sc : Bool, (if sc then Config.overlapRatioThreshold else 0) = 0 :=
    fun sc => ite_self 0
  unfold calculateScore
  rw [hthreshold, hthreshold]

theorem finalize_stateChange (env : Env D) (stateChange stateChange' : Bool) (v : Version) :
    finalize env stateChange v = finalize env stateChange' v := by
  have hloop : ∀ left v, finalizeLoop env stateChange left v =
      finalizeLoop env stateChange' left v := by
    intro left
    induction left with
    | zero => exact fun _ => rfl
    | succ left ih =>
      intro v
      simp only [finalizeLoop, ih, calculateScore_stateChange env stateChange stateChange']
  unfold finalize
  rw [hloop]

theorem logAndApply_current_unique {env : Env D} {comparatorName : Slice} {threshold : ℤ}
    {io io' : ManifestIo} {vc vc' w w' : VersionControl} {edit edit' : VersionEdit} {s s' : Status}
    (hcurrent : vc.current = vc'.current) (hedit : Builder.new.apply edit = Builder.new.apply edit')
    (h : logAndApply env comparatorName threshold io vc edit = some (s, w)) (hok : s.isOk)
    (h' : logAndApply env comparatorName threshold io' vc' edit' = some (s', w')) (hok' : s'.isOk) :
    w.current = w'.current := by
  obtain ⟨saved, sc, hsave, hfin⟩ := logAndApply_current h hok
  obtain ⟨saved', sc', hsave', hfin'⟩ := logAndApply_current h' hok'
  have hsame := (Builder.new.apply edit).saveTo_fst vc.current threshold Version.new vc.stateChange
    vc'.stateChange
  rw [hsave, hcurrent, hedit, hsave'] at hsame
  obtain rfl : saved = saved' := Option.some.inj hsame
  rw [finalize_stateChange env sc sc'] at hfin
  exact Option.some.inj (hfin.symm.trans hfin')

/-- What a failed `LogAndApply` should leave: the files, the candidates and their metadata, the
log numbers, and a later success of the same edit that is the success it would have been before.
The edit keeps the fields that the failed call has filled in. -/
structure Intact (comparatorName : Slice) (threshold : ℤ) (edit : VersionEdit) (env : Env D)
    (vc vc' : VersionControl) : Prop where
  files : vc'.current.files = vc.current.files
  mergeCandidates : vc'.current.mergeCandidates = vc.current.mergeCandidates
  logNumber : vc'.logNumber = vc.logNumber
  prevLogNumber : vc'.prevLogNumber = vc.prevLogNumber
  later : ∀ io io' s s' w w',
    logAndApply env comparatorName threshold io vc' (vc.completeEdit edit) = some (s, w) → s.isOk →
    logAndApply env comparatorName threshold io' vc edit = some (s', w') → s'.isOk →
      w.current = w'.current

/-- **When a failed `LogAndApply` leaves the current version intact.** For every version, every
edit and every way to fail: exactly when each of the files is deleted by the edit, has no dead
keys in it, or has no key left after it. -/
theorem logAndApply_failed_iff (env env' : Env D) (comparatorName : Slice) (threshold : ℤ)
    (io : ManifestIo) (vc vc' : VersionControl) (edit : VersionEdit) (s : Status)
    (h : logAndApply env comparatorName threshold io vc edit = some (s, vc')) (hs : ¬ s.isOk) :
    Intact comparatorName threshold edit env' vc vc' ↔
      ∀ f ∈ vc.current.files.entries,
        (f.number ∈ edit.deletedFiles ∧ ∀ g ∈ edit.newFiles, g.number ≠ f.number) ∨
          edit.dead f.number = 0 ∨ f.alive ≤ edit.dead f.number := by
  obtain ⟨_, _, _, -, -, -, -, hcase⟩ := logAndApply_cases h
  rw [if_neg hs] at hcase
  obtain ⟨hcurrent, hlog, hprev⟩ := hcase
  have hcharge : (∀ f ∈ vc.current.files.entries,
      (f.number ∈ edit.deletedFiles ∧ ∀ g ∈ edit.newFiles, g.number ≠ f.number) ∨
        edit.dead f.number = 0 ∨ f.alive ≤ edit.dead f.number) ↔
      vc'.current.files = vc.current.files := by
    rw [hcurrent, Builder.chargeBase_files_eq_iff]
    refine forall₂_congr fun f _ => ?_
    rw [Builder.charge_eq_self_iff, Builder.mem_deletedFiles_new_apply, Builder.dead_new_apply]
  rw [hcharge]
  refine ⟨Intact.files, fun hfiles => ?_⟩
  have hsame : vc'.current = vc.current := by
    rw [hcurrent] at hfiles ⊢
    unfold Builder.chargeBase at hfiles ⊢
    dsimp only at hfiles
    rw [hfiles]
  exact ⟨hfiles, congrArg Version.mergeCandidates hsame, hlog, hprev,
    fun io io' s s' w w' hw hok hw' hok' =>
      logAndApply_current_unique hsame (apply_completeEdit vc edit) hw hok hw' hok'⟩

/-- The file operations of a call whose sync fails. -/
def ManifestIo.syncFails : ManifestIo := { ManifestIo.allOk with sync := .ioError "sync" }

/-- A version with one file of six keys. -/
def oneFileControl : VersionControl := controlWith ⟨[rangeFile 2], by decide⟩ ∅

/-- An edit that records dead keys of file 2. -/
def deadKeysEdit (dead : ℕ) : VersionEdit :=
  { VersionEdit.new with deadKeyCounter := ⟨[(2, dead)], List.nodup_singleton 2⟩ }

theorem logAndApply_failed_iff_oneFile :
    ∃ vc', logAndApply (clockEnv 1) [] 10 ManifestIo.syncFails oneFileControl (deadKeysEdit 3) =
        some (.ioError "sync", vc') ∧
      (Intact [] 10 (deadKeysEdit 3) (clockEnv 1) oneFileControl vc' ↔
        ∀ f ∈ oneFileControl.current.files.entries,
          (f.number ∈ (deadKeysEdit 3).deletedFiles ∧
            ∀ g ∈ (deadKeysEdit 3).newFiles, g.number ≠ f.number) ∨
            (deadKeysEdit 3).dead f.number = 0 ∨ f.alive ≤ (deadKeysEdit 3).dead f.number) := by
  obtain ⟨vc', hvc'⟩ : ∃ vc', logAndApply (clockEnv 1) [] 10 ManifestIo.syncFails oneFileControl
      (deadKeysEdit 3) = some (.ioError "sync", vc') := ⟨_, rfl⟩
  exact ⟨vc', hvc', logAndApply_failed_iff (clockEnv 1) (clockEnv 1) [] 10 ManifestIo.syncFails
    oneFileControl vc' (deadKeysEdit 3) (.ioError "sync") hvc' (by decide)⟩

/-- **A failed call charges a file**, and the call that succeeds later charges it again: three
of six keys are dead, and the file is dropped as if all of them were. -/
theorem failed_edit_charges_file :
    ∃ vc₁ vc₂ w,
      logAndApply (clockEnv 1) [] 10 ManifestIo.syncFails oneFileControl (deadKeysEdit 3) =
        some (.ioError "sync", vc₁) ∧
      (vc₁.current.files.find? 2).map FileMetaData.alive = some 3 ∧
      logAndApply (clockEnv 1) [] 10 ManifestIo.allOk vc₁
        (oneFileControl.completeEdit (deadKeysEdit 3)) = some (.ok, vc₂) ∧
      ¬ vc₂.current.IsAlive 2 ∧
      logAndApply (clockEnv 1) [] 10 ManifestIo.allOk oneFileControl (deadKeysEdit 3) =
        some (.ok, w) ∧
      (w.current.files.find? 2).map FileMetaData.alive = some 3 := by
  refine ⟨_, _, _, rfl, ?_, rfl, ?_, rfl, ?_⟩ <;> decide +kernel

end VersionControl

end McfKv
