import McfKv.Db.CheckCounts

/-!
# Choosing a compaction (`VersionControl::PickCompaction` in `db/version_control.cc`)

`Finalize` fills `files_to_compact_` from the merge candidates. `NeedsCompaction` decides whether a
background compaction is scheduled, and `PickCompaction` then takes the group, or with many
candidates a forced selection of them.

The group is kept in the version while `EvictAll` and later reads move files between the two maps.
`Version.GroupOk` says what survives: the files of the group are distinct and live. From it,
`pickCompaction_valid` gives what a compaction may rely on.

`NeedsCompaction` compares the size of the group with the cap at which `CalculateScore` stops, and
asks for more than the cap. `finalize_group` says that there is never more, so a full group does
not trigger a compaction by itself. What does is the number of candidates that are marked for
compaction when `Finalize` is called, as `fullGroup_triggers_iff` says.
-/

namespace McfKv

open Version

/-- The files of the group are distinct and live. -/
structure Version.GroupOk (v : Version) : Prop where
  nodup : (v.filesToCompact.map FileMetaData.number).Nodup
  alive : ∀ f ∈ v.filesToCompact, v.IsAlive f.number

theorem Version.Moved.groupOk {v v' : Version} (hm : Moved v v') (h : GroupOk v) : GroupOk v' where
  nodup := by
    rw [hm.filesToCompact]
    exact h.nodup
  alive f hf := by
    rw [hm.filesToCompact] at hf
    exact (hm.isAlive _).mpr (h.alive f hf)

theorem Version.groupOk_of_nil {v : Version} (h : v.filesToCompact = []) : GroupOk v :=
  ⟨by simp [h], by simp [h]⟩

namespace VersionControl

variable {D : Type*}

/-! ## The group that `CalculateScore` fills -/

section CalculateScore

variable (A : DoubleArith D)

theorem currentPickList_loop (main : FileMetaData) (l : List FileMetaData)
    (start : D × List (D × FileMetaData)) : ((l.foldl (fun current next =>
      match overlapScore A main next with
      | none => current
      | some score => (A.add current.1 score, current.2 ++ [(score, next)])) start).2.map
        Prod.snd).Sublist (start.2.map Prod.snd ++ l) := by
  induction l generalizing start with
  | nil => simp
  | cons next l ih =>
    rw [List.foldl_cons]
    cases overlapScore A main next with
    | none => exact (ih start).trans ((List.sublist_cons_self next l).append_left _)
    | some score => simpa using ih (A.add start.1 score, start.2 ++ [(score, next)])

theorem currentPickList_sublist (candidates : List FileMetaData) (main : FileMetaData) :
    ((currentPickList A candidates main).2.map Prod.snd).Sublist candidates :=
  currentPickList_loop A main candidates (A.ofNat 0, [])

theorem bestPickList_sublist (candidates : List FileMetaData) :
    ((bestPickList A candidates).map Prod.snd).Sublist candidates := by
  have hloop : ∀ (l : List FileMetaData) (best : D × List (D × FileMetaData)),
      (best.2.map Prod.snd).Sublist candidates →
      ((l.foldl (fun best main =>
        let current := currentPickList A candidates main
        if A.lt best.1 current.1 then current else best) best).2.map Prod.snd).Sublist
          candidates := by
    intro l
    induction l with
    | nil => exact fun _ h => h
    | cons main l ih =>
      intro best hbest
      rw [List.foldl_cons]
      refine ih _ ?_
      dsimp only
      split_ifs
      · exact currentPickList_sublist A candidates main
      · exact hbest
  exact hloop candidates (A.ofNat 0, []) (List.nil_sublist _)

theorem fillGroup_spec (threshold : D) (l : List (D × FileMetaData)) :
    ∀ group : List FileMetaData, ∃ p, p <+: l.map Prod.snd ∧
      fillGroup A threshold l group = group ++ p ∧
      (group.length < Config.compactCandidateStopWriteTrigger →
        (group ++ p).length ≤ Config.compactCandidateStopWriteTrigger) := by
  induction l with
  | nil => exact fun group => ⟨[], List.prefix_refl _, by simp [fillGroup], by simpa using le_of_lt⟩
  | cons head l ih =>
    obtain ⟨score, f⟩ := head
    intro group
    unfold fillGroup
    dsimp only
    split_ifs with hstop
    · refine ⟨[f], ?_, rfl, fun hlt => ?_⟩
      · exact (List.prefix_append [f] (l.map Prod.snd) :)
      · rw [List.length_append]
        exact hlt
    · obtain ⟨p, hp, heq, hlen⟩ := ih (group ++ [f])
      refine ⟨f :: p, List.cons_prefix_cons.mpr ⟨rfl, hp⟩, by simpa using heq, fun hlt => ?_⟩
      have hmore := hlen (not_le.mp (not_or.mp hstop).2)
      simpa using hmore

end CalculateScore

variable {v v' : Version} {env : Env D} {stateChange : Bool}

/-- **The group after `CalculateScore`**, when it was empty before. -/
theorem calculateScore_group (env : Env D) (stateChange : Bool) (round : ℕ)
    (h : v.filesToCompact = []) : GroupOk (calculateScore env stateChange round v) ∧
      (calculateScore env stateChange round v).filesToCompact.length ≤
        Config.compactCandidateStopWriteTrigger := by
  set candidates := env.order round v.mergeCandidates with hcandidates
  set best := bestPickList env.arith candidates with hbest
  obtain ⟨p, hp, heq, hlen⟩ := fillGroup_spec env.arith
    (env.arith.ofNat (if stateChange then Config.overlapRatioThreshold else 0)) (env.sort best) []
  have hgroup : (calculateScore env stateChange round v).filesToCompact = p := by
    unfold calculateScore
    dsimp only
    rw [h, ← hcandidates, ← hbest, heq, List.nil_append]
  have hperm : ((env.sort best).map Prod.snd).Perm (best.map Prod.snd) :=
    (env.sort_perm best).map Prod.snd
  have hsub : (best.map Prod.snd).Sublist candidates := bestPickList_sublist env.arith candidates
  refine ⟨⟨?_, fun f hf => ?_⟩, ?_⟩
  · rw [hgroup]
    have hnodup : ((best.map Prod.snd).map FileMetaData.number).Nodup :=
      (order_nodup env round v.mergeCandidates).sublist (hsub.map _)
    exact (((hperm.map _).nodup_iff.mpr hnodup).sublist (hp.sublist.map _) :)
  · rw [hgroup] at hf
    have hmem : f ∈ candidates := hsub.subset (hperm.subset (hp.subset hf))
    exact Or.inr ((mem_order env round).mpr ⟨f, hmem, rfl⟩)
  · rw [hgroup]
    exact hlen (by decide)

/-! ## The group that `Finalize` leaves -/

theorem evictAllLoop_subset (l : List FileMetaData) :
    ∀ {files tmp files' tmp' : FileMap}, evictAllLoop v l files tmp = some (files', tmp') →
      (∀ n ∈ files, n ∈ files') ∧ (∀ n ∈ tmp, n ∈ tmp') ∧
        ∀ f ∈ l, f.number ∈ files' ∨ f.number ∈ tmp' := by
  induction l with
  | nil =>
    intro files tmp files' tmp' h
    obtain ⟨rfl, rfl⟩ := Prod.mk.inj (Option.some.inj h)
    exact ⟨fun _ => id, fun _ => id, by simp⟩
  | cons f rest ih =>
    intro files tmp files' tmp' h
    unfold evictAllLoop at h
    split_ifs at h with hcnt
    · obtain ⟨hfiles, htmp, hrest⟩ := ih h
      refine ⟨hfiles, fun n hn => htmp n (KeyedMap.mem_insert.mpr (Or.inl hn)),
        List.forall_mem_cons.mpr ⟨Or.inr (htmp _ ?_), hrest⟩⟩
      exact KeyedMap.mem_insert.mpr (Or.inr rfl)
    · obtain ⟨hfiles, htmp, hrest⟩ := ih h
      refine ⟨fun n hn => hfiles n (KeyedMap.mem_insert.mpr (Or.inl hn)), htmp,
        List.forall_mem_cons.mpr ⟨Or.inl (hfiles _ ?_), hrest⟩⟩
      exact KeyedMap.mem_insert.mpr (Or.inr rfl)

theorem evictAll_group (h : evictAll env v = some v') (hv : GroupOk v) :
    GroupOk v' ∧ v'.filesToCompact = v.filesToCompact := by
  obtain ⟨⟨files', tmp'⟩, hloop, rfl⟩ := Option.map_eq_some_iff.mp h
  obtain ⟨hfiles, -, hcands⟩ := evictAllLoop_subset _ hloop
  refine ⟨⟨hv.nodup, fun f hf => ?_⟩, rfl⟩
  rcases hv.alive f hf with hfile | hcand
  · exact Or.inl (hfiles _ hfile)
  · obtain ⟨g, hg, heq⟩ := (mem_order env Config.maxMergeCandidateCheckRound).mp hcand
    exact heq ▸ hcands g hg

theorem finalizeLoop_group (left : ℕ) :
    ∀ {v v' : Version}, v.filesToCompact = [] → finalizeLoop env stateChange left v = some v' →
      GroupOk v' ∧ v'.filesToCompact.length ≤ Config.compactCandidateStopWriteTrigger := by
  induction left with
  | zero =>
    intro v v' hv h
    obtain rfl := Option.some.inj h
    exact ⟨groupOk_of_nil hv, by simp [hv]⟩
  | succ left ih =>
    intro v v' hv h
    unfold finalizeLoop at h
    obtain ⟨v1, hpick, h⟩ := Option.bind_eq_some_iff.mp h
    have hv1 : v1.filesToCompact = [] := (pickCandidates_spec hpick).2.2.trans hv
    simp only at h
    split_ifs at h with hgroup
    · obtain rfl := Option.some.inj h
      exact calculateScore_group env stateChange _ hv1
    · obtain ⟨v2, hevict, h⟩ := Option.bind_eq_some_iff.mp h
      obtain ⟨tmp, -, rfl⟩ := Option.map_eq_some_iff.mp hevict
      exact ih rfl h

/-- **The group that `Finalize` leaves** when it starts without one: distinct live files, and never
more than the cap. -/
theorem finalize_group (hv : v.filesToCompact = []) (h : finalize env stateChange v = some v') :
    GroupOk v' ∧ v'.filesToCompact.length ≤ Config.compactCandidateStopWriteTrigger := by
  obtain ⟨w, hloop, hall⟩ := Option.bind_eq_some_iff.mp h
  obtain ⟨hgroup, hlen⟩ := finalizeLoop_group _ hv hloop
  obtain ⟨hgroup', heq⟩ := evictAll_group hall hgroup
  exact ⟨hgroup', heq ▸ hlen⟩

end VersionControl

theorem Builder.saveTo_filesToCompact {b : Builder} {base v w : Version} {threshold : ℤ}
    {stateChange stateChange' : Bool}
    (h : b.saveTo base v threshold stateChange = some (w, stateChange')) :
    w.filesToCompact = v.filesToCompact := by
  have hfile : ∀ (l : List FileMetaData) {st st' : Version × Bool},
      l.foldlM (b.saveFile base threshold) st = some st' →
        st'.1.filesToCompact = st.1.filesToCompact := by
    intro l
    induction l with
    | nil =>
      intro st st' h
      obtain rfl : st = st' := by simpa using h
      rfl
    | cons f l ih =>
      intro st st' h
      rw [List.foldlM_cons] at h
      obtain ⟨mid, hmid, hrest⟩ := Option.bind_eq_some_iff.mp h
      refine (ih hrest).trans ?_
      rcases saveFile_cases hmid with ⟨-, rfl⟩ | ⟨f', -, ⟨-, rfl⟩ | ⟨-, rfl⟩⟩
      · rfl
      · rfl
      · rfl
  have hcandidate : ∀ (l : List FileMetaData) (v : Version),
      (l.foldl b.saveCandidate v).filesToCompact = v.filesToCompact := by
    intro l
    induction l with
    | nil => exact fun _ => rfl
    | cons f l ih =>
      intro v
      rw [List.foldl_cons, ih]
      unfold saveCandidate
      split_ifs <;> rfl
  have hadded : ∀ (l : List FileMetaData) (v : Version),
      (l.foldl saveAdded v).filesToCompact = v.filesToCompact := by
    intro l
    induction l with
    | nil => exact fun _ => rfl
    | cons f l ih => exact fun v => ih _
  obtain ⟨st, hst, heq⟩ := Option.map_eq_some_iff.mp h
  obtain ⟨rfl, -⟩ := Prod.mk.inj heq
  rw [hadded, hcandidate, hfile _ hst]

namespace VersionControl

variable {D : Type*}

/-! ## `NeedsCompaction` and `PickCompaction` -/

/-- `VersionControl::NeedsCompaction`. -/
def needsCompaction (vc : VersionControl) : Bool :=
  vc.current.filesToCompact.length > Config.compactCandidateStopWriteTrigger ||
    (vc.current.mergeCandidates.size > Config.stopWritesTrigger && vc.stateChange)

/-- The loop of `VersionControl::ForcedPick`. -/
def forcedPick (limit : ℕ) : List FileMetaData → List FileMetaData → List FileMetaData
  | [], inputs => inputs
  | f :: rest, inputs =>
    if inputs.length ≤ limit then forcedPick limit rest (inputs ++ [f]) else inputs

/-- The inputs that `PickCompaction` collects: the group if it has two files, and else a forced
selection when there are many candidates. The `int` option `forced_compaction_size` is compared
with a `size_t`. -/
def pickInputs (env : Env D) (forcedCompactionSize : ℤ) (v : Version) : List FileMetaData :=
  if v.filesToCompact.length > 1 then v.filesToCompact
  else if v.mergeCandidates.size ≥ Config.stopWritesTrigger then
    forcedPick (forcedCompactionSize % 2 ^ 64).toNat
      (env.order Config.maxMergeCandidateCheckRound v.mergeCandidates) []
  else []

/-- `VersionControl::PickCompaction`: the inputs of the compaction, if there is one. -/
def pickCompaction (env : Env D) (forcedCompactionSize : ℤ) (vc : VersionControl) :
    Option (List FileMetaData) × VersionControl :=
  if vc.current.mergeCandidates.size ≤ 1 then (none, vc)
  else
    let inputs := pickInputs env forcedCompactionSize vc.current
    if inputs.length ≤ 1 then (none, { vc with stateChange := false })
    else (some inputs, { vc with stateChange := true })

theorem forcedPick_prefix (limit : ℕ) (l : List FileMetaData) :
    ∀ inputs, ∃ p, p <+: l ∧ forcedPick limit l inputs = inputs ++ p := by
  induction l with
  | nil => exact fun inputs => ⟨[], List.prefix_refl _, by simp [forcedPick]⟩
  | cons f rest ih =>
    intro inputs
    unfold forcedPick
    split_ifs with hroom
    · obtain ⟨p, hp, heq⟩ := ih (inputs ++ [f])
      exact ⟨f :: p, List.cons_prefix_cons.mpr ⟨rfl, hp⟩, by simpa using heq⟩
    · exact ⟨[], List.nil_prefix, by simp⟩

theorem forcedPick_ok (env : Env D) (round limit : ℕ) (v : Version) :
    ((forcedPick limit (env.order round v.mergeCandidates) []).map FileMetaData.number).Nodup ∧
      ∀ f ∈ forcedPick limit (env.order round v.mergeCandidates) [], v.IsAlive f.number := by
  obtain ⟨p, hp, heq⟩ := forcedPick_prefix limit (env.order round v.mergeCandidates) []
  rw [heq, List.nil_append]
  refine ⟨(order_nodup env round _).sublist (hp.sublist.map _), fun f hf => Or.inr ?_⟩
  exact (mem_order env round).mpr ⟨f, hp.subset hf, rfl⟩

theorem pickInputs_ok (env : Env D) (size : ℤ) {v : Version} (hv : GroupOk v) :
    ((pickInputs env size v).map FileMetaData.number).Nodup ∧
      ∀ f ∈ pickInputs env size v, v.IsAlive f.number := by
  unfold pickInputs
  split_ifs
  · exact ⟨hv.nodup, hv.alive⟩
  · exact forcedPick_ok env _ _ v
  · exact ⟨List.nodup_nil, by simp⟩

/-- What a call of `PickCompaction` does: the version stays, and if there are inputs they are the
ones collected, at least two. -/
theorem pickCompaction_spec (env : Env D) (size : ℤ) (vc : VersionControl) :
    (vc.pickCompaction env size).2.current = vc.current ∧
      ∀ inputs, (vc.pickCompaction env size).1 = some inputs →
        inputs = pickInputs env size vc.current ∧ 2 ≤ inputs.length := by
  unfold pickCompaction
  dsimp only
  split_ifs with hfew hone
  · exact ⟨rfl, by simp⟩
  · exact ⟨rfl, by simp⟩
  · refine ⟨rfl, fun inputs h => ?_⟩
    obtain rfl := Option.some.inj h
    exact ⟨rfl, by omega⟩

/-- **The states in which a compaction can be picked**: what a successful `LogAndApply` or `Recover`
leaves, changed by reads, by calls that fail and by earlier calls of `PickCompaction`. -/
inductive Produced (D : Type*) : VersionControl → Prop
  | logAndApply {env : Env D} {name : Slice} {threshold : ℤ} {io : ManifestIo}
      {vc vc' : VersionControl} {edit : VersionEdit} {s : Status}
      (h : vc.logAndApply env name threshold io edit = some (s, vc')) (hok : s.isOk) :
      Produced D vc'
  | recover {env : Env D} {name : Slice} {threshold : ℤ} {vc vc' : VersionControl}
      {records : List Slice} {s : Status}
      (h : vc.recover env name threshold records = some (s, vc')) (hok : s.isOk) : Produced D vc'
  | registerFileAccess {vc : VersionControl} (number : ℕ) (hvc : Produced D vc) :
      Produced D (vc.registerFileAccess number).2
  | failed {env : Env D} {name : Slice} {threshold : ℤ} {io : ManifestIo}
      {vc vc' : VersionControl} {edit : VersionEdit} {s : Status} (hvc : Produced D vc)
      (h : vc.logAndApply env name threshold io edit = some (s, vc')) (hbad : ¬ s.isOk) :
      Produced D vc'
  | pickCompaction {vc : VersionControl} (env : Env D) (size : ℤ) (hvc : Produced D vc) :
      Produced D (vc.pickCompaction env size).2

theorem Produced.groupOk {vc : VersionControl} (h : Produced D vc) : GroupOk vc.current := by
  induction h with
  | logAndApply h hok =>
    obtain ⟨saved, stateChange, hsave, hfin⟩ := logAndApply_current h hok
    exact (finalize_group (Builder.saveTo_filesToCompact hsave) hfin).1
  | recover h hok =>
    have hcase := recover_cases h
    rw [if_pos hok] at hcase
    obtain ⟨saved, hsave, hfin⟩ := hcase
    exact (finalize_group (Builder.saveTo_filesToCompact hsave) hfin).1
  | registerFileAccess number _ ih => exact (registerFileAccess_moved _ number).groupOk ih
  | failed _ h hbad ih =>
    obtain ⟨_, _, _, -, -, -, -, hcase⟩ := logAndApply_cases h
    rw [if_neg hbad] at hcase
    exact hcase.1 ▸ (Builder.chargeBase_moved _ _).groupOk ih
  | pickCompaction env size _ ih => exact (pickCompaction_spec env size _).1.symm ▸ ih

/-- **`PickCompaction` returns a valid group**: at least two inputs, all distinct and all live. -/
theorem pickCompaction_valid {vc : VersionControl} (hvc : Produced D vc) (env : Env D)
    (forcedCompactionSize : ℤ) {inputs : List FileMetaData}
    (h : (vc.pickCompaction env forcedCompactionSize).1 = some inputs) :
    2 ≤ inputs.length ∧ (inputs.map FileMetaData.number).Nodup ∧
      ∀ f ∈ inputs, vc.current.IsAlive f.number := by
  obtain ⟨rfl, htwo⟩ := (pickCompaction_spec env forcedCompactionSize vc).2 inputs h
  exact ⟨htwo, pickInputs_ok env forcedCompactionSize hvc.groupOk⟩

/-- A file of a family of files with the same key range. -/
def overlapFile (n : ℕ) : FileMetaData :=
  { rangeFile n with smallest := digitKey 100, largest := digitKey 200 }

/-- An edit that adds four files that overlap. -/
def overlapEdit : VersionEdit :=
  [2, 3, 4, 5].foldl (fun edit n => edit.addFile (overlapFile n)) VersionEdit.new

/-- An edit in which most keys of these files die. -/
def overlapDeadEdit : VersionEdit :=
  { VersionEdit.new with deadKeyCounter := ⟨[(2, 5), (3, 5), (4, 5), (5, 5)], by decide⟩ }

/-- The two edits, from the start. -/
def overlapCalls : List (Op (Option ℚ)) :=
  [.logAndApply (clockEnv 1) ManifestIo.allOk overlapEdit,
    .logAndApply (clockEnv 1) ManifestIo.allOk overlapDeadEdit]

theorem overlapCalls_fill_group : ∃ vc saved, Run.runFrom (step [] 70) new overlapCalls = some vc ∧
    finalize (clockEnv 1) vc.stateChange saved = some vc.current ∧
    vc.current.filesToCompact.map FileMetaData.number = [2, 3, 4, 5] ∧
    vc.needsCompaction = false ∧ Produced (Option ℚ) vc := by
  -- the run is evaluated once, down to what is said about its end
  have hend : ((new.logAndApply (clockEnv 1) [] 70 ManifestIo.allOk overlapEdit).bind fun r =>
      (r.2.logAndApply (clockEnv 1) [] 70 ManifestIo.allOk overlapDeadEdit).map fun r' =>
        (r'.1, r'.2.current.filesToCompact.map FileMetaData.number, r'.2.needsCompaction)) =
      some (.ok, [2, 3, 4, 5], false) := by decide +kernel
  obtain ⟨⟨s₁, vc₁⟩, hfirst, hend⟩ := Option.bind_eq_some_iff.mp hend
  obtain ⟨⟨s₂, vc₂⟩, hsecond, hend⟩ := Option.map_eq_some_iff.mp hend
  simp only [Prod.mk.injEq] at hend
  obtain ⟨rfl, hgroup, hneeds⟩ := hend
  have hprod : Produced (Option ℚ) vc₂ := .logAndApply hsecond rfl
  obtain ⟨saved, stateChange, v, hsave, hfin, -, hstate, hcase⟩ := logAndApply_cases hsecond
  refine ⟨vc₂, saved, ?_, ?_, hgroup, hneeds, hprod⟩
  · simp [overlapCalls, step, hfirst, hsecond]
  · rw [hstate, (hcase :).1]
    exact hfin

theorem pickCompaction_valid_overlap :
    ∃ vc inputs, Run.runFrom (step [] 70) new overlapCalls = some vc ∧
      (vc.pickCompaction (clockEnv 1) 4).1 = some inputs ∧
      2 ≤ inputs.length ∧ (inputs.map FileMetaData.number).Nodup ∧
      ∀ f ∈ inputs, vc.current.IsAlive f.number := by
  obtain ⟨vc, saved, hrun, -, -, -, hprod⟩ := overlapCalls_fill_group
  have hpick : ((Run.runFrom (step [] 70) new overlapCalls).map fun vc =>
      (vc.pickCompaction (clockEnv 1) 4).1.isSome) = some true := by decide +kernel
  rw [hrun, Option.map_some, Option.some.injEq, Option.isSome_iff_exists] at hpick
  obtain ⟨inputs, hinputs⟩ := hpick
  exact ⟨vc, inputs, hrun, hinputs, pickCompaction_valid hprod (clockEnv 1) 4 hinputs⟩

/-! ## When a group triggers a compaction -/

/-- What `DBImpl::MaybeScheduleCompaction` reads besides the versions. -/
structure Background where
  bgCompactionScheduled : Bool
  shuttingDown : Bool
  bgError : Status
  hasImm : Bool

/-- `DBImpl::MaybeScheduleCompaction`: whether background work is scheduled afterwards. -/
def maybeScheduleCompaction (bg : Background) (vc : VersionControl) : Bool :=
  if bg.bgCompactionScheduled then true
  else if bg.shuttingDown then false
  else if !bg.bgError.isOk then false
  else if !bg.hasImm && !vc.needsCompaction then false
  else true

/-- No background work is scheduled or ruled out, and there is no memtable to write. -/
structure Background.Idle (bg : Background) : Prop where
  scheduled : bg.bgCompactionScheduled = false
  shuttingDown : bg.shuttingDown = false
  bgError : bg.bgError.isOk
  imm : bg.hasImm = false

theorem Background.Idle.maybeScheduleCompaction {bg : Background} (h : bg.Idle)
    (vc : VersionControl) : VersionControl.maybeScheduleCompaction bg vc = vc.needsCompaction := by
  unfold VersionControl.maybeScheduleCompaction
  rw [h.scheduled, h.shuttingDown, h.bgError, h.imm]
  cases vc.needsCompaction <;> rfl

/-- `Finalize` leaves as many candidates as there were marked ones. -/
theorem finalize_size (env : Env D) {stateChange : Bool} {v v' : Version} (hv : Counted v)
    (hfin : finalize env stateChange v = some v') :
    v'.mergeCandidates.size = v.markedCandidates.size := by
  obtain ⟨w, hw, -, hcand⟩ := finalize_counted env stateChange hv
  obtain rfl := Option.some.inj (hw.symm.trans hfin)
  have hmem : ∀ n, n ∈ w.mergeCandidates ↔ n ∈ v.markedCandidates := fun n =>
    (hcand n).trans (hv.mem_markedCandidates n).symm
  exact le_antisymm (KeyedMap.size_le_of_forall_mem fun n => (hmem n).mp)
    (KeyedMap.size_le_of_forall_mem fun n => (hmem n).mpr)

/-- **When a group triggers a compaction.** Let `Finalize` be called on a version whose bookkeeping
is right, as it is after every save, with an empty group. The group it fills is never larger than
the cap, so the comparison of `NeedsCompaction` with the group fails, and a group that is filled to
the cap triggers nothing. What decides is the version before the call: a compaction is needed
exactly when more candidates than the limit for writes are marked, and the state has changed. The
same decides whether idle background work is scheduled. -/
theorem fullGroup_triggers_iff (env : Env D) (vc : VersionControl) (v : Version) (hv : Counted v)
    (hempty : v.filesToCompact = []) (hfin : finalize env vc.stateChange v = some vc.current) :
    vc.current.filesToCompact.length ≤ Config.compactCandidateStopWriteTrigger ∧
    (vc.needsCompaction ↔
      v.markedCandidates.size > Config.stopWritesTrigger ∧ vc.stateChange) ∧
    ∀ bg : Background, bg.Idle → (maybeScheduleCompaction bg vc ↔
      v.markedCandidates.size > Config.stopWritesTrigger ∧ vc.stateChange) := by
  have hcap := (finalize_group hempty hfin).2
  have hneeds : vc.needsCompaction ↔
      v.markedCandidates.size > Config.stopWritesTrigger ∧ vc.stateChange := by
    unfold needsCompaction
    rw [decide_eq_false (not_lt.mpr hcap), Bool.false_or, finalize_size env hv hfin,
      Bool.and_eq_true, decide_eq_true_iff]
  exact ⟨hcap, hneeds, fun bg hbg => by rw [hbg.maybeScheduleCompaction, hneeds]⟩

/-- Background work that could be scheduled. -/
def idleBackground : Background := ⟨false, false, .ok, false⟩

theorem idleBackground_idle : idleBackground.Idle := ⟨rfl, rfl, rfl, rfl⟩

/-- A version with 31 candidates, all of them marked. -/
def manyMarked : Version :=
  { Version.new with
    mergeCandidates := ⟨(List.range 31).map overlapFile, by decide⟩
    fileCheckCount := fun n => if n < 31 then some (-1) else none }

theorem mem_manyMarked {n : ℕ} : n ∈ manyMarked.mergeCandidates ↔ n < 31 := by
  simp [manyMarked, KeyedMap.mem_def, overlapFile, rangeFile]

theorem manyMarked_counted : Counted manyMarked where
  disjoint n hn := absurd hn (KeyedMap.notMem_empty n)
  counts n hn := by
    have hlt : n < 31 := mem_manyMarked.mp (hn.resolve_left (KeyedMap.notMem_empty n))
    exact ⟨-1, if_pos hlt, by decide, by decide⟩
  permanent n hn := by
    change (if n < 31 then some (-1) else none) = some (-1) at hn
    split_ifs at hn with hlt
    exact mem_manyMarked.mpr hlt

theorem fullGroup_triggers_iff_manyMarked :
    ∃ vc : VersionControl, finalize (clockEnv 1) vc.stateChange manyMarked = some vc.current ∧
      vc.current.filesToCompact.length ≤ Config.compactCandidateStopWriteTrigger ∧
      vc.needsCompaction ∧ maybeScheduleCompaction idleBackground vc := by
  obtain ⟨v, hfin, -⟩ := finalize_counted (clockEnv 1) true manyMarked_counted
  let vc : VersionControl := { new with current := v, stateChange := true }
  obtain ⟨hcap, hneeds, hsched⟩ :=
    fullGroup_triggers_iff (clockEnv 1) vc manyMarked manyMarked_counted rfl hfin
  have hmarked : manyMarked.markedCandidates.size > Config.stopWritesTrigger := by decide +kernel
  exact ⟨vc, hfin, hcap, hneeds.mpr ⟨hmarked, rfl⟩,
    (hsched idleBackground idleBackground_idle).mpr ⟨hmarked, rfl⟩⟩

/-- **A full group that is not compacted.** From the start, one edit adds four files that overlap
and another marks most of their keys as dead. `Finalize` then fills the group with the four files,
and no compaction is scheduled. -/
theorem full_group_not_scheduled :
    ∃ vc saved, Run.runFrom (step [] 70) new overlapCalls = some vc ∧
      finalize (clockEnv 1) vc.stateChange saved = some vc.current ∧
      vc.current.filesToCompact.length = Config.compactCandidateStopWriteTrigger ∧
      vc.needsCompaction = false ∧ maybeScheduleCompaction idleBackground vc = false := by
  obtain ⟨vc, saved, hrun, hfin, hfull, hneeds, -⟩ := overlapCalls_fill_group
  refine ⟨vc, saved, hrun, hfin, (List.length_map _).symm.trans (congrArg List.length hfull),
    hneeds, ?_⟩
  rw [idleBackground_idle.maybeScheduleCompaction, hneeds]

end VersionControl

end McfKv
