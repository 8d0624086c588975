import McfKv.Db.VersionControl
import McfKv.Lib.Run

/-!
# Unflushed writes and log files (`db/db_impl.cc`)

A write is appended to the current log and then inserted into `mem_`. `MakeRoomForWrite` may
turn `mem_` into `imm_`, and it then starts a new log unless `disable_recovery_log` is set; the
writes themselves are logged in either case. `CompactMemTable` writes `imm_` to a table and
hands `logfile_number_` to `LogAndApply` as the number of the first log that is still needed.
`DeleteObsoleteFiles` removes the logs before it.

The system has the leader of the write queue, which releases the mutex between the steps of
`Write`, and the background thread, which releases it while a table is built and while the
manifest is written. `LogAndApply` is the function of `McfKv.Db.VersionControl`, for any edit
that `WriteLevel0Table` may have filled in. The results of the file operations come from
outside.

`covered_of_run` says that in every state of every run each operation of `mem_` and `imm_` is
in a log file that `DeleteObsoleteFiles` keeps. The invariant is `Inv`: the current log covers
`mem_`, and while `imm_` is being written no other log can be started.
-/

namespace McfKv.LogCoverage

open Run

variable {α D : Type*}

/-- The options that the steps read. -/
structure Options where
  disableRecoveryLog : Bool
  comparatorName : Slice
  mergeThreshold : ℤ

/-- How far the leader of the write queue has come. -/
inductive Leader (α : Type*) where
  | none
  | makingRoom
  | logging
  | inserting (ops : List α)

/-- How far `CompactMemTable` has come. `installing` is the call of `LogAndApply`. -/
inductive Flush where
  | none
  | building
  | installing (edit : VersionEdit)

/-- The state of the database, as far as log files are concerned: `versions_`,
`logfile_number_`, the log files with the operations in them, the memtables and
`bg_error_`. -/
structure State (α : Type*) where
  versions : VersionControl
  logfileNumber : ℕ
  logs : ℕ → Option (List α)
  mem : List α
  imm : Option (List α)
  bgError : Status
  leader : Leader α
  flush : Flush

/-- `VersionControl::NewFileNumber`, for its effect. -/
def newFileNumber (vc : VersionControl) : VersionControl :=
  { vc with nextFileNumber := vc.nextFileNumber + 1 }

/-- `RecordBackgroundError`. -/
def State.recordBackgroundError (s : State α) (status : Status) : State α :=
  { s with bgError := if s.bgError.isOk then status else s.bgError }

/-- `DeleteObsoleteFiles`, for the log files. -/
def State.deleteObsoleteFiles (s : State α) : State α :=
  if s.bgError.isOk then
    { s with
      logs := fun n =>
        if s.versions.logNumber ≤ n ∨ n = s.versions.prevLogNumber then s.logs n else none }
  else s

/-- The last branch of the loop of `MakeRoomForWrite`: a new log, unless logs are not rotated,
and a new memtable. If the log cannot be created, `Write` returns. -/
def State.switchMemtable (o : Options) (s : State α) (created : Status) : State α :=
  let switched : State α := { s with imm := some s.mem, mem := [] }
  if o.disableRecoveryLog then switched
  else if created.isOk then
    { switched with
      versions := newFileNumber s.versions
      logfileNumber := s.versions.nextFileNumber
      logs := Function.update s.logs s.versions.nextFileNumber (some []) }
  -- `ReuseFileNumber` takes back the number that was just drawn
  else { s with leader := .none }

/-- The end of `CompactMemTable`, after `LogAndApply`. -/
def State.installed (s : State α) (status : Status) (vc : VersionControl) : State α :=
  let s := { s with versions := vc, flush := .none }
  if status.isOk then ({ s with imm := none } : State α).deleteObsoleteFiles
  else s.recordBackgroundError status

/-- The steps. -/
inductive Step (α D : Type*) where
  /-- a writer is at the front of the queue -/
  | lead
  | switchMemtable (created : Status)
  /-- `MakeRoomForWrite` has returned to a writer with a batch -/
  | roomMade
  /-- `MakeRoomForWrite` has failed, or the writer has no batch -/
  | leave
  | append (ops : List α) (status : Status)
  /-- `InsertInto` stops at the first operation it cannot decode -/
  | insert (count : ℕ)
  | flushStart
  | tableBuilt (edit : VersionEdit) (status : Status)
  | install (env : Env D) (io : ManifestIo)
  | deleteObsoleteFiles
  /-- a compaction draws a file number -/
  | newFileNumber

def step (o : Options) (s : State α) : Step α D → Option (State α)
  | .lead =>
    match s.leader with
    | .none => some { s with leader := .makingRoom }
    | _ => none
  | .switchMemtable created =>
    match s.leader with
    | .makingRoom =>
      if s.bgError.isOk ∧ s.imm.isNone then some (s.switchMemtable o created) else none
    | _ => none
  | .roomMade =>
    match s.leader with
    | .makingRoom => if s.bgError.isOk then some { s with leader := .logging } else none
    | _ => none
  | .leave =>
    match s.leader with
    | .makingRoom => some { s with leader := .none }
    | _ => none
  | .append ops status =>
    match s.leader with
    | .logging =>
      if status.isOk then
        some { s with
          leader := .inserting ops
          logs := Function.update s.logs s.logfileNumber
            ((s.logs s.logfileNumber).map (· ++ ops)) }
      else some { s with leader := .none }
    | _ => none
  | .insert count =>
    match s.leader with
    | .inserting ops => some { s with leader := .none, mem := s.mem ++ ops.take count }
    | _ => none
  | .flushStart =>
    match s.flush with
    | .none =>
      if s.bgError.isOk ∧ s.imm.isSome then
        some { s with flush := .building, versions := LogCoverage.newFileNumber s.versions }
      else none
    | _ => none
  | .tableBuilt edit status =>
    match s.flush with
    | .building =>
      if status.isOk then
        some { s with
          flush := .installing ((edit.setPrevLogNumber 0).setLogNumber s.logfileNumber) }
      else some (({ s with flush := .none } : State α).recordBackgroundError status)
    | _ => none
  | .install env io =>
    match s.flush with
    | .installing edit =>
      (VersionControl.logAndApply env o.comparatorName o.mergeThreshold io s.versions edit).map
        fun (status, vc) => s.installed status vc
    | _ => none
  | .deleteObsoleteFiles => some s.deleteObsoleteFiles
  | .newFileNumber => some { s with versions := LogCoverage.newFileNumber s.versions }

/-! ## Coverage -/

/-- **Every unflushed operation is in a log file that is kept.** -/
def Covered (s : State α) : Prop :=
  ∀ op ∈ s.mem ++ s.imm.getD [], ∃ n ops, s.versions.logNumber ≤ n ∧ s.logs n = some ops ∧
    op ∈ ops ∧ s.deleteObsoleteFiles.logs n = some ops

/-- A database that has just been opened. What `Recover` has left in `mem_` comes from the log
that is going to be used again. -/
structure Opened (s : State α) : Prop where
  leader : s.leader = .none
  flush : s.flush = .none
  imm : s.imm = none
  logNumber : s.versions.logNumber ≤ s.logfileNumber
  logs : ∀ n, (s.logs n).isSome → n < s.versions.nextFileNumber
  mem : ∃ ops, s.logs s.logfileNumber = some ops ∧ s.mem ⊆ ops

/-- The operations are in a log between the first one that is needed and the current one. -/
def InLogs (s : State α) (held : List α) : Prop :=
  ∃ n ops, s.versions.logNumber ≤ n ∧ s.logs n = some ops ∧ held ⊆ ops

/-- The invariant. `mem_` and what is about to be inserted are in the current log. -/
structure Inv (s : State α) : Prop where
  logNumber : s.versions.logNumber ≤ s.logfileNumber
  logs : ∀ n, (s.logs n).isSome → n < s.versions.nextFileNumber
  current : ∃ ops, s.logs s.logfileNumber = some ops ∧ s.mem ⊆ ops ∧
    ∀ batch, s.leader = .inserting batch → batch ⊆ ops
  imm : ∀ held, s.imm = some held → InLogs s held
  building : s.flush ≠ .none → s.imm.isSome
  installing : ∀ edit, s.flush = .installing edit → edit.logNumber = some s.logfileNumber

variable {o : Options} {s s' : State α}

theorem Opened.inv (h : Opened s) : Inv s where
  logNumber := h.logNumber
  logs := h.logs
  current := by
    obtain ⟨ops, hops, hmem⟩ := h.mem
    exact ⟨ops, hops, hmem, by simp [h.leader]⟩
  imm := by simp [h.imm]
  building := by simp [h.flush]
  installing := by simp [h.flush]

theorem deleteObsoleteFiles_logs {n : ℕ} (h : s.versions.logNumber ≤ n) :
    s.deleteObsoleteFiles.logs n = s.logs n := by
  unfold State.deleteObsoleteFiles
  split_ifs
  · simp [h]
  · rfl

section

variable (h : Inv s)

include h

theorem Inv.covered : Covered s := by
  have hkept : ∀ held, InLogs s held → ∀ op ∈ held, ∃ n ops, s.versions.logNumber ≤ n ∧
      s.logs n = some ops ∧ op ∈ ops ∧ s.deleteObsoleteFiles.logs n = some ops := by
    rintro held ⟨n, ops, hn, hops, hheld⟩ op hop
    exact ⟨n, ops, hn, hops, hheld hop, (deleteObsoleteFiles_logs hn).trans hops⟩
  intro op hop
  rcases List.mem_append.mp hop with hop | hop
  · obtain ⟨ops, hops, hmem, -⟩ := h.current
    exact hkept s.mem ⟨s.logfileNumber, ops, h.logNumber, hops, hmem⟩ op hop
  · cases himm : s.imm with
    | none => simp [himm] at hop
    | some held => exact hkept held (h.imm held himm) op (by simpa [himm] using hop)

/-! ## The steps -/

theorem Inv.deleteObsoleteFiles : Inv s.deleteObsoleteFiles := by
  have hsame : ∀ n, s.versions.logNumber ≤ n → s.deleteObsoleteFiles.logs n = s.logs n :=
    fun n hn => deleteObsoleteFiles_logs hn
  have hfields : s.deleteObsoleteFiles.versions = s.versions ∧
      s.deleteObsoleteFiles.logfileNumber = s.logfileNumber ∧ s.deleteObsoleteFiles.mem = s.mem ∧
      s.deleteObsoleteFiles.imm = s.imm ∧ s.deleteObsoleteFiles.leader = s.leader ∧
      s.deleteObsoleteFiles.flush = s.flush := by
    unfold State.deleteObsoleteFiles
    split_ifs <;> exact ⟨rfl, rfl, rfl, rfl, rfl, rfl⟩
  obtain ⟨hversions, hlogfile, hmem, himm, hleader, hflush⟩ := hfields
  refine ⟨?_, ?_, ?_, ?_, ?_, ?_⟩
  · rw [hversions, hlogfile]
    exact h.logNumber
  · intro n hn
    rw [hversions]
    refine h.logs n ?_
    unfold State.deleteObsoleteFiles at hn
    split_ifs at hn
    · dsimp only at hn
      split_ifs at hn
      · exact hn
      · simp at hn
    · exact hn
  · rw [hlogfile, hsame _ h.logNumber, hmem, hleader]
    exact h.current
  · intro held hheld
    obtain ⟨n, ops, hn, hops, hsub⟩ := h.imm held (himm ▸ hheld)
    exact ⟨n, ops, hversions ▸ hn, (hsame n hn).trans hops, hsub⟩
  · rw [hflush, himm]
    exact h.building
  · rw [hflush, hlogfile]
    exact h.installing

theorem Inv.newFileNumber : Inv { s with versions := LogCoverage.newFileNumber s.versions } where
  logNumber := h.logNumber
  logs := fun n hn => Nat.lt_succ_of_lt (h.logs n hn)
  current := h.current
  imm := h.imm
  building := h.building
  installing := h.installing

theorem Inv.recordBackgroundError (status : Status) : Inv (s.recordBackgroundError status) :=
  ⟨h.logNumber, h.logs, h.current, h.imm, h.building, h.installing⟩

theorem Inv.leader {leader : Leader α} (hleader : ∀ ops, leader ≠ .inserting ops) :
    Inv { s with leader := leader } where
  logNumber := h.logNumber
  logs := h.logs
  current := by
    obtain ⟨ops, hops, hmem, -⟩ := h.current
    exact ⟨ops, hops, hmem, fun batch hbatch => absurd hbatch (hleader batch)⟩
  imm := h.imm
  building := h.building
  installing := h.installing

/-- The memtable moves with its log: that log is not after the new one. -/
theorem Inv.switchMemtable (hleader : s.leader = .makingRoom) (himm : s.imm = none)
    (created : Status) : Inv (s.switchMemtable o created) := by
  obtain ⟨ops, hops, hmem, -⟩ := h.current
  have hidle : s.flush = .none := by
    by_contra hflush
    simpa [himm] using h.building hflush
  have hlt : s.logfileNumber < s.versions.nextFileNumber := h.logs _ (by simp [hops])
  unfold State.switchMemtable
  dsimp only
  split_ifs
  · exact
      { logNumber := h.logNumber
        logs := h.logs
        current := ⟨ops, hops, List.nil_subset _, by simp [hleader]⟩
        imm := by
          rintro held ⟨⟩
          exact ⟨s.logfileNumber, ops, h.logNumber, hops, hmem⟩
        building := fun _ => rfl
        installing := by simp [hidle] }
  · exact
      { logNumber := h.logNumber.trans hlt.le
        logs := by
          intro n hn
          show n < s.versions.nextFileNumber + 1
          by_cases heq : n = s.versions.nextFileNumber
          · omega
          · have := h.logs n (by simpa [heq] using hn)
            omega
        current := ⟨[], by simp, List.nil_subset _, by simp [hleader]⟩
        imm := by
          rintro held ⟨⟩
          exact ⟨s.logfileNumber, ops, h.logNumber,
            by simpa [Function.update_of_ne hlt.ne] using hops, hmem⟩
        building := fun _ => rfl
        installing := by simp [hidle] }
  · exact h.leader (by simp)

theorem Inv.append (ops : List α) : Inv { s with
      leader := .inserting ops
      logs := Function.update s.logs s.logfileNumber
        ((s.logs s.logfileNumber).map (· ++ ops)) } where
  logNumber := h.logNumber
  logs := by
    intro n hn
    refine h.logs n ?_
    by_cases heq : n = s.logfileNumber
    · simpa [heq] using hn
    · simpa [heq] using hn
  current := by
    obtain ⟨old, hold, hmem, -⟩ := h.current
    refine ⟨old ++ ops, by simp [hold], List.subset_append_of_subset_left _ hmem, ?_⟩
    rintro batch ⟨⟩
    exact List.subset_append_right _ _
  imm := by
    intro held hheld
    obtain ⟨n, old, hn, hold, hsub⟩ := h.imm held hheld
    by_cases heq : n = s.logfileNumber
    · subst heq
      exact ⟨_, old ++ ops, hn, by simp [hold], List.subset_append_of_subset_left _ hsub⟩
    · exact ⟨n, old, hn, by simpa [heq] using hold, hsub⟩
  building := h.building
  installing := h.installing

theorem Inv.insert {ops : List α} (hleader : s.leader = .inserting ops) (count : ℕ) :
    Inv { s with leader := .none, mem := s.mem ++ ops.take count } where
  logNumber := h.logNumber
  logs := h.logs
  current := by
    obtain ⟨old, hold, hmem, hbatch⟩ := h.current
    refine ⟨old, hold, List.append_subset.mpr ⟨hmem, ?_⟩, by simp⟩
    exact List.Subset.trans (List.take_subset _ _) (hbatch ops hleader)
  imm := h.imm
  building := h.building
  installing := h.installing

/-- The flush hands over the number of the current log, which covers `mem_`. -/
theorem Inv.installed {edit : VersionEdit} (hflush : s.flush = .installing edit) {status : Status}
    {vc : VersionControl} (hnext : vc.nextFileNumber = s.versions.nextFileNumber)
    (hlog : vc.logNumber = if status.isOk then (s.versions.completeEdit edit).logNumber.getD 0
      else s.versions.logNumber) : Inv (s.installed status vc) := by
  have hedit : (s.versions.completeEdit edit).logNumber = some s.logfileNumber := by
    have := h.installing edit hflush
    unfold VersionControl.completeEdit
    simp only [this, Option.isSome_some, if_true]
    split_ifs <;> exact this
  unfold State.installed
  dsimp only
  by_cases hok : status.isOk
  · rw [if_pos hok]
    rw [if_pos hok, hedit, Option.getD_some] at hlog
    apply Inv.deleteObsoleteFiles
    exact
      { logNumber := hlog.le
        logs := fun n hn => hnext ▸ h.logs n hn
        current := h.current
        imm := by simp
        building := by simp
        installing := by simp }
  · rw [if_neg hok]
    rw [if_neg hok] at hlog
    apply Inv.recordBackgroundError
    exact
      { logNumber := hlog ▸ h.logNumber
        logs := fun n hn => hnext ▸ h.logs n hn
        current := h.current
        imm := by
          intro held hheld
          obtain ⟨n, ops, hn, hops⟩ := h.imm held hheld
          exact ⟨n, ops, hlog ▸ hn, hops⟩
        building := by simp
        installing := by simp }

end

theorem Inv.step (a : Step α D) (h : Inv s) (hstep : LogCoverage.step o s a = some s') :
    Inv s' := by
  cases a with
  | lead =>
    simp only [LogCoverage.step] at hstep
    split at hstep
    · obtain rfl := Option.some.inj hstep
      exact h.leader (by simp)
    · cases hstep
  | switchMemtable created =>
    simp only [LogCoverage.step] at hstep
    split at hstep
    · rename_i hleader
      split_ifs at hstep with hok
      obtain rfl := Option.some.inj hstep
      exact h.switchMemtable hleader (by simpa using hok.2) created
    · cases hstep
  | roomMade =>
    simp only [LogCoverage.step] at hstep
    split at hstep
    · split_ifs at hstep
      obtain rfl := Option.some.inj hstep
      exact h.leader (by simp)
    · cases hstep
  | leave =>
    simp only [LogCoverage.step] at hstep
    split at hstep
    · obtain rfl := Option.some.inj hstep
      exact h.leader (by simp)
    · cases hstep
  | append ops status =>
    simp only [LogCoverage.step] at hstep
    split at hstep
    · split_ifs at hstep
      · obtain rfl := Option.some.inj hstep
        exact h.append ops
      · obtain rfl := Option.some.inj hstep
        exact h.leader (by simp)
    · cases hstep
  | insert count =>
    simp only [LogCoverage.step] at hstep
    split at hstep
    · rename_i hleader
      obtain rfl := Option.some.inj hstep
      exact h.insert hleader count
    · cases hstep
  | flushStart =>
    simp only [LogCoverage.step] at hstep
    split at hstep
    · split_ifs at hstep with hok
      obtain rfl := Option.some.inj hstep
      exact { h.newFileNumber with building := fun _ => hok.2, installing := by simp }
    · cases hstep
  | tableBuilt edit status =>
    simp only [LogCoverage.step] at hstep
    split at hstep
    · rename_i hflush
      split_ifs at hstep
      · obtain rfl := Option.some.inj hstep
        exact { h with
            building := fun _ => h.building (by simp [hflush])
            installing := by
              rintro edit ⟨⟩
              rfl }
      · obtain rfl := Option.some.inj hstep
        apply Inv.recordBackgroundError
        exact { h with building := by simp, installing := by simp }
    · cases hstep
  | install env io =>
    simp only [LogCoverage.step] at hstep
    split at hstep
    · rename_i hflush
      obtain ⟨⟨status, vc⟩, happly, rfl⟩ := Option.map_eq_some_iff.mp hstep
      obtain ⟨hnext, hlog⟩ := VersionControl.logAndApply_numbers happly
      exact h.installed hflush hnext hlog
    · cases hstep
  | deleteObsoleteFiles =>
    obtain rfl := Option.some.inj hstep
    exact h.deleteObsoleteFiles
  | newFileNumber =>
    obtain rfl := Option.some.inj hstep
    exact h.newFileNumber

/-! ## Runs -/

/-- **Every unflushed write stays covered**, with or without rotation of the log, whatever the
file operations return. -/
theorem covered_of_run (o : Options) {s s' : State α} (steps : List (Step α D)) (hopen : Opened s)
    (hrun : runFrom (step o) s steps = some s') : Covered s' :=
  (runFrom_invariant (fun _ a _ h _ hstep => Inv.step a h hstep) hopen.inv
    (meets_of_forall (fun _ _ => trivial) s steps) hrun).covered

/-- A new database with the log 2. -/
def openDb : State ℕ where
  versions := VersionControl.openControl
  logfileNumber := 2
  logs := Function.update (fun _ => none) 2 (some [])
  mem := []
  imm := none
  bgError := .ok
  leader := .none
  flush := .none

/-- A write, a switch of the memtable with a second write, and a flush during which the second
write is inserted. -/
def writeAndFlush : List (Step ℕ (Option ℚ)) :=
  [.lead, .roomMade, .append [10, 11] .ok, .insert 2, .lead, .switchMemtable .ok, .roomMade,
    .append [12] .ok, .flushStart,
    .tableBuilt (VersionEdit.new.addFile (VersionControl.rangeFile 4)) .ok, .insert 1,
    .install (VersionControl.clockEnv 1) VersionControl.ManifestIo.allOk]

theorem covered_writeAndFlush :
    Opened openDb ∧ (runFrom (step ⟨false, [], 70⟩) openDb writeAndFlush).map
      (fun s => (s.mem, s.imm, s.versions.logNumber, s.logs 2, s.logs 3)) =
        some ([12], none, 3, none, some [12]) ∧
      ∃ s, runFrom (step ⟨false, [], 70⟩) openDb writeAndFlush = some s ∧ Covered s := by
  have hopen : Opened openDb := by
    refine ⟨rfl, rfl, rfl, by decide, ?_, [], rfl, List.nil_subset _⟩
    intro n hn
    by_cases heq : n = 2
    · subst heq
      decide
    · simp [openDb, heq] at hn
  have hresult : (runFrom (step ⟨false, [], 70⟩) openDb writeAndFlush).map
      (fun s => (s.mem, s.imm, s.versions.logNumber, s.logs 2, s.logs 3)) =
        some ([12], none, 3, none, some [12]) := rfl
  obtain ⟨s, hrun, -⟩ := Option.map_eq_some_iff.mp hresult
  exact ⟨hopen, hresult, s, hrun, covered_of_run ⟨false, [], 70⟩ writeAndFlush hopen hrun⟩

end McfKv.LogCoverage
