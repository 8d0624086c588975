import McfKv.Db.PickCompaction

/-!
# Writers that wait for the background thread (`db/db_impl.cc`)

`MakeRoomForWrite` makes a writer wait on `bg_cv_` while the last memtable has not been written, and
while there are many merge candidates. `BackgroundCall` signals `bg_cv_` when it ends.

A step is what a thread does while it holds the mutex. The background thread releases it in
`CompactMemTable` and in `DoCompactionWork`; the status and the versions that these end with come
from outside.

`waiting_writer` says what a writer waits for. One case is a background thread that has nothing to
do: `MakeRoomForWrite` waits from `StopWritesTrigger` candidates on, and `NeedsCompaction` asks for
more, and for `state_change_`. Then the writer does not return (`waiting_forever`).
-/

namespace McfKv.MakeRoom

open VersionControl Relation

/-- The variables of `MakeRoomForWrite`, and whether `mem_` is over `write_buffer_size`. -/
structure Room where
  force : Bool
  allowDelay : Bool
  full : Bool

/-- The writer at the front of the queue: outside `MakeRoomForWrite`, in front of a round of its
loop, in `SleepForMicroseconds`, or in `bg_cv_.Wait`. -/
inductive Leader where
  | away
  | loop (r : Room)
  | asleep (r : Room)
  | waiting (r : Room)

/-- The background thread: without the mutex, it is in `CompactMemTable`, called from
`DoCompactionWork` or not, or in `DoCompactionWork`. -/
inductive Thread where
  | idle
  | flushing (merging : Bool)
  | merging

structure State where
  bg : Background
  versions : VersionControl
  leader : Leader
  thread : Thread

/-- `VersionControl::CompactionSize`. -/
def compactionSize (vc : VersionControl) : ℕ := vc.current.mergeCandidates.size

namespace State

/-- `bg_cv_.SignalAll()`. -/
def signalAll (s : State) : State :=
  { s with
    leader :=
      match s.leader with
      | .waiting r => .loop r
      | l => l }

/-- `MaybeScheduleCompaction`. -/
def schedule (s : State) : State :=
  { s with bg.bgCompactionScheduled := maybeScheduleCompaction s.bg s.versions }

/-- A round of the loop of `MakeRoomForWrite`. If no log is to be created, `created` is `ok`; a new
memtable is not full. The number of the log is in `LogCoverage`. -/
def round (s : State) (r : Room) (created : Status) : State :=
  if !s.bg.bgError.isOk then { s with leader := .away }
  else if r.allowDelay && Config.slowdownWritesTrigger ≤ compactionSize s.versions then
    { s with leader := .asleep { r with allowDelay := false } }
  else if !r.force && !r.full then { s with leader := .away }
  else if s.bg.hasImm then { s with leader := .waiting r }
  else if Config.stopWritesTrigger ≤ compactionSize s.versions then { s with leader := .waiting r }
  else if !created.isOk then { s with leader := .away }
  else
    schedule { s with bg.hasImm := true, leader := .loop { r with force := false, full := false } }

/-- The end of `BackgroundCall`. -/
def finishCall (s : State) : State :=
  signalAll (schedule { s with bg.bgCompactionScheduled := false, thread := .idle })

/-- `BackgroundCall`, up to where it releases the mutex. -/
def backgroundCall {D : Type} (s : State) (env : Env D) (forcedSize : ℤ) : State :=
  if s.bg.shuttingDown || !s.bg.bgError.isOk then s.finishCall
  else if s.bg.hasImm then { s with thread := .flushing false }
  else
    match pickCompaction env forcedSize s.versions with
    | (none, vc) => finishCall { s with versions := vc }
    | (some _, vc) => { s with versions := vc, thread := .merging }

/-- The end of `CompactMemTable` and of `DoCompactionWork`, with `RecordBackgroundError`. -/
def finishWork (s : State) (status : Status) (vc : VersionControl) (hasImm : Bool) : State :=
  if status.isOk then { s with versions := vc, bg.hasImm := hasImm }
  else if s.bg.bgError.isOk then signalAll { s with versions := vc, bg.bgError := status }
  else { s with versions := vc }

/-- `RegisterFileAccess` at the end of `Get`. -/
def read (s : State) (fileNumber : ℕ) : State :=
  match s.versions.registerFileAccess fileNumber with
  | (none, vc) => { s with versions := vc }
  | (some _, vc) => schedule { s with versions := vc }

end State

/-- The steps. -/
inductive Step : State → State → Prop
  | write {s} (force full : Bool) (h : s.leader = .away) :
    Step s { s with leader := .loop ⟨force, !force, full⟩ }
  | round {s r} (created : Status) (h : s.leader = .loop r) : Step s (s.round r created)
  /-- `SleepForMicroseconds` returns, or `Wait` without a signal -/
  | wakeUp {s r} (h : s.leader = .asleep r ∨ s.leader = .waiting r) :
    Step s { s with leader := .loop r }
  | call {s} {D : Type} (env : Env D) (forcedSize : ℤ) (h : s.thread = .idle)
    (hsched : s.bg.bgCompactionScheduled) : Step s (s.backgroundCall env forcedSize)
  /-- `LogAndApply` releases the mutex -/
  | apply {s} (stateChange : Bool) (h : s.thread ≠ .idle) :
    Step s { s with versions.stateChange := stateChange }
  /-- `DoCompactionWork` sees `has_imm_` -/
  | flush {s} (h : s.thread = .merging) (himm : s.bg.hasImm) :
    Step s { s with thread := .flushing true }
  | flushedInside {s} (status : Status) (vc : VersionControl) (h : s.thread = .flushing true) :
    Step s { (s.finishWork status vc false).signalAll with thread := .merging }
  | flushed {s} (status : Status) (vc : VersionControl) (h : s.thread = .flushing false) :
    Step s (s.finishWork status vc false).finishCall
  | merged {s} (status : Status) (vc : VersionControl) (h : s.thread = .merging) :
    Step s (s.finishWork status vc s.bg.hasImm).finishCall
  | read {s} (fileNumber : ℕ) : Step s (s.read fileNumber)
  | shutDown {s} : Step s { s with bg.shuttingDown := true }

/-- The state that `DB::Open` leaves. -/
def opened (vc : VersionControl) : State := State.schedule ⟨idleBackground, vc, .away, .idle⟩

/-! ## What a writer waits for -/

/-- A writer waits only if no error has been recorded, and for one of the two reasons. -/
def WaitsFor (s : State) : Prop :=
  ∀ r, s.leader = .waiting r → s.bg.bgError.isOk ∧ (r.force || r.full) ∧
    (s.bg.hasImm ∨ Config.stopWritesTrigger ≤ compactionSize s.versions)

/-- **The invariant.**  Work is scheduled if there is any, unless that is ruled out. -/
structure Inv (s : State) : Prop where
  settled : s.bg.bgError.isOk → s.bg.hasImm ∨ s.versions.needsCompaction →
    s.bg.bgCompactionScheduled ∨ s.bg.shuttingDown
  running : s.thread ≠ .idle → s.bg.bgCompactionScheduled
  waits : WaitsFor s

variable {s s' : State}

theorem signalAll_leader (s : State) (r : Room) : s.signalAll.leader ≠ .waiting r := by
  unfold State.signalAll
  dsimp only
  split <;> simp_all

theorem Inv.schedule (hrunning : s.thread ≠ .idle → s.bg.bgCompactionScheduled)
    (hwaits : WaitsFor s) : Inv s.schedule := by
  refine ⟨fun hok hwork => ?_, fun hthread => ?_, hwaits⟩
  · simp only [State.schedule, maybeScheduleCompaction] at hok hwork ⊢
    grind
  · simp [State.schedule, maybeScheduleCompaction, hrunning hthread]

/-- At the end of `BackgroundCall` nobody waits. -/
theorem inv_finishCall (s : State) : Inv s.finishCall := by
  have h : Inv (State.schedule { s with
      bg.bgCompactionScheduled := false, thread := .idle, leader := .away }) :=
    .schedule (by simp) (by simp [WaitsFor])
  exact ⟨h.settled, h.running, fun r hr => absurd hr (signalAll_leader _ r)⟩

theorem Inv.of_scheduled (hsched : s.bg.bgCompactionScheduled) (hwaits : WaitsFor s) : Inv s :=
  ⟨fun _ _ => .inl hsched, fun _ => hsched, hwaits⟩

theorem Inv.round (h : Inv s) (r : Room) (created : Status) : Inv (s.round r created) := by
  have haway : ∀ l, (∀ r, l ≠ .waiting r) → Inv { s with leader := l } := fun l hl =>
    ⟨h.settled, h.running, fun r hr => absurd hr (hl r)⟩
  unfold State.round
  split_ifs with herror hslow hroom himm hstop hlog
  · exact haway _ (by simp)
  · exact haway _ (by simp)
  · exact haway _ (by simp)
  · refine ⟨h.settled, h.running, ?_⟩
    rintro _ ⟨⟩
    exact ⟨by simpa using herror, by grind, .inl himm⟩
  · refine ⟨h.settled, h.running, ?_⟩
    rintro _ ⟨⟩
    exact ⟨by simpa using herror, by grind, .inr hstop⟩
  · exact haway _ (by simp)
  · exact .schedule h.running (by simp [WaitsFor])

theorem Inv.backgroundCall {D : Type} (h : Inv s) (hsched : s.bg.bgCompactionScheduled) (env : Env D)
    (size : ℤ) : Inv (s.backgroundCall env size) := by
  unfold State.backgroundCall
  split_ifs with hended himm
  · exact inv_finishCall s
  · exact .of_scheduled hsched h.waits
  · have hsame := (pickCompaction_spec env size s.versions).1
    rcases hpick : pickCompaction env size s.versions with ⟨_ | inputs, vc⟩
    · exact inv_finishCall _
    · refine .of_scheduled hsched fun r hr => ?_
      rw [hpick] at hsame
      rw [compactionSize, show vc.current = s.versions.current from hsame]
      exact h.waits r hr

/-- A read may add a candidate. If it does not use up an allowance, it changes nothing that
`NeedsCompaction` reads. -/
theorem registerFileAccess_compaction (vc : VersionControl) (n : ℕ) :
    compactionSize vc ≤ compactionSize (vc.registerFileAccess n).2 ∧
      ((vc.registerFileAccess n).1 = none →
        (vc.registerFileAccess n).2.needsCompaction = vc.needsCompaction) := by
  refine ⟨KeyedMap.size_le_of_forall_mem (registerFileAccess_moved vc n).candidates, fun h => ?_⟩
  unfold registerFileAccess at h ⊢
  dsimp only at h ⊢
  split_ifs at h ⊢
  · rfl
  · cases hfind : vc.current.files.find? (asUInt16 n) with
    | none => rfl
    | some f =>
      rw [hfind] at h
      dsimp only at h ⊢
      split_ifs at h ⊢
      rfl

theorem Inv.read (h : Inv s) (n : ℕ) : Inv (s.read n) := by
  obtain ⟨hsize, hneeds⟩ := registerFileAccess_compaction s.versions n
  unfold State.read
  rcases hread : s.versions.registerFileAccess n with ⟨_ | moved, vc⟩ <;> rw [hread] at hsize hneeds
  all_goals
    have hwaits : WaitsFor { s with versions := vc } := fun r hr =>
      (h.waits r hr).imp_right fun hr => hr.imp_right (Or.imp_right hsize.trans')
  · refine ⟨fun hok hwork => h.settled hok ?_, h.running, hwaits⟩
    rwa [hneeds rfl] at hwork
  · exact .schedule h.running hwaits

theorem Inv.step (h : Inv s) (hstep : Step s s') : Inv s' := by
  cases hstep with
  | write | wakeUp => exact ⟨h.settled, h.running, by simp [WaitsFor]⟩
  | round created => exact h.round _ created
  | call env size _ hsched => exact h.backgroundCall hsched env size
  | apply _ hthread => exact .of_scheduled (h.running hthread) h.waits
  | flush hthread => exact .of_scheduled (h.running (by simp [hthread])) h.waits
  | flushedInside status vc hthread =>
    refine .of_scheduled ?_ fun r hr => absurd hr (signalAll_leader _ r)
    have hsched := h.running (by simp [hthread])
    unfold State.finishWork
    split_ifs <;> exact hsched
  | flushed | merged => exact inv_finishCall _
  | read n => exact h.read n
  | shutDown => exact ⟨fun _ _ => .inr rfl, h.running, h.waits⟩

theorem inv_of_run {vc : VersionControl} (hrun : ReflTransGen Step (opened vc) s) : Inv s := by
  induction hrun with
  | refl => exact .schedule (by simp) (by simp [WaitsFor])
  | tail _ hstep ih => exact ih.step hstep

/-- **What a writer waits for**, in every run: a background call that is scheduled, and will signal.
Unless the database is being closed, the only other case is that there are `StopWritesTrigger`
candidates and no compaction is needed. -/
theorem waiting_writer (vc : VersionControl) (s : State) (r : Room)
    (hrun : ReflTransGen Step (opened vc) s) (hwait : s.leader = .waiting r) :
    s.bg.bgCompactionScheduled ∨ s.bg.shuttingDown ∨
      (s.bg.hasImm = false ∧ Config.stopWritesTrigger ≤ compactionSize s.versions ∧
        s.versions.needsCompaction = false) := by
  have hinv := inv_of_run hrun
  obtain ⟨hok, -, hwhy⟩ := hinv.waits r hwait
  have hsettled := hinv.settled hok
  grind

/-! ## A writer that does not return -/

/-- The writer is in the loop, and the background thread has nothing to do. -/
structure Stuck (s : State) : Prop where
  unscheduled : s.bg.bgCompactionScheduled = false
  thread : s.thread = .idle
  ok : s.bg.bgError.isOk
  imm : s.bg.hasImm = false
  size : Config.stopWritesTrigger ≤ compactionSize s.versions
  leader : ∃ r : Room, (r.force || r.full) ∧
    (s.leader = .loop r ∨ s.leader = .asleep r ∨ s.leader = .waiting r)

theorem Stuck.withLeader (h : Stuck s) {l : Leader} {r : Room} (hroom : r.force || r.full)
    (hl : l = .loop r ∨ l = .asleep r ∨ l = .waiting r) : Stuck { s with leader := l } :=
  ⟨h.unscheduled, h.thread, h.ok, h.imm, h.size, r, hroom, hl⟩

theorem Stuck.round (h : Stuck s) {r : Room} (hroom : r.force || r.full) (created : Status) :
    Stuck (s.round r created) := by
  have hround : s.round r created = { s with leader := .asleep { r with allowDelay := false } } ∨
      s.round r created = { s with leader := .waiting r } := by
    unfold State.round
    grind [h.ok, h.imm, h.size]
  rcases hround with hleader | hleader <;> rw [hleader]
  · exact h.withLeader (r := { r with allowDelay := false }) hroom (.inr (.inl rfl))
  · exact h.withLeader hroom (.inr (.inr rfl))

theorem Stuck.step (h : Stuck s) (hstep : Step s s') (hneeds : s'.versions.needsCompaction = false) :
    Stuck s' := by
  obtain ⟨r, hroom, hleader⟩ := h.leader
  cases hstep with
  | write force full haway => simp [haway] at hleader
  | round created hloop =>
    obtain rfl : r = _ := by simpa [hloop, eq_comm] using hleader
    exact h.round hroom created
  | @wakeUp r' hwoken =>
    obtain rfl : r = r' := by grind
    exact h.withLeader hroom (.inl rfl)
  | call env size _ hsched => simp [h.unscheduled] at hsched
  | apply _ hthread => exact absurd h.thread hthread
  | flush hthread | flushedInside _ _ hthread | flushed _ _ hthread | merged _ _ hthread =>
    simp [h.thread] at hthread
  | read n =>
    have hsize := h.size.trans (registerFileAccess_compaction s.versions n).1
    unfold State.read at hneeds ⊢
    rcases hread : s.versions.registerFileAccess n with ⟨_ | moved, vc⟩ <;>
      rw [hread] at hsize hneeds
    · exact ⟨h.unscheduled, h.thread, h.ok, h.imm, hsize, r, hroom, hleader⟩
    · refine ⟨?_, h.thread, h.ok, h.imm, hsize, r, hroom, hleader⟩
      simpa [State.schedule, maybeScheduleCompaction, h.unscheduled, h.imm] using fun _ _ => hneeds
  | shutDown => exact ⟨h.unscheduled, h.thread, h.ok, h.imm, h.size, r, hroom, hleader⟩

/-- **A writer that waits for nothing does not return** before a read makes a compaction necessary:
the background thread is idle, and stays so. -/
theorem waiting_forever (vc : VersionControl) (s s' : State) (r : Room)
    (hrun : ReflTransGen Step (opened vc) s) (hwait : s.leader = .waiting r)
    (hidle : s.bg.bgCompactionScheduled = false ∧ s.bg.shuttingDown = false)
    (hafter : ReflTransGen (fun t t' => Step t t' ∧ t'.versions.needsCompaction = false) s s') :
    s'.leader ≠ .away ∧ s'.thread = .idle := by
  have hinv := inv_of_run hrun
  obtain ⟨hok, hroom, hwhy⟩ := hinv.waits r hwait
  have hsettled := hinv.settled hok
  have hthread : s.thread = .idle := by
    by_contra hne
    exact absurd (hinv.running hne) (by simp [hidle.1])
  have hstuck : Stuck s' := by
    induction hafter with
    | refl => refine ⟨hidle.1, hthread, hok, ?_, ?_, r, hroom, .inr (.inr hwait)⟩ <;> grind
    | tail _ hstep ih => exact ih.step hstep.1 hstep.2
  obtain ⟨r', -, hleader⟩ := hstuck.leader
  exact ⟨by rcases hleader with h | h | h <;> simp [h], hstuck.thread⟩

/-- Thirty merge candidates. -/
def thirtyCandidates : VersionControl := controlWith ∅ ⟨(List.range 30).map rangeFile, by decide⟩

theorem thirtyCandidates_wait :
    ∃ s r, ReflTransGen Step (opened thirtyCandidates) s ∧ s.leader = .waiting r ∧
      (s.bg.bgCompactionScheduled = false ∧ s.bg.shuttingDown = false) ∧
      s.versions.needsCompaction = false :=
  ⟨_, _, .tail (.tail .refl (.write true true rfl)) (.round .ok rfl), rfl, ⟨rfl, rfl⟩, rfl⟩

theorem waiting_writer_thirty :
    ∃ s : State, s.bg.bgCompactionScheduled = false ∧ s.bg.hasImm = false ∧
      Config.stopWritesTrigger ≤ compactionSize s.versions := by
  obtain ⟨s, r, hrun, hwait, ⟨hsched, hopen⟩, -⟩ := thirtyCandidates_wait
  have h := waiting_writer _ s r hrun hwait
  simp only [hsched, hopen, Bool.false_eq_true, false_or] at h
  exact ⟨s, hsched, h.1, h.2.1⟩

theorem waiting_forever_thirty :
    ∃ s s' r, s.leader = .waiting r ∧ Step s s' ∧ s'.leader ≠ .away ∧ s'.thread = .idle := by
  obtain ⟨s, r, hrun, hwait, hidle, hneeds⟩ := thirtyCandidates_wait
  have hstep : Step s { s with leader := .loop r } := .wakeUp (.inr hwait)
  exact ⟨s, _, r, hwait, hstep,
    waiting_forever _ s _ r hrun hwait hidle (.single ⟨hstep, hneeds⟩)⟩

end McfKv.MakeRoom
