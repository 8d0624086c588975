import McfKv.Db.GroupCommit
import McfKv.Db.LogRoundTrip

/-!
# Recovery of a log (`DBImpl::RecoverLogFile` in `db/db_impl.cc`)

`RecoverLogFile` inserts the records of a log into a memtable. The memtable becomes a table when it
is too large, and at the end, unless the log is reused.
-/

namespace McfKv.RecoverLog

open WriteBatch GroupCommit Run

/-- The calls of `MemTable::Add`. -/
abbrev Mem := List (ℕ × Op)

/-- The options, whether a memtable is over `write_buffer_size`, what `WriteLevel0Table` returns,
and whether the log can be opened for appending. -/
structure Env where
  paranoidChecks : Bool
  reuseLogs : Bool
  disableRecoveryLog : Bool
  overLimit : Mem → Bool
  writeTable : ℕ → Status
  appendable : Bool

/-- The variables of `RecoverLogFile`, and the memtables that have become tables. -/
structure Recovery where
  status : Status
  mem : Option Mem
  maxSequence : ℕ
  compactions : ℕ
  saveManifest : Bool
  tables : List Mem

variable (env : Env)

/-- `MaybeIgnoreError`. -/
def maybeIgnoreError (s : Status) : Status := if s.isOk || env.paranoidChecks then s else .ok

namespace Recovery

/-- The variables before the loop. -/
def start (status : Status) (maxSequence : ℕ) (saveManifest : Bool) : Recovery :=
  ⟨status, none, maxSequence, 0, saveManifest, []⟩

/-- `LogReporter::Corruption`. -/
def report (l : Recovery) (s : Status) : Recovery :=
  if env.paranoidChecks && l.status.isOk then { l with status := s } else l

/-- `WriteLevel0Table`. -/
def writeLevel0Table (l : Recovery) (mem : Mem) : Recovery :=
  { l with
    status := env.writeTable l.tables.length
    mem := none
    saveManifest := true
    tables := l.tables ++ [mem] }

/-- The body of the loop. -/
def replay (l : Recovery) (record : Slice) : Recovery :=
  if record.length < 12 then l.report env (.corruption "log record too small" "")
  else
    let batch : WriteBatch := ⟨record⟩
    let mem := l.mem.getD [] ++ batch.insertInto.1
    let status := maybeIgnoreError env batch.insertInto.2
    if !status.isOk then { l with mem := some mem, status := status }
    else
      let lastSeq := ((batch.sequence + batch.count - 1) % 2 ^ 64).toNat
      let l : Recovery :=
        { l with mem := some mem, status := status, maxSequence := max l.maxSequence lastSeq }
      if env.overLimit mem then
        writeLevel0Table env { l with compactions := l.compactions + 1 } mem
      else l

/-- The loop. With a status that is not `OK` one more record may be read, which changes nothing. -/
def loop : ℕ → Log.Reader → Recovery → Option Recovery
  | 0, _, _ => none
  | fuel + 1, r, l =>
    (r.readRecord Crc32c.extend).bind fun (record, r') =>
      let l := (r'.reports.drop r.reports.length).foldl (fun l p => l.report env p.2) l
      match record with
      | none => some l
      | some record =>
        if !l.status.isOk then some l
        else if !(l.replay env record).status.isOk then some (l.replay env record)
        else loop fuel r' (l.replay env record)

/-- Behind the loop: the log is reused with the memtable, or the memtable becomes a table. The
second result is `mem_`. -/
def finish (lastLog : Bool) (l : Recovery) : Recovery × Option Mem :=
  if l.status.isOk && env.reuseLogs && lastLog && l.compactions = 0 && !env.disableRecoveryLog &&
      env.appendable then
    ({ l with mem := none }, some (l.mem.getD []))
  else
    match l.mem with
    | none => (l, none)
    | some mem => (if l.status.isOk then l.writeLevel0Table env mem else l, none)

/-- What the tables and the memtable hold. -/
def held (l : Recovery) : Mem := l.tables.flatten ++ l.mem.getD []

end Recovery

open Recovery

/-- `RecoverLogFile`. -/
def recoverLogFile (file : Except Status Log.SequentialFile) (lastLog : Bool) (maxSequence : ℕ)
    (saveManifest : Bool) : Option (Recovery × Option Mem) :=
  match file with
  | .error status => some (start (maybeIgnoreError env status) maxSequence saveManifest, none)
  | .ok file =>
    (loop env (file.contents.length + 1) (.new file true 0)
      (start .ok maxSequence saveManifest)).map (finish env lastLog)

variable {env} {l : Recovery}

section

variable (htables : ∀ i, env.writeTable i = .ok)

include htables

theorem replay_spec {b : WriteBatch} {ops : List Op} (h : b.iterate = (ops, .ok)) :
    (l.replay env b.rep).status = .ok ∧
      (l.replay env b.rep).held = l.held ++ entriesFrom b.sequence ops ∧
      (l.replay env b.rep).maxSequence =
        max l.maxSequence ((b.sequence + ops.length - 1 : ℤ) % 2 ^ 64).toNat := by
  obtain ⟨hheader, hcount, -⟩ := holds_iff.mpr h
  have hlength : ¬b.rep.length < 12 := Nat.not_lt.mpr hheader
  cases hlimit : env.overLimit (l.mem.getD [] ++ entriesFrom b.sequence ops) <;>
    simp [replay, hlength, insertInto, h, hcount, maybeIgnoreError, Status.isOk, hlimit, held,
      writeLevel0Table, htables]

theorem finish_spec (hok : l.status = .ok) (lastLog : Bool) :
    (l.finish env lastLog).1.status = .ok ∧
      (l.finish env lastLog).1.tables.flatten ++ (l.finish env lastLog).2.getD [] = l.held ∧
      (l.finish env lastLog).1.maxSequence = l.maxSequence := by
  unfold finish
  cases hmem : l.mem <;> split_ifs <;> simp_all [held, writeLevel0Table, Status.isOk]

/-- **The loop replays the records that are left**, if they can be decoded. The induction is that of
`readAll_addRecords`. -/
theorem loop_addRecords :
    ∀ (records : List Slice) (w : Log.Writer), w.blockOffset ≤ Log.blockSize →
      (∀ record ∈ records, (⟨record⟩ : WriteBatch).iterate.2 = .ok) →
      ∃ D, (w.addRecords Crc32c.extend records).dest = w.dest ++ D ∧
        ∀ (r : Log.Reader) rest fuel l, r.At (true, []) w.blockOffset rest → rest <+: D →
          rest.length < fuel → l.status = .ok →
          ∃ k, loop env fuel r l = some ((records.take k).foldl (replay env) l) ∧
            (rest = D → records.take k = records) := by
  intro records
  induction records with
  | nil =>
    refine fun w _ _ => ⟨[], by simp [Log.Writer.addRecords], fun r rest fuel l hat hrest h _ => ?_⟩
    obtain rfl := List.prefix_nil.mp hrest
    obtain ⟨fuel, rfl⟩ := Nat.exists_eq_add_of_lt (Nat.zero_lt_of_lt h)
    obtain ⟨r', hat', hread⟩ := hat.readRecord_nil Crc32c.extend_extend
    exact ⟨0, by simp [loop, hread, hat'.reports_eq], fun _ => rfl⟩
  | cons record records ih =>
    intro w hw hgood
    obtain ⟨hrecord, hrecords⟩ := List.forall_mem_cons.mp hgood
    obtain ⟨B, hB⟩ := Log.addRecord_spec Crc32c.extend_extend w hw record
    obtain ⟨D, hdest, hreads⟩ := ih (w.addRecord Crc32c.extend record) hB.offset hrecords
    refine ⟨B ++ D, ?_, fun r rest fuel l hat hrest hfuel hok => ?_⟩
    · rw [← List.append_assoc, ← hB.dest, ← hdest]
      rfl
    · obtain ⟨fuel, rfl⟩ := Nat.exists_eq_add_of_lt (Nat.zero_lt_of_lt hfuel)
      rw [Nat.zero_add] at hfuel ⊢
      rcases hB.reads r _ rest D [] 0 _ hat hrest (Nat.lt_succ_self _) fun _ => rfl with
        ⟨rest', r', rfl, hrest', hat', hread⟩ | ⟨r', hlt, hat', hread⟩
      all_goals rw [Bool.not_true, ← hat.readRecord_eq] at hread
      · have hpos := hB.pos
        have hnext := (replay_spec (l := l) htables (Prod.ext rfl hrecord)).1
        rw [List.length_append] at hfuel
        obtain ⟨k, hloop, hall⟩ := hreads r' rest' fuel _ hat' hrest' (by omega) hnext
        refine ⟨k + 1, ?_, fun heq => ?_⟩
        · simpa [loop, hread, hat'.reports_eq, hok, hnext, Status.isOk] using hloop
        · rw [List.take_succ_cons, hall (List.append_cancel_left heq)]
      · refine ⟨0, by simp [loop, hread, hat'.reports_eq], fun heq => ?_⟩
        rw [heq, List.length_append] at hlt
        omega

/-- The records of some groups bring back their operations, under their numbers. -/
theorem foldl_replay : ∀ {seq : ℕ} {records : List Slice} {groups : List (List Writer)},
    Records seq records groups → ∀ l : Recovery, l.status = .ok →
      (records.foldl (replay env) l).status = .ok ∧
      (records.foldl (replay env) l).held = l.held ++ entriesFrom seq (opsOf groups.flatten) ∧
      (seq + (opsOf groups.flatten).length ≤ 2 ^ 64 → (∀ e ∈ l.held, e.1 ≤ l.maxSequence) →
        ∀ e ∈ (records.foldl (replay env) l).held,
          e.1 ≤ (records.foldl (replay env) l).maxSequence)
  | _, [], [], _, l, hok => ⟨hok, by simp [entriesFrom], fun _ h => h⟩
  | seq, record :: records, group :: groups, ⟨hops, hseq, hrest⟩, l, hok => by
    obtain ⟨hstatus, hheld, hmax⟩ := replay_spec (l := l) htables hops
    rw [hseq, entriesFrom_mod] at hheld
    obtain ⟨hstatus', hheld', hmax'⟩ := foldl_replay hrest _ hstatus
    refine ⟨hstatus', ?_, fun hlen hle => ?_⟩
    · rw [List.foldl_cons, hheld', hheld, List.flatten_cons, opsOf_append, entriesFrom_append,
        List.append_assoc]
    · rw [List.flatten_cons, opsOf_append, List.length_append] at hlen
      refine hmax' (by omega) fun e he => ?_
      rw [hmax, hseq]
      rcases List.mem_append.mp (hheld ▸ he) with he | he
      · exact (hle e he).trans (le_max_left ..)
      · obtain ⟨⟨op, i⟩, hi, rfl⟩ := List.mem_map.mp he
        have := List.snd_lt_of_mem_zipIdx hi
        dsimp only at this ⊢
        omega

end

theorem take_records : ∀ (k : ℕ) {seq : ℕ} {log : List Slice} {groups : List (List Writer)},
    Records seq log groups → Records seq (log.take k) (groups.take k)
  | 0, _, _, _, _ => trivial
  | _ + 1, _, [], [], _ => trivial
  | k + 1, _, _ :: _, _ :: _, ⟨hops, hseq, hrest⟩ => ⟨hops, hseq, take_records k hrest⟩

theorem decode_of_records : ∀ {seq : ℕ} {log : List Slice} {groups : List (List Writer)},
    Records seq log groups → log.length = groups.length ∧
      ∀ record ∈ log, (⟨record⟩ : WriteBatch).iterate.2 = .ok
  | _, [], [], _ => by simp
  | _, _ :: _, _ :: _, ⟨hops, _, hrest⟩ =>
    ⟨congrArg Nat.succ (decode_of_records hrest).1,
      List.forall_mem_cons.mpr ⟨by rw [hops], (decode_of_records hrest).2⟩⟩

/-- **Committed groups survive a crash.** The log of a group commit is cut after any number of
bytes. Whatever the options and the sizes of the memtables, `RecoverLogFile` succeeds if tables can
be written, and brings back the operations of the first groups under their sequence numbers, and of
all groups if nothing is cut off. `max_sequence` is not below any of the numbers. -/
theorem recoverLogFile_committed (env : Env) (htables : ∀ i, env.writeTable i = .ok)
    (start : UInt64) (steps : List Step) (s : State) (hclean : ∀ a ∈ steps, Clean a)
    (hrun : runFrom step (init start) steps = some s) (n : ℕ) (lastLog : Bool) (maxSequence : ℕ)
    (saveManifest : Bool) :
    ∃ k l kept,
      recoverLogFile env (.ok ⟨(Log.Writer.new.addRecords Crc32c.extend s.log).dest.take n, none⟩)
        lastLog maxSequence saveManifest = some (l, kept) ∧
      l.status = .ok ∧
      l.tables.flatten ++ kept.getD [] =
        entriesFrom (start.toNat + 1) (opsOf (s.logged.take k).flatten) ∧
      ((Log.Writer.new.addRecords Crc32c.extend s.log).dest.length ≤ n →
        s.logged.take k = s.logged) ∧
      (start.toNat + (opsOf s.logged.flatten).length < 2 ^ 64 →
        ∀ e ∈ l.tables.flatten ++ kept.getD [], e.1 ≤ l.maxSequence) := by
  have hinv : Inv start s :=
    runFrom_invariant (fun s a s' h hok hstep => Inv.step a h hok hstep) (inv_init start)
      (meets_of_mem hclean (init start)) hrun
  obtain ⟨hlength, hgood⟩ := decode_of_records hinv.log
  rw [Log.new_addRecords]
  obtain ⟨D, hdest, hreads⟩ := loop_addRecords htables s.log ⟨[], Log.blockSize⟩ le_rfl hgood
  rw [hdest, List.nil_append]
  obtain ⟨k, hloop, hall⟩ := hreads _ (D.take n) _ (.start .ok maxSequence saveManifest)
    (Log.Reader.new_at _ true) (List.take_prefix n D) (Nat.lt_succ_self _) rfl
  obtain ⟨hstatus, hheld, hmax⟩ := foldl_replay htables (take_records k hinv.log)
    (.start .ok maxSequence saveManifest) rfl
  obtain ⟨hstatus', hheld', hmax'⟩ := finish_spec htables hstatus lastLog
  refine ⟨k, _, _, ?_, hstatus', hheld'.trans hheld, fun hn => ?_, fun hlen => ?_⟩
  · exact congrArg (Option.map _) hloop
  · have := congrArg List.length (hall (List.take_of_length_le hn))
    rw [List.length_take] at this
    exact List.take_of_length_le (by omega)
  · rw [hheld', hmax']
    refine hmax ?_ (by simp [held, Recovery.start])
    have := congrArg (fun groups => (opsOf groups.flatten).length)
      (List.take_append_drop k s.logged)
    simp only [List.flatten_append, opsOf_append, List.length_append] at this
    omega

theorem recoverLogFile_committed_threeWriters :
    ∃ s k l kept, runFrom step (init 5) threeWriters = some s ∧
      recoverLogFile ⟨true, false, false, fun _ => true, fun _ => .ok, false⟩
        (.ok ⟨(Log.Writer.new.addRecords Crc32c.extend s.log).dest.take 40, none⟩) true 0 false =
          some (l, kept) ∧
      l.tables.flatten ++ kept.getD [] = entriesFrom 6 (opsOf (s.logged.take k).flatten) := by
  have hsome : (runFrom step (init 5) threeWriters).isSome := by decide
  obtain ⟨s, hrun⟩ := Option.isSome_iff_exists.mp hsome
  obtain ⟨k, l, kept, hrecover, -, hheld, -⟩ :=
    recoverLogFile_committed ⟨true, false, false, fun _ => true, fun _ => .ok, false⟩ (fun _ => rfl)
      5 _ s (by decide) hrun 40 true 0 false
  exact ⟨s, k, l, kept, hrun, hrecover, hheld⟩

end McfKv.RecoverLog
