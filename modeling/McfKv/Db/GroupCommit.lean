import McfKv.Db.WriteBatch
import McfKv.Lib.Run

/-!
# Group commit (`DBImpl::Write` and `DBImpl::BuildBatchGroup` in `db/db_impl.cc`)

A client that calls `Write` joins the queue `writers_` and waits until it is at the front or
another client has done its work. The writer at the front is the leader: it makes room,
collects the batches of a group of writers behind it, and then releases the mutex to append
one record to the log and to insert the operations into the memtable. Other writers may join
the queue in the meantime. At the end the leader pops its group and wakes it up.

A step is what one thread does while it holds the mutex, or one of the two things that the
leader does without it. `MakeRoomForWrite` and `AddRecord` may fail; their status comes from
outside.

The history of arrivals and of groups is not in the source.
-/

namespace McfKv.GroupCommit

open WriteBatch Run

/-! ## The steps -/

/-- `struct DBImpl::Writer`, by the order of arrival. A null batch asks for a new memtable. -/
structure Writer where
  id : ℕ
  batch : Option WriteBatch
  sync : Bool
deriving DecidableEq, Repr

/-- What the leader keeps on its stack while it has released the mutex: `updates`, whether that
is `tmp_batch_`, `last_writer` and `last_sequence`. -/
structure Group where
  updates : WriteBatch
  isTmp : Bool
  lastWriter : ℕ
  lastSequence : ℕ
deriving DecidableEq, Repr

/-- How far the leader has come. -/
inductive Phase where
  | idle
  | makingRoom
  | logging (g : Group)
  | inserting (g : Group) (status : Status)
  | written (g : Group) (status : Status)

/-- A group that has been popped from the queue, with its status. -/
structure Commit where
  members : List Writer
  status : Status

/-- The queue, the leader, and what the writes change. `mem` is the calls of `MemTable::Add`,
`woken` the writers that are `done`, and `returned` what `Write` has returned. -/
structure State where
  writers : List Writer
  phase : Phase
  tmpBatch : WriteBatch
  lastSequence : ℕ
  log : List Slice
  mem : List (ℕ × Op)
  woken : List (ℕ × Status)
  returned : List (ℕ × Status)
  arrived : List Writer
  commits : List Commit

/-- An open database whose last sequence number is `start`. -/
def init (start : UInt64) : State where
  writers := []
  phase := .idle
  tmpBatch := clear
  lastSequence := start.toNat
  log := []
  mem := []
  woken := []
  returned := []
  arrived := []
  commits := []

/-- What `BuildBatchGroup` returns: the batch, whether it is `tmp_batch_`, and `last_writer`. -/
structure Built where
  result : WriteBatch
  isTmp : Bool
  lastWriter : ℕ
deriving DecidableEq, Repr

/-- The loop of `BuildBatchGroup` over the writers behind the first one, with `size` and the
locals so far. -/
def groupLoop (first : Writer) (firstBatch tmp : WriteBatch) (maxSize : ℕ) :
    List Writer → ℕ → Built → Built
  | [], _, acc => acc
  | w :: ws, size, acc =>
    if w.sync ∧ ¬ first.sync then acc
    else
      match w.batch with
      | none => groupLoop first firstBatch tmp maxSize ws size { acc with lastWriter := w.id }
      | some b =>
        if maxSize < size + b.byteSize then acc
        else
          -- the first batch that joins moves the result to `tmp_batch_`
          let dst := if acc.isTmp then acc.result else tmp.append firstBatch
          groupLoop first firstBatch tmp maxSize ws (size + b.byteSize)
            ⟨dst.append b, true, w.id⟩

/-- `max_size`. -/
def maxGroupSize (size : ℕ) : ℕ := if size ≤ 128 <<< 10 then size + 128 <<< 10 else 1 <<< 20

/-- `BuildBatchGroup` for a first writer with a batch. -/
def buildBatchGroup (first : Writer) (firstBatch : WriteBatch) (behind : List Writer)
    (tmp : WriteBatch) : Built :=
  groupLoop first firstBatch tmp (maxGroupSize firstBatch.byteSize) behind firstBatch.byteSize
    ⟨firstBatch, false, first.id⟩

/-- The writers that the last loop of `Write` pops, and those that stay. -/
def popGroup (last : ℕ) : List Writer → List Writer × List Writer
  | [] => ([], [])
  | w :: ws => if w.id = last then ([w], ws) else (w :: (popGroup last ws).1, (popGroup last ws).2)

/-- The end of `Write`: pop the group, wake its members up and return. -/
def State.pop (s : State) (last : ℕ) (status : Status) : State :=
  let members := (popGroup last s.writers).1
  { s with
    writers := (popGroup last s.writers).2
    phase := .idle
    woken := s.woken ++ members.tail.map fun w => (w.id, status)
    returned := s.returned ++ (members.take 1).map fun w => (w.id, status)
    commits := s.commits ++ [⟨members, status⟩] }

/-- The steps. -/
inductive Step where
  | arrive (batch : Option WriteBatch) (sync : Bool)
  | lead
  | build (status : Status)
  | append (status : Status)
  | insert
  | finish
  | wake (id : ℕ)

def step (s : State) : Step → Option State
  | .arrive batch sync =>
    let w : Writer := ⟨s.arrived.length, batch, sync⟩
    some { s with writers := s.writers ++ [w], arrived := s.arrived ++ [w] }
  | .lead =>
    match s.phase, s.writers with
    | .idle, _ :: _ => some { s with phase := .makingRoom }
    | _, _ => none
  | .build status =>
    -- `MakeRoomForWrite` has returned, and the mutex is held until the group is built
    match s.phase, s.writers with
    | .makingRoom, first :: behind =>
      match status.isOk, first.batch with
      | true, some batch =>
        let built := buildBatchGroup first batch behind s.tmpBatch
        let updates := built.result.setSequence (s.lastSequence + 1)
        let lastSequence := ((s.lastSequence + updates.count) % 2 ^ 64).toNat
        some { s with
          phase := .logging ⟨updates, built.isTmp, built.lastWriter, lastSequence⟩
          tmpBatch := if built.isTmp then updates else s.tmpBatch }
      | _, _ => some (s.pop first.id status)
    | _, _ => none
  | .append status =>
    match s.phase with
    | .logging g =>
      some { s with
        phase := .inserting g status
        log := if status.isOk then s.log ++ [g.updates.rep] else s.log }
    | _ => none
  | .insert =>
    match s.phase with
    | .inserting g status =>
      if status.isOk then
        some { s with
          phase := .written g g.updates.insertInto.2
          mem := s.mem ++ g.updates.insertInto.1 }
      else some { s with phase := .written g status }
    | _ => none
  | .finish =>
    match s.phase with
    | .written g status =>
      some (({ s with
        tmpBatch := if g.isTmp then clear else s.tmpBatch
        lastSequence := g.lastSequence } : State).pop g.lastWriter status)
    | _ => none
  | .wake id =>
    match s.woken.find? fun p => p.1 = id with
    | some p =>
      some { s with woken := s.woken.erase p, returned := s.returned ++ [p] }
    | none => none

/-! ## The group -/

/-- The operations of a writer's batch. -/
def Writer.ops (w : Writer) : List Op :=
  match w.batch with
  | some b => b.iterate.1
  | none => []

/-- The operations of some writers, one after the other. -/
def opsOf (ws : List Writer) : List Op := ws.flatMap Writer.ops

@[simp] theorem opsOf_nil : opsOf [] = [] := rfl

@[simp] theorem opsOf_append (ws ws' : List Writer) : opsOf (ws ++ ws') = opsOf ws ++ opsOf ws' :=
  List.flatMap_append

@[simp] theorem opsOf_singleton (w : Writer) : opsOf [w] = w.ops := List.flatMap_singleton ..

/-- A batch that can be decoded. -/
def Writer.WellFormed (w : Writer) : Prop := ∃ b, w.batch = some b ∧ b.Holds w.ops

theorem maxGroupSize_le (size : ℕ) : maxGroupSize size ≤ 1 <<< 20 := by
  unfold maxGroupSize
  split_ifs with h
  · have : (128 <<< 10) + (128 <<< 10) ≤ 1 <<< 20 := by decide
    omega
  · exact Nat.le_refl _

/-- What the loop has put together from the writers `ms`. -/
structure Built.Joins (acc : Built) (firstBatch : WriteBatch) (ms : List Writer) : Prop where
  holds : acc.result.Holds (opsOf ms)
  first : acc.isTmp = false → firstBatch.Holds (opsOf ms)
  last : ∃ w, ms.getLast? = some w ∧ w.id = acc.lastWriter

variable {firstBatch tmp : WriteBatch} {g : Group} {p : Phase} {status : Status}

/-- The loop goes on with the writers behind `ms`. A group of more than one batch has at most
`2^20` bytes, so its count does not overflow. -/
theorem groupLoop_joins (first : Writer) {maxSize : ℕ} (htmp : tmp.Holds [])
    (hmax : maxSize ≤ 1 <<< 20) : ∀ (ws : List Writer) (size : ℕ) (acc : Built) (ms : List Writer),
      (∀ w ∈ ws, w.WellFormed) → acc.Joins firstBatch ms → (opsOf ms).length ≤ size →
        ∃ taken rest, ws = taken ++ rest ∧
          (groupLoop first firstBatch tmp maxSize ws size acc).Joins firstBatch (ms ++ taken) := by
  intro ws
  induction ws with
  | nil =>
    intro size acc ms _ hacc _
    exact ⟨[], [], rfl, by simpa [groupLoop] using hacc⟩
  | cons w ws ih =>
    intro size acc ms hws hacc hsize
    have hstop : ∃ taken rest, w :: ws = taken ++ rest ∧ acc.Joins firstBatch (ms ++ taken) :=
      ⟨[], w :: ws, rfl, by simpa using hacc⟩
    obtain ⟨b, hb, hholds⟩ := hws w List.mem_cons_self
    have hlen := hholds.length_le
    simp only [groupLoop, hb]
    by_cases hsync : w.sync ∧ ¬ first.sync
    · rw [if_pos hsync]
      exact hstop
    rw [if_neg hsync]
    by_cases hfull : maxSize < size + b.byteSize
    · rw [if_pos hfull]
      exact hstop
    rw [if_neg hfull]
    have hbound : (opsOf ms).length + w.ops.length < 2 ^ 31 := by
      have : (1 <<< 20 : ℕ) < 2 ^ 31 := by decide
      omega
    -- the batch that `b` is appended to holds what has been joined so far
    have hdst : (if acc.isTmp then acc.result else tmp.append firstBatch).Holds (opsOf ms) := by
      split_ifs with hisTmp
      · exact hacc.holds
      · have hfirst : firstBatch.Holds (opsOf ms) := hacc.first (by simpa using hisTmp)
        have happend := htmp.append hfirst (by simpa using hfirst.length_lt)
        exact happend
    obtain ⟨taken, rest, rfl, hjoins⟩ := ih (size + b.byteSize) ⟨_, true, w.id⟩ (ms ++ [w])
      (fun w' hw' => hws w' (List.mem_cons_of_mem _ hw'))
      ⟨by simpa using hdst.append hholds hbound, by simp, w, by simp, rfl⟩
      (by simp; omega)
    exact ⟨w :: taken, rest, rfl, by simpa using hjoins⟩

/-- **The group is an initial segment of the queue**, and the batch of the group has the
operations of its members. -/
theorem buildBatchGroup_spec {first : Writer} {behind : List Writer} (htmp : tmp.Holds [])
    (hfirst : first.batch = some firstBatch) (hwf : ∀ w ∈ first :: behind, w.WellFormed) :
    ∃ members rest, first :: behind = members ++ rest ∧
      (buildBatchGroup first firstBatch behind tmp).result.Holds (opsOf members) ∧
        ∃ w, members.getLast? = some w ∧
          w.id = (buildBatchGroup first firstBatch behind tmp).lastWriter := by
  obtain ⟨b, hb, hholds⟩ := hwf first List.mem_cons_self
  obtain rfl : firstBatch = b := Option.some.inj (hfirst.symm.trans hb)
  have hstart : Built.Joins ⟨firstBatch, false, first.id⟩ firstBatch [first] :=
    ⟨by simpa using hholds, fun _ => by simpa using hholds, first, rfl, rfl⟩
  obtain ⟨taken, rest, rfl, hjoins⟩ := groupLoop_joins first htmp
    (maxGroupSize_le firstBatch.byteSize) behind firstBatch.byteSize _ [first]
    (fun w hw => hwf w (List.mem_cons_of_mem _ hw)) hstart (by simpa using hholds.length_le)
  exact ⟨first :: taken, rest, rfl, hjoins.holds, hjoins.last⟩

/-! ## The loop that pops the group -/

theorem popGroup_append_eq (last : ℕ) (ws : List Writer) :
    (popGroup last ws).1 ++ (popGroup last ws).2 = ws := by
  induction ws with
  | nil => rfl
  | cons w ws ih =>
    unfold popGroup
    split_ifs
    · rfl
    · rw [List.cons_append, ih]

theorem popGroup_append {last : ℕ} {ws : List Writer} (h : ∃ w ∈ ws, w.id = last)
    (more : List Writer) :
    popGroup last (ws ++ more) = ((popGroup last ws).1, (popGroup last ws).2 ++ more) := by
  induction ws with
  | nil => simp at h
  | cons w ws ih =>
    rw [List.cons_append]
    unfold popGroup
    split_ifs with hid
    · rfl
    · obtain ⟨w', hw', hlast⟩ := h
      have htail : ∃ w ∈ ws, w.id = last := by
        rcases List.mem_cons.mp hw' with rfl | hmem
        · exact absurd hlast hid
        · exact ⟨w', hmem, hlast⟩
      rw [ih htail]

theorem popGroup_of_getLast {members rest : List Writer} {w : Writer}
    (hids : ((members ++ rest).map Writer.id).Nodup) (hlast : members.getLast? = some w) :
    popGroup w.id (members ++ rest) = (members, rest) := by
  induction members with
  | nil => simp at hlast
  | cons m members ih =>
    rw [List.cons_append, List.map_cons, List.nodup_cons] at hids
    rw [List.cons_append]
    unfold popGroup
    cases members with
    | nil =>
      obtain rfl : m = w := by simpa using hlast
      rw [if_pos rfl]
      rfl
    | cons m' members =>
      have hlast' : (m' :: members).getLast? = some w := by simpa using hlast
      have hmem : w ∈ (m' :: members) ++ rest :=
        List.mem_append_left _ (List.mem_of_getLast? hlast')
      have hne : m.id ≠ w.id := fun h =>
        hids.1 (h ▸ List.mem_map_of_mem hmem)
      rw [if_neg hne, ih hids.2 hlast']

/-! ## What has been committed -/

/-- The group that the leader works on. -/
def Phase.group? : Phase → Option Group
  | .idle | .makingRoom => none
  | .logging g | .inserting g _ | .written g _ => some g

/-- The group whose record has been appended, before it is popped. -/
def Phase.logged? : Phase → Option Group
  | .inserting g _ | .written g _ => some g
  | _ => none

/-- The group that has been inserted into the memtable, before it is popped. -/
def Phase.inserted? : Phase → Option Group
  | .written g _ => some g
  | _ => none

/-- The writers of a group that is at the front of the queue. -/
def State.members (s : State) (g : Group) : List Writer := (popGroup g.lastWriter s.writers).1

/-- The groups in the log. -/
def State.logged (s : State) : List (List Writer) :=
  s.commits.map Commit.members ++ (s.phase.logged?.map s.members).toList

/-- The groups in the memtable. -/
def State.inserted (s : State) : List (List Writer) :=
  s.commits.map Commit.members ++ (s.phase.inserted?.map s.members).toList

/-- The records of some groups: each has the operations of its group, and the sequence numbers
go on from one record to the next. -/
def Records : ℕ → List Slice → List (List Writer) → Prop
  | _, [], [] => True
  | seq, record :: log, group :: groups =>
    (⟨record⟩ : WriteBatch).iterate = (opsOf group, .ok) ∧
      (⟨record⟩ : WriteBatch).sequence = seq % 2 ^ 64 ∧
        Records (seq + (opsOf group).length) log groups
  | _, _, _ => False

/-- **Every batch exactly once and in order.** The writers that have been popped, and those
that wait, are all that have arrived. The log has one record for each group, and the memtable
the same operations under consecutive sequence numbers. The last sequence number has advanced
by the operations of the groups that are done, and each of their writers gets the status of its
group, once. -/
structure Committed (start : UInt64) (s : State) : Prop where
  ids : s.arrived.map Writer.id = List.range s.arrived.length
  queue : (s.commits.map Commit.members).flatten ++ s.writers = s.arrived
  logged : s.logged.flatten <+: s.arrived
  log : Records (start.toNat + 1) s.log s.logged
  inserted : s.inserted <+: s.logged
  mem : s.mem = entriesFrom (start.toNat + 1) (opsOf s.inserted.flatten)
  lastSequence : s.lastSequence =
    (start.toNat + (opsOf (s.commits.map Commit.members).flatten).length) % 2 ^ 64
  statuses : (s.woken ++ s.returned).Perm
    (s.commits.flatMap fun c => c.members.map fun w => (w.id, c.status))

/-! ## One step -/

theorem Records.append {record : Slice} {group : List Writer} :
    ∀ {seq : ℕ} {log : List Slice} {groups : List (List Writer)}, Records seq log groups →
      (⟨record⟩ : WriteBatch).iterate = (opsOf group, .ok) →
      (⟨record⟩ : WriteBatch).sequence = (seq + (opsOf groups.flatten).length) % 2 ^ 64 →
        Records seq (log ++ [record]) (groups ++ [group])
  | seq, [], [], _, hops, hseq => ⟨hops, by simpa using hseq, trivial⟩
  | seq, _ :: log, group' :: groups, ⟨hops', hseq', hrest⟩, hops, hseq =>
    ⟨hops', hseq', hrest.append hops (by simpa [Nat.add_assoc] using hseq)⟩

/-- The leader's locals describe the group at the front of the queue. -/
structure GroupInv (s : State) (g : Group) : Prop where
  last : ∃ w ∈ s.writers, w.id = g.lastWriter
  holds : g.updates.Holds (opsOf (s.members g))
  sequence : g.updates.sequence = (s.lastSequence + 1) % 2 ^ 64
  lastSequence : g.lastSequence = (s.lastSequence + (opsOf (s.members g)).length) % 2 ^ 64

/-- The invariant of the runs without errors. `tmp_batch_` is empty unless the group at work
is in it. -/
structure Inv (start : UInt64) (s : State) : Prop extends Committed start s where
  wellFormed : ∀ w ∈ s.writers, w.WellFormed
  group : ∀ g, s.phase.group? = some g → GroupInv s g
  tmp : (∀ g, s.phase.group? = some g → g.isTmp = false) → s.tmpBatch = clear
  ok : ∀ g status, s.phase = .inserting g status ∨ s.phase = .written g status → status = .ok

/-- A step without an error, and with a batch that can be decoded. -/
def Clean : Step → Prop
  | .arrive (some b) _ => b.iterate.2 = .ok
  | .arrive none _ => False
  | .build status | .append status => status = .ok
  | _ => True

instance : DecidablePred Clean
  | .arrive (some b) _ => inferInstanceAs (Decidable (b.iterate.2 = .ok))
  | .arrive none _ => inferInstanceAs (Decidable False)
  | .build status | .append status => inferInstanceAs (Decidable (status = .ok))
  | .lead | .insert | .finish | .wake _ => inferInstanceAs (Decidable True)

variable {start : UInt64} {s s' : State}

theorem inv_init (start : UInt64) : Inv start (init start) where
  ids := rfl
  queue := rfl
  logged := List.prefix_rfl
  log := trivial
  inserted := List.prefix_rfl
  mem := rfl
  lastSequence := (Nat.mod_eq_of_lt start.toNat_lt).symm
  statuses := List.Perm.refl _
  wellFormed := by simp [init]
  group := by simp [init, Phase.group?]
  tmp := fun _ => rfl
  ok := by simp [init]

theorem GroupInv.congr (h : GroupInv s g) (hwriters : s'.writers = s.writers)
    (hlast : s'.lastSequence = s.lastSequence) : GroupInv s' g := by
  have hmembers : s'.members g = s.members g := by
    unfold State.members
    rw [hwriters]
  exact ⟨hwriters ▸ h.last, hmembers ▸ h.holds, hlast ▸ h.sequence,
    hmembers ▸ hlast ▸ h.lastSequence⟩

theorem members_arrive (w : Writer) (arrived : List Writer)
    (h : ∃ w ∈ s.writers, w.id = g.lastWriter) :
    ({ s with writers := s.writers ++ [w], arrived := arrived } : State).members g =
      s.members g := by
  unfold State.members
  dsimp only
  rw [popGroup_append h]

theorem Phase.group?_of_logged? (h : p.logged? = some g) : p.group? = some g := by
  cases p <;> simp_all [Phase.logged?, Phase.group?]

theorem Phase.group?_of_inserted? (h : p.inserted? = some g) : p.group? = some g := by
  cases p <;> simp_all [Phase.inserted?, Phase.group?]

theorem Inv.arrive (h : Inv start s) {batch : Option WriteBatch} {sync : Bool}
    (hclean : Clean (.arrive batch sync)) (hstep : step s (.arrive batch sync) = some s') :
    Inv start s' := by
  obtain ⟨b, rfl⟩ : ∃ b, batch = some b := by
    cases batch with
    | none => exact hclean.elim
    | some b => exact ⟨b, rfl⟩
  set w : Writer := ⟨s.arrived.length, some b, sync⟩ with hw
  obtain rfl : { s with writers := s.writers ++ [w], arrived := s.arrived ++ [w] } = s' :=
    Option.some.inj hstep
  have hmembers : ∀ g, s.phase.group? = some g →
      ({ s with writers := s.writers ++ [w], arrived := s.arrived ++ [w] } : State).members g =
        s.members g := fun g hg => members_arrive w _ (h.group g hg).last
  have hlogged : ({ s with writers := s.writers ++ [w], arrived := s.arrived ++ [w] } :
      State).logged = s.logged := by
    unfold State.logged
    congr 2
    cases hg : s.phase.logged? with
    | none => rfl
    | some g => exact congrArg some (hmembers g (Phase.group?_of_logged? hg))
  have hinserted : ({ s with writers := s.writers ++ [w], arrived := s.arrived ++ [w] } :
      State).inserted = s.inserted := by
    unfold State.inserted
    congr 2
    cases hg : s.phase.inserted? with
    | none => rfl
    | some g => exact congrArg some (hmembers g (Phase.group?_of_inserted? hg))
  exact
    { ids := by simp [h.ids, List.range_succ, hw]
      queue := by rw [← h.queue, List.append_assoc]
      logged := by
        rw [hlogged]
        exact h.logged.trans (List.prefix_append _ _)
      log := by
        rw [hlogged]
        exact h.log
      inserted := by
        rw [hlogged, hinserted]
        exact h.inserted
      mem := by
        rw [hinserted]
        exact h.mem
      lastSequence := h.lastSequence
      statuses := h.statuses
      wellFormed := by
        intro w' hw'
        rcases List.mem_append.mp hw' with hw' | hw'
        · exact h.wellFormed w' hw'
        · obtain rfl := List.mem_singleton.mp hw'
          exact ⟨b, rfl, holds_iff.mpr (Prod.ext rfl hclean)⟩
      group := by
        intro g hg
        obtain ⟨⟨w', hw', hid⟩, hholds, hseq, hlast⟩ := h.group g hg
        rw [← hmembers g hg] at hholds hlast
        exact ⟨⟨w', List.mem_append_left _ hw', hid⟩, hholds, hseq, hlast⟩
      tmp := h.tmp
      ok := h.ok }

theorem Inv.lead (h : Inv start s) (hstep : step s .lead = some s') : Inv start s' := by
  obtain ⟨hidle, rfl⟩ : s.phase = .idle ∧ { s with phase := .makingRoom } = s' := by
    simp only [step] at hstep
    split at hstep
    · exact ⟨‹_›, Option.some.inj hstep⟩
    · cases hstep
  have hlogged : ({ s with phase := .makingRoom } : State).logged = s.logged := by
    simp [State.logged, hidle, Phase.logged?]
  have hinserted : ({ s with phase := .makingRoom } : State).inserted = s.inserted := by
    simp [State.inserted, hidle, Phase.inserted?]
  exact { h.toCommitted with
      logged := hlogged ▸ h.logged
      log := hlogged ▸ h.log
      inserted := hlogged ▸ hinserted ▸ h.inserted
      mem := hinserted ▸ h.mem
      wellFormed := h.wellFormed
      group := by simp [Phase.group?]
      tmp := fun _ => h.tmp (by simp [hidle, Phase.group?])
      ok := by simp }

theorem ids_nodup (h : Committed start s) : (s.writers.map Writer.id).Nodup := by
  have hall : (s.arrived.map Writer.id).Nodup := h.ids ▸ List.nodup_range
  rw [← h.queue, List.map_append] at hall
  exact (List.nodup_append.mp hall).2.1

section

variable (h : Inv start s)

include h

theorem build_cases (hok : status = .ok) (hstep : step s (.build status) = some s') :
    ∃ first behind batch built updates, s.phase = .makingRoom ∧ s.writers = first :: behind ∧
      first.batch = some batch ∧ built = buildBatchGroup first batch behind s.tmpBatch ∧
        updates = built.result.setSequence (s.lastSequence + 1) ∧ s' = { s with
            phase := .logging ⟨updates, built.isTmp, built.lastWriter,
              ((s.lastSequence + updates.count) % 2 ^ 64).toNat⟩
            tmpBatch := if built.isTmp then updates else s.tmpBatch } := by
  subst hok
  simp only [step] at hstep
  split at hstep
  · rename_i first behind hroom hwriters
    obtain ⟨batch, hbatch, -⟩ := h.wellFormed first (by simp [hwriters])
    simp only [hbatch, Status.isOk] at hstep
    exact ⟨first, behind, batch, _, _, hroom, hwriters, hbatch, rfl, rfl,
      (Option.some.inj hstep).symm⟩
  · cases hstep

theorem Inv.build (hok : status = .ok) (hstep : step s (.build status) = some s') :
    Inv start s' := by
  obtain ⟨first, behind, batch, built, updates, hroom, hwriters, hbatch, hbuilt, hupdates, rfl⟩ :=
    build_cases h hok hstep
  have htmp : s.tmpBatch = clear := h.tmp (by simp [hroom, Phase.group?])
  obtain ⟨members, rest, hsplit, hholds, w, hw, hlast⟩ :=
    buildBatchGroup_spec (htmp ▸ clear_holds) hbatch (hwriters ▸ h.wellFormed)
  rw [← hbuilt] at hholds hlast
  rw [← hwriters] at hsplit
  have hpop : popGroup built.lastWriter s.writers = (members, rest) := by
    rw [← hlast, hsplit]
    exact popGroup_of_getLast (hsplit ▸ ids_nodup h.toCommitted) hw
  have hupdatesHolds : updates.Holds (opsOf members) := hupdates ▸ hholds.setSequence _
  exact
    { ids := h.ids
      queue := h.queue
      logged := by simpa [State.logged, Phase.logged?, hroom] using h.logged
      log := by simpa [State.logged, Phase.logged?, hroom] using h.log
      inserted := by
        simp [State.logged, State.inserted, Phase.logged?, Phase.inserted?]
      mem := by simpa [State.inserted, Phase.inserted?, hroom] using h.mem
      lastSequence := h.lastSequence
      statuses := h.statuses
      wellFormed := h.wellFormed
      group := by
        intro g hg
        obtain rfl := Option.some.inj hg
        refine ⟨⟨w, ?_, hlast⟩, ?_, ?_, ?_⟩
        · rw [hsplit]
          exact List.mem_append_left _ (List.mem_of_getLast? hw)
        · simpa only [State.members, hpop] using hupdatesHolds
        · exact hupdates ▸ sequence_setSequence _ _
        · simp only [State.members, hpop, hupdatesHolds.count]
          omega
      tmp := by
        intro hnot
        have hisTmp : built.isTmp = false := hnot _ rfl
        simp [hisTmp, htmp]
      ok := by simp }

theorem Inv.append (hok : status = .ok) (hstep : step s (.append status) = some s') :
    Inv start s' := by
  subst hok
  obtain ⟨g, hlogging, rfl⟩ : ∃ g, s.phase = .logging g ∧
      { s with phase := .inserting g .ok, log := s.log ++ [g.updates.rep] } = s' := by
    simp only [step] at hstep
    split at hstep
    · exact ⟨_, ‹_›, Option.some.inj hstep⟩
    · cases hstep
  have hgroup : GroupInv s g := h.group g (by simp [hlogging, Phase.group?])
  have hold : s.logged = s.commits.map Commit.members := by
    simp [State.logged, hlogging, Phase.logged?]
  have hflat : (s.commits.map Commit.members ++ [s.members g]).flatten <+: s.arrived := by
    rw [List.flatten_append, ← h.queue]
    refine List.prefix_append_right_inj _ |>.mpr ?_
    rw [List.flatten_singleton, ← popGroup_append_eq g.lastWriter s.writers]
    exact List.prefix_append _ _
  exact
    { ids := h.ids
      queue := h.queue
      logged := hflat
      log := by
        have hrecords := h.log
        rw [hold] at hrecords
        refine hrecords.append (holds_iff.mp hgroup.holds) ?_
        have hlast := h.lastSequence
        have hseq := hgroup.sequence
        rw [hlast] at hseq
        refine hseq.trans ?_
        omega
      inserted := by
        simp only [State.logged, State.inserted, Phase.logged?, Phase.inserted?]
        simp
      mem := by simpa [State.inserted, Phase.inserted?, hlogging] using h.mem
      lastSequence := h.lastSequence
      statuses := h.statuses
      wellFormed := h.wellFormed
      group := by
        intro g' hg'
        obtain rfl := Option.some.inj hg'
        exact hgroup.congr rfl rfl
      tmp := fun hnot => h.tmp (by simpa [hlogging, Phase.group?] using hnot)
      ok := by
        rintro g' status (heq | heq) <;> cases heq
        rfl }

theorem Inv.insert (hstep : step s .insert = some s') : Inv start s' := by
  obtain ⟨g, status, hinserting, hs'⟩ : ∃ g status, s.phase = .inserting g status ∧
      (if status.isOk then
        some { s with
          phase := .written g g.updates.insertInto.2
          mem := s.mem ++ g.updates.insertInto.1 }
      else some { s with phase := .written g status }) = some s' := by
    simp only [step] at hstep
    split at hstep
    · exact ⟨_, _, ‹_›, hstep⟩
    · cases hstep
  have hgroup : GroupInv s g := h.group g (by simp [hinserting, Phase.group?])
  have hiterate := holds_iff.mp hgroup.holds
  obtain rfl : status = .ok := h.ok g status (.inl hinserting)
  rw [if_pos (show Status.ok.isOk = true from rfl)] at hs'
  obtain rfl := Option.some.inj hs'
  exact
    { ids := h.ids
      queue := h.queue
      logged := by simpa [State.logged, State.members, hinserting, Phase.logged?] using h.logged
      log := by simpa [State.logged, State.members, hinserting, Phase.logged?] using h.log
      inserted := List.prefix_rfl
      mem := by
        have hmem := h.mem
        have hlast := h.lastSequence
        simp only [State.inserted, hinserting, Phase.inserted?, Option.map_none, Option.toList_none,
          List.append_nil] at hmem
        have hseq : entriesFrom g.updates.sequence (opsOf (s.members g)) =
            entriesFrom (start.toNat + 1 + (opsOf (s.commits.map Commit.members).flatten).length)
              (opsOf (s.members g)) := by
          rw [hgroup.sequence, hlast, ← entriesFrom_mod (_ + 1 + _)]
          congr 1
          omega
        simp only [State.inserted, Phase.inserted?, Option.map_some, Option.toList_some,
          List.flatten_append, List.flatten_singleton, opsOf_append, insertInto, hiterate]
        rw [entriesFrom_append, hmem, hseq]
        rfl
      lastSequence := h.lastSequence
      statuses := h.statuses
      wellFormed := h.wellFormed
      group := by
        intro g' hg'
        obtain rfl := Option.some.inj hg'
        exact hgroup.congr rfl rfl
      tmp := fun hnot => h.tmp (by simpa [hinserting, Phase.group?] using hnot)
      ok := by
        rintro g' status (heq | heq) <;> cases heq
        exact congrArg Prod.snd hiterate }

theorem Inv.finish (hstep : step s .finish = some s') : Inv start s' := by
  obtain ⟨g, status, hwritten, rfl⟩ : ∃ g status, s.phase = .written g status ∧ ({ s with
        tmpBatch := if g.isTmp then clear else s.tmpBatch
        lastSequence := g.lastSequence } : State).pop g.lastWriter status = s' := by
    simp only [step] at hstep
    split at hstep
    · exact ⟨_, _, ‹_›, Option.some.inj hstep⟩
    · cases hstep
  have hgroup : GroupInv s g := h.group g (by simp [hwritten, Phase.group?])
  have hsplit : s.members g ++ (popGroup g.lastWriter s.writers).2 = s.writers :=
    popGroup_append_eq g.lastWriter s.writers
  -- the group moves from the leader to the history
  have hlogged : (({ s with
      tmpBatch := if g.isTmp then clear else s.tmpBatch
      lastSequence := g.lastSequence } : State).pop g.lastWriter status).logged = s.logged := by
    simp [State.logged, State.pop, State.members, hwritten, Phase.logged?]
  have hinserted : (({ s with
      tmpBatch := if g.isTmp then clear else s.tmpBatch
      lastSequence := g.lastSequence } : State).pop g.lastWriter status).inserted = s.inserted := by
    simp [State.inserted, State.pop, State.members, hwritten, Phase.inserted?]
  have hcommits : (s.commits ++ [(⟨s.members g, status⟩ : Commit)]).map Commit.members =
      s.commits.map Commit.members ++ [s.members g] := by simp
  exact
    { ids := h.ids
      queue := by
        refine Eq.trans ?_ h.queue
        show ((s.commits ++ [(⟨s.members g, status⟩ : Commit)]).map Commit.members).flatten ++ _ = _
        rw [hcommits, List.flatten_append, List.flatten_singleton, List.append_assoc]
        exact congrArg _ hsplit
      logged := by
        rw [hlogged]
        exact h.logged
      log := by
        rw [hlogged]
        exact h.log
      inserted := List.prefix_rfl
      mem := by
        rw [hinserted]
        exact h.mem
      lastSequence := by
        show g.lastSequence = (_ + (opsOf ((s.commits ++ [(⟨s.members g, status⟩ : Commit)]).map
            Commit.members).flatten).length) % 2 ^ 64
        rw [hcommits, hgroup.lastSequence, h.lastSequence, List.flatten_append,
          List.flatten_singleton, opsOf_append, List.length_append]
        omega
      statuses := by
        show (s.woken ++ (s.members g).tail.map (fun w => (w.id, status)) ++
          (s.returned ++ ((s.members g).take 1).map fun w => (w.id, status))).Perm
            ((s.commits ++ [(⟨s.members g, status⟩ : Commit)]).flatMap fun c =>
              c.members.map fun w => (w.id, c.status))
        rw [List.flatMap_append, List.flatMap_singleton]
        have hmap : (s.members g).map (fun w => (w.id, status)) =
            ((s.members g).take 1).map (fun w => (w.id, status)) ++
              (s.members g).tail.map fun w => (w.id, status) := by
          rw [← List.map_append, ← List.drop_one, List.take_append_drop]
        rw [hmap, List.append_assoc]
        refine (List.perm_append_comm.append_left s.woken).trans ?_
        rw [List.append_assoc s.returned, ← List.append_assoc]
        exact h.statuses.append_right _
      wellFormed := by
        intro w hw
        refine h.wellFormed w ?_
        rw [← hsplit]
        exact List.mem_append_right _ hw
      group := by simp [State.pop, Phase.group?]
      tmp := by
        intro _
        show (if g.isTmp then clear else s.tmpBatch) = clear
        split_ifs with hisTmp
        · rfl
        · refine h.tmp fun g' hg' => ?_
          rw [hwritten] at hg'
          obtain rfl := Option.some.inj hg'
          simpa using hisTmp
      ok := by simp [State.pop] }

theorem Inv.wake {id : ℕ} (hstep : step s (.wake id) = some s') : Inv start s' := by
  obtain ⟨p, hp, rfl⟩ : ∃ p, s.woken.find? (fun p => p.1 = id) = some p ∧
      { s with woken := s.woken.erase p, returned := s.returned ++ [p] } = s' := by
    simp only [step] at hstep
    split at hstep
    · exact ⟨_, ‹_›, Option.some.inj hstep⟩
    · cases hstep
  have hmem : p ∈ s.woken := List.mem_of_find?_eq_some hp
  have hperm : (s.woken.erase p ++ (s.returned ++ [p])).Perm (s.woken ++ s.returned) := by
    rw [← List.append_assoc]
    refine List.perm_append_comm.trans ?_
    exact ((List.perm_cons_erase hmem).append_right s.returned).symm
  exact { h with
    statuses := hperm.trans h.statuses
    group := fun g hg => (h.group g hg).congr rfl rfl }

end

theorem Inv.step (a : Step) (h : Inv start s) (hclean : Clean a)
    (hstep : GroupCommit.step s a = some s') : Inv start s' := by
  cases a with
  | arrive batch sync => exact h.arrive hclean hstep
  | lead => exact h.lead hstep
  | build status => exact h.build hclean hstep
  | append status => exact h.append hclean hstep
  | insert => exact h.insert hstep
  | finish => exact h.finish hstep
  | wake id => exact h.wake hstep

/-! ## Runs -/

/-- **Group commit.** In every state of a run of any number of writers, without errors and
with batches that can be decoded, every batch has been applied exactly once and in the order
of arrival. -/
theorem committed_of_clean (start : UInt64) (steps : List Step) (s : State)
    (hclean : ∀ a ∈ steps, Clean a) (hrun : runFrom step (init start) steps = some s) :
    Committed start s := by
  have hinv : Inv start s :=
    runFrom_invariant (fun s a s' h hok hstep => Inv.step a h hok hstep) (inv_init start)
      (meets_of_mem hclean (init start)) hrun
  exact hinv.toCommitted

/-- Two writers in one group, and a third that joins the queue while the leader has released
the mutex. -/
def threeWriters : List Step :=
  let put (i : UInt8) : Option WriteBatch := some (clear.add (.put [i] [i, i]))
  [.arrive (put 1) false, .lead, .arrive (put 2) false, .build .ok, .arrive (put 3) true,
    .append .ok, .insert, .finish, .lead, .build .ok, .wake 1, .append .ok, .insert, .finish]

theorem committed_threeWriters :
    (runFrom step (init 5) threeWriters).map (fun s => (s.log.length, s.lastSequence)) =
      some (2, 8) ∧ ∃ s, runFrom step (init 5) threeWriters = some s ∧ Committed 5 s := by
  have hclean : ∀ a ∈ threeWriters, Clean a := by decide
  have hresult : (runFrom step (init 5) threeWriters).map
      (fun s => (s.log.length, s.lastSequence)) = some (2, 8) := by decide
  obtain ⟨s, hrun, -⟩ := Option.map_eq_some_iff.mp hresult
  exact ⟨hresult, s, hrun, committed_of_clean 5 threeWriters s hclean hrun⟩

end McfKv.GroupCommit
