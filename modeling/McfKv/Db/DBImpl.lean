import McfKv.Db.Table
import McfKv.Lib.Assign
import McfKv.Lib.Run

/-!
# Reads and writes of the database (`db/db_impl.cc`, `db/version.cc`)

The database is two memtables, the table files, and an index that leads from the number that
`fast_atoi` makes of a user key to one file. `DBImpl::Get` looks in the memtables and then in
the one file that the index names. The index is taken to be a correct map from `uint64_t` to
`uint32_t`; how it is built is the subject of `McfKv.Index.MultiCuckooIndex`.

A step is a write, a snapshot taken or released, the switch to a new memtable, the flush of
the immutable memtable, or a compaction. A flush and a compaction are one step each, with
their index batches applied in order; what may happen between two entries of a compaction is
the subject of `McfKv.Db.Compaction`. The batches of a compaction may be applied while it
goes on, which its steps leave open (`Round`), as they leave open where outputs end.

`VersionControl::LogAndApply` may drop files from the current version
(`McfKv.Db.VersionControl`), and `DeleteObsoleteFiles` removes them: the steps that call it
carry the list of files that are lost so.

Two parts of the state are not in the source: the records of all writes, and what a snapshot
read when it was taken.
-/

namespace McfKv.DBImpl

open Assign Coding

/-! ## The state -/

/-- A snapshot: its sequence number, and what `Get` returned when it was taken. -/
structure Snapshot where
  number : ℕ
  reads : Slice → Except Status Slice

structure State where
  mem : List Entry
  imm : Option (List Entry)
  tables : ℕ → Option (List Entry)
  index : ℕ → Option ℕ
  snapshots : List Snapshot
  lastSequence : ℕ
  nextFile : ℕ
  log : List Entry

def State.init : State where
  mem := []
  imm := none
  tables := fun _ => none
  index := fun _ => none
  snapshots := []
  lastSequence := 0
  nextFile := 2
  log := []

/-! ## `Get` -/

/-- `-1` as a `uint32_t`. -/
def noFile : ℕ := 2 ^ 32 - 1

/-- `MultiCuckooIndex::Get`. -/
def indexGet (index : ℕ → Option ℕ) (userKey : Slice) : ℕ :=
  (index (fastAtoi userKey)).getD noFile

/-- `Version::Get`. -/
def State.versionGet (s : State) (userKey : Slice) (snapshot : ℕ) : Except Status Slice :=
  let fileNo := indexGet s.index userKey
  if fileNo ≠ noFile then
    match s.tables fileNo with
    | some table => tableGet table userKey snapshot
    | none => .error (.ioError "No such file or directory")
  else .error (.notFound "")

/-- `DBImpl::Get`; without a snapshot it reads at the last sequence number. -/
def State.get (s : State) (snapshot : Option ℕ) (userKey : Slice) : Except Status Slice :=
  let snapshot := snapshot.getD s.lastSequence
  match memTableGet s.mem userKey snapshot with
  | some result => result
  | none =>
    match s.imm.bind fun imm => memTableGet imm userKey snapshot with
    | some result => result
    | none => s.versionGet userKey snapshot

/-! ## Writes and flushes -/

/-- `DBImpl::Write` with one record. -/
def State.write (s : State) (type : ValueType) (userKey value : Slice) : State :=
  let e : Entry := ⟨userKey, s.lastSequence + 1, type, value⟩
  { s with
    mem := memTableAdd s.mem e
    lastSequence := s.lastSequence + 1
    log := e :: s.log }

/-- The batch of `TableBuilder::Add` for a file; `IndexMeta` has a `uint32_t` for its number. -/
def batch (file : ℕ) (entries : List Entry) : List (ℕ × ℕ) :=
  entries.map fun e => (fastAtoi e.userKey, file % 2 ^ 32)

/-- Files removed by `DeleteObsoleteFiles`. -/
def removeFiles (files : List ℕ) (tables : ℕ → Option (List Entry)) (f : ℕ) :
    Option (List Entry) :=
  if f ∈ files then none else tables f

/-- `CompactMemTable`. An empty memtable gives no file. -/
def State.flush (s : State) (lost : List ℕ) : Option State :=
  match s.imm with
  | none => none
  | some imm =>
    let entries := buildTable [] imm
    some { s with
      imm := none
      tables := removeFiles lost
        (if entries.isEmpty then s.tables
          else Function.update s.tables s.nextFile (some entries))
      index := assign s.index (batch s.nextFile entries)
      nextFile := s.nextFile + 1 }

/-! ## Compactions -/

/-- What is left open about a round of the loop of `DoCompactionWork`: how many waiting index
assignments are applied before it, and whether the output is big enough after it. -/
structure Round where
  applied : ℕ
  full : Bool

/-- The variables of the loop of `DoCompactionWork`, with the outputs that are finished and
the index with the assignments that wait. -/
structure Merge where
  currentUserKey : Option Slice
  lastSequenceForKey : ℕ
  output : Option (ℕ × List Entry)
  outputs : List (ℕ × List Entry)
  index : ℕ → Option ℕ
  queue : List (ℕ × ℕ)
  nextFile : ℕ

/-- The variables before the loop. -/
def Merge.start (s : State) : Merge where
  currentUserKey := none
  lastSequenceForKey := maxSequenceNumber
  output := none
  outputs := []
  index := s.index
  queue := []
  nextFile := s.nextFile

/-- The index thread applies some of the waiting assignments. -/
def Merge.apply (c : Merge) (n : ℕ) : Merge :=
  { c with index := assign c.index (c.queue.take n), queue := c.queue.drop n }

/-- `OpenCompactionOutputFile` if there is no output, and `TableBuilder::Add`. -/
def Merge.add (c : Merge) (e : Entry) : Merge :=
  match c.output with
  | none => { c with output := some (c.nextFile, [e]), nextFile := c.nextFile + 1 }
  | some (file, entries) => { c with output := some (file, entries ++ [e]) }

/-- `FinishCompactionOutputFile`, if there is an output. -/
def Merge.finish (c : Merge) : Merge :=
  match c.output with
  | none => c
  | some (file, entries) =>
    { c with
      output := none
      outputs := c.outputs ++ [(file, entries)]
      queue := c.queue ++ batch file entries }

/-- The variables after an entry has been looked at. -/
def Merge.advance (c : Merge) (e : Entry) : Merge :=
  { c with currentUserKey := some e.userKey, lastSequenceForKey := e.sequence }

/-- One round of the loop: an entry is dropped if it is hidden by a newer version, or if the
index does not lead to an input. -/
def Merge.round (inputs : List ℕ) (smallestSnapshot : ℕ) (r : Round) (c : Merge) (e : Entry) :
    Merge :=
  let c := c.apply r.applied
  let lastSequenceForKey :=
    if c.currentUserKey = some e.userKey then c.lastSequenceForKey else maxSequenceNumber
  let drop := decide (lastSequenceForKey ≤ smallestSnapshot) ||
    !inputs.contains (indexGet c.index e.userKey)
  if drop then c.advance e
  else if r.full then ((c.advance e).add e).finish
  else (c.advance e).add e

/-- The loop of `DoCompactionWork` from its `i`-th round on. -/
def Merge.loop (inputs : List ℕ) (smallestSnapshot : ℕ) (rounds : ℕ → Round) :
    ℕ → List Entry → Merge → Merge
  | _, [], c => c
  | i, e :: entries, c =>
    loop inputs smallestSnapshot rounds (i + 1) entries
      (c.round inputs smallestSnapshot (rounds i) e)

/-- The entries of the inputs in the order of `MakeInputIterator`. -/
def merged (tables : ℕ → Option (List Entry)) (inputs : List ℕ) : List Entry :=
  (inputs.flatMap fun f => (tables f).getD []).insertionSort Entry.Le

/-- `smallest_snapshot`. -/
def State.smallestSnapshot (s : State) : ℕ :=
  match s.snapshots with
  | [] => s.lastSequence
  | snapshot :: _ => snapshot.number

/-- `DoCompactionWork` with `InstallCompactionResults`, after which the inputs are deleted. -/
def State.compact (s : State) (inputs : List ℕ) (rounds : ℕ → Round) (lost : List ℕ) :
    Option State :=
  if inputs.all fun f => (s.tables f).isSome then
    let c := (Merge.loop inputs s.smallestSnapshot rounds 0 (merged s.tables inputs)
      (Merge.start s)).finish
    some { s with
      tables := removeFiles (inputs ++ lost) (assign s.tables c.outputs)
      index := assign c.index c.queue
      nextFile := c.nextFile }
  else none

/-! ## Steps -/

inductive Step where
  | put (userKey value : Slice)
  | delete (userKey : Slice)
  | getSnapshot
  | releaseSnapshot (i : ℕ)
  | newMemTable (newLog : Bool)
  | flush (lost : List ℕ)
  | compact (inputs : List ℕ) (rounds : ℕ → Round) (lost : List ℕ)

/-- One step; `none` if it is not enabled. `MakeRoomForWrite` only switches to a new memtable
when there is no immutable one. -/
def step (s : State) : Step → Option State
  | .put userKey value => some (s.write .value userKey value)
  | .delete userKey => some (s.write .deletion userKey [])
  | .getSnapshot =>
    some { s with snapshots := s.snapshots ++ [⟨s.lastSequence, s.get none⟩] }
  | .releaseSnapshot i => some { s with snapshots := s.snapshots.eraseIdx i }
  | .newMemTable newLog =>
    match s.imm with
    | some _ => none
    | none =>
      some { s with
        mem := []
        imm := some s.mem
        nextFile := if newLog then s.nextFile + 1 else s.nextFile }
  | .flush lost => s.flush lost
  | .compact inputs rounds lost => s.compact inputs rounds lost

/-! ## Well-formed states -/

/-- A memtable or a table: entries of the log, in order. -/
structure Part (s : State) (entries : List Entry) : Prop where
  sorted : entries.Pairwise Entry.Le
  logged : ∀ e ∈ entries, e ∈ s.log

/-- **Well-formed states.** Sequence numbers and file numbers are in range, a sequence number
tells an entry, and the index only names file numbers that have been given away. -/
structure Wf (s : State) : Prop where
  lastSequence_le : s.lastSequence ≤ maxSequenceNumber
  log_le : ∀ e ∈ s.log, e.sequence ≤ s.lastSequence
  log_key : ∀ e ∈ s.log, 8 ≤ e.userKey.length
  log_inj : ∀ a ∈ s.log, ∀ b ∈ s.log, a.sequence = b.sequence → a = b
  mem : Part s s.mem
  imm : ∀ imm, s.imm = some imm → Part s imm
  tables : ∀ f table, s.tables f = some table → Part s table ∧ f < s.nextFile
  index : ∀ n f, s.index n = some f → f < s.nextFile
  nextFile_le : s.nextFile ≤ noFile

/-- Sequence numbers and file numbers do not run out, and keys have at least eight bytes. -/
def State.InRange (s : State) : Step → Prop
  | .put userKey _ => s.lastSequence < maxSequenceNumber ∧ 8 ≤ userKey.length
  | .delete userKey => s.lastSequence < maxSequenceNumber ∧ 8 ≤ userKey.length
  | .newMemTable _ => s.nextFile < noFile
  | .flush _ => s.nextFile < noFile
  | .compact inputs _ _ => s.lastSequence < maxSequenceNumber ∧
      s.nextFile + (merged s.tables inputs).length < noFile
  | _ => True

instance decidableInRange (s : State) (a : Step) : Decidable (s.InRange a) := by
  cases a <;> unfold State.InRange <;> infer_instance

variable {s s' : State}

theorem init_wf : Wf State.init where
  lastSequence_le := Nat.zero_le _
  log_le _ he := absurd he List.not_mem_nil
  log_key _ he := absurd he List.not_mem_nil
  log_inj _ he := absurd he List.not_mem_nil
  mem := ⟨List.Pairwise.nil, fun _ he => absurd he List.not_mem_nil⟩
  imm _ himm := absurd himm (by simp [State.init])
  tables _ _ hf := absurd hf (by simp [State.init])
  index _ _ hf := absurd hf (by simp [State.init])
  nextFile_le := by decide

section Parts

variable {entries entries' : List Entry}

theorem Part.toSorted (h : Part s entries) (hs : Wf s) : Sorted entries :=
  ⟨h.sorted, fun e he => (hs.log_le e (h.logged e he)).trans hs.lastSequence_le⟩

theorem Part.inj (h : Part s entries) (hs : Wf s) :
    ∀ x ∈ entries, ∀ y ∈ entries, x.sequence = y.sequence → x = y :=
  fun x hx y hy => hs.log_inj x (h.logged x hx) y (h.logged y hy)

theorem Part.sublist (h : Part s entries) (hsub : entries'.Sublist entries) : Part s entries' :=
  ⟨h.sorted.sublist hsub, fun e he => h.logged e (hsub.subset he)⟩

theorem Part.of_log (h : Part s entries) (hlog : ∀ e ∈ s.log, e ∈ s'.log) : Part s' entries :=
  ⟨h.sorted, fun e he => hlog e (h.logged e he)⟩

theorem Wf.withSnapshots (h : Wf s) (snapshots : List Snapshot) :
    Wf { s with snapshots := snapshots } := by
  have hpart : ∀ {entries}, Part s entries → Part { s with snapshots := snapshots } entries :=
    fun hp => hp.of_log fun _ he => he
  exact ⟨h.lastSequence_le, h.log_le, h.log_key, h.log_inj, hpart h.mem,
    fun imm himm => hpart (h.imm imm himm),
    fun f table hf => ⟨hpart (h.tables f table hf).1, (h.tables f table hf).2⟩, h.index,
    h.nextFile_le⟩

/-- What a reader at `S` sees of a user key in a part. -/
abbrev Shows (entries : List Entry) (userKey : Slice) (S : ℕ) (e : Entry) : Prop :=
  Versions.Sees Entry.userKey Entry.sequence entries userKey S e

variable {userKey : Slice} {S : ℕ} {e : Entry}

section

variable (h : Part s entries)

include h

theorem Part.find_eq_some_iff (hs : Wf s) :
    findEntry entries userKey S = some e ↔ Shows entries userKey S e :=
  Versions.find_eq_some_iff (h.toSorted hs).versions (h.inj hs)

theorem Part.find_eq_none_iff (hs : Wf s) :
    findEntry entries userKey S = none ↔ ∀ e ∈ entries, e.userKey = userKey → S < e.sequence :=
  Versions.find_eq_none_iff (h.toSorted hs).versions

theorem Part.find_congr (h' : Part s entries') (hs : Wf s)
    (hshows : ∀ e, Shows entries userKey S e ↔ Shows entries' userKey S e) :
    findEntry entries userKey S = findEntry entries' userKey S :=
  Versions.find_congr (h.toSorted hs).versions (h'.toSorted hs).versions (h.inj hs) (h'.inj hs)
    hshows

theorem Part.shows_buildTable_iff (hs : Wf s) : Shows (buildTable [] entries) userKey S e ↔
    Shows entries userKey S e ∧ ∀ e' ∈ entries, e'.userKey = userKey → e'.sequence ≤ S := by
  rw [buildTable_eq fun e he => hs.log_key e (h.logged e he)]
  exact Versions.sees_firsts_iff (h.toSorted hs).versions (h.inj hs)

theorem Part.buildTable_sublist (hs : Wf s) : (buildTable [] entries).Sublist entries := by
  rw [buildTable_eq fun e he => hs.log_key e (h.logged e he)]
  exact Versions.firsts_sublist none entries

theorem Part.exists_mem_buildTable (hs : Wf s) (hk : ∃ e ∈ entries, e.userKey = userKey) :
    ∃ e ∈ buildTable [] entries, e.userKey = userKey := by
  rw [buildTable_eq fun e he => hs.log_key e (h.logged e he)]
  exact Versions.exists_mem_firsts none hk (by simp)

end

end Parts

/-! ## What `Get` reads -/

/-- What a lookup in a file returns for the entry it finds. -/
def readOr (e : Option Entry) : Except Status Slice :=
  (e.map Entry.read).getD (.error (.notFound ""))

variable {S f file n : ℕ} {userKey value : Slice} {table entries : List Entry} {type : ValueType}
  {newLog : Bool} {lost : List ℕ}

theorem Wf.versionGet_eq (h : Wf s) (userKey : Slice) (hS : S ≤ s.lastSequence) :
    s.versionGet userKey S = match s.index (fastAtoi userKey) with
      | none => .error (.notFound "")
      | some f =>
        match s.tables f with
        | none => .error (.ioError "No such file or directory")
        | some table => readOr (findEntry table userKey S) := by
  unfold State.versionGet indexGet
  cases hindex : s.index (fastAtoi userKey) with
  | none => simp
  | some f =>
    have hne : f ≠ noFile := ((h.index _ f hindex).trans_le h.nextFile_le).ne
    dsimp only [Option.getD_some]
    rw [if_pos hne]
    cases htable : s.tables f with
    | none => rfl
    | some table =>
      have hpart := (h.tables f table htable).1
      exact tableGet_eq (hpart.toSorted h) userKey (hS.trans h.lastSequence_le)

theorem Wf.versionGet_of_none (h : Wf s) (hS : S ≤ s.lastSequence)
    (hindex : s.index (fastAtoi userKey) = none) :
    s.versionGet userKey S = .error (.notFound "") := by
  rw [h.versionGet_eq userKey hS, hindex]

theorem Wf.versionGet_of_table (h : Wf s) (hS : S ≤ s.lastSequence)
    (hindex : s.index (fastAtoi userKey) = some f) (htable : s.tables f = some table) :
    s.versionGet userKey S = readOr (findEntry table userKey S) := by
  rw [h.versionGet_eq userKey hS, hindex]
  dsimp only
  rw [htable]

/-- **`Get`** takes the entry that the memtables show, and else asks the index. -/
theorem Wf.get_eq (h : Wf s) (userKey : Slice) (hS : S ≤ s.lastSequence) : s.get (some S) userKey =
    match findEntry s.mem userKey S with
    | some e => e.read
    | none =>
      match findEntry (s.imm.getD []) userKey S with
      | some e => e.read
      | none => s.versionGet userKey S := by
  have hS' := hS.trans h.lastSequence_le
  unfold State.get
  dsimp only [Option.getD_some]
  rw [memTableGet_eq (h.mem.toSorted h) userKey hS']
  cases findEntry s.mem userKey S with
  | some e => rfl
  | none =>
    cases himm : s.imm with
    | none => rfl
    | some imm =>
      dsimp only [Option.map_none, Option.bind_some, Option.getD_some]
      rw [memTableGet_eq ((h.imm imm himm).toSorted h) userKey hS']
      cases findEntry imm userKey S <;> rfl

/-! ## Steps that do not change what is read -/

theorem mem_memTableAdd {e e' : Entry} : e' ∈ memTableAdd table e ↔ e' = e ∨ e' ∈ table :=
  List.mem_orderedInsert Entry.Le

theorem write_wf (h : Wf s) (hseq : s.lastSequence < maxSequenceNumber)
    (hkey : 8 ≤ userKey.length) : Wf (s.write type userKey value) := by
  -- the entry is the first one with its sequence number
  have hnew : ∀ e ∈ s.log, e.sequence ≠ s.lastSequence + 1 := fun e he =>
    ((h.log_le e he).trans_lt (Nat.lt_succ_self _)).ne
  have hpart : ∀ {entries}, Part s entries → Part (s.write type userKey value) entries :=
    fun hp => hp.of_log fun e he => List.mem_cons_of_mem _ he
  refine ⟨hseq, fun e he => ?_, fun e he => ?_, fun a ha b hb hab => ?_, ?_,
    fun imm himm => hpart (h.imm imm himm),
    fun f table hf => ⟨hpart (h.tables f table hf).1, (h.tables f table hf).2⟩, h.index,
    h.nextFile_le⟩
  · rcases List.mem_cons.mp he with rfl | he
    · exact le_rfl
    · exact (h.log_le e he).trans (Nat.le_succ _)
  · rcases List.mem_cons.mp he with rfl | he
    · exact hkey
    · exact h.log_key e he
  · rcases List.mem_cons.mp ha with rfl | ha <;> rcases List.mem_cons.mp hb with rfl | hb
    · rfl
    · exact absurd hab.symm (hnew b hb)
    · exact absurd hab (hnew a ha)
    · exact h.log_inj a ha b hb hab
  · refine ⟨h.mem.sorted.orderedInsert _ _, fun e he => ?_⟩
    rcases mem_memTableAdd.mp he with rfl | he
    · exact List.mem_cons_self
    · exact List.mem_cons_of_mem _ (h.mem.logged e he)

theorem findEntry_write (h : Wf s) (h' : Wf (s.write type userKey value)) {userKey' : Slice}
    (hother : userKey' = userKey → S ≤ s.lastSequence) :
    findEntry (s.write type userKey value).mem userKey' S = findEntry s.mem userKey' S := by
  refine h'.mem.find_congr (h.mem.of_log fun e he => List.mem_cons_of_mem _ he) h' fun e => ?_
  refine Versions.sees_congr fun b hbk hbS => ?_
  show b ∈ memTableAdd s.mem _ ↔ b ∈ s.mem
  rw [mem_memTableAdd]
  refine ⟨fun hb => hb.resolve_left ?_, Or.inr⟩
  rintro rfl
  exact absurd (hother hbk.symm) (not_le.mpr hbS)

/-- **Writes do not change what is read at an earlier sequence number.** -/
theorem get_write (h : Wf s) (hseq : s.lastSequence < maxSequenceNumber) (hkey : 8 ≤ userKey.length)
    (hS : S ≤ s.lastSequence) (userKey' : Slice) :
    (s.write type userKey value).get (some S) userKey' = s.get (some S) userKey' := by
  have h' : Wf (s.write type userKey value) := write_wf h hseq hkey
  rw [h.get_eq userKey' hS, h'.get_eq userKey' (hS.trans (Nat.le_succ _)),
    findEntry_write h h' fun _ => hS]
  rfl

theorem newMemTable_cases (hstep : step s (.newMemTable newLog) = some s') : s.imm = none ∧
      s' = { s with
        mem := []
        imm := some s.mem
        nextFile := if newLog then s.nextFile + 1 else s.nextFile } := by
  unfold step at hstep
  cases himm : s.imm with
  | some imm => simp [himm] at hstep
  | none =>
    simp only [himm, Option.some.injEq] at hstep
    exact ⟨rfl, hstep.symm⟩

theorem newMemTable_wf (h : Wf s) (hrange : s.nextFile < noFile)
    (hstep : step s (.newMemTable newLog) = some s') : Wf s' := by
  obtain ⟨himm, rfl⟩ := newMemTable_cases hstep
  have hle : s.nextFile ≤ if newLog then s.nextFile + 1 else s.nextFile := by
    split_ifs <;> omega
  refine ⟨h.lastSequence_le, h.log_le, h.log_key, h.log_inj,
    ⟨List.Pairwise.nil, fun e he => absurd he List.not_mem_nil⟩, fun imm hi => ?_,
    fun f table hf => ?_, fun n f hf => (h.index n f hf).trans_le hle, ?_⟩
  · obtain rfl := Option.some.inj hi
    exact h.mem.of_log fun e he => he
  · obtain ⟨hpart, hlt⟩ := h.tables f table hf
    exact ⟨hpart.of_log fun e he => he, hlt.trans_le hle⟩
  · dsimp only
    split_ifs <;> omega

/-- **A new memtable does not change what is read.** -/
theorem get_newMemTable (h : Wf s) (h' : Wf s') (hstep : step s (.newMemTable newLog) = some s')
    (hS : S ≤ s.lastSequence) (userKey : Slice) :
    s'.get (some S) userKey = s.get (some S) userKey := by
  obtain ⟨himm, rfl⟩ := newMemTable_cases hstep
  rw [h.get_eq userKey hS, h'.get_eq userKey hS, himm]
  have hnil : findEntry [] userKey S = none := rfl
  dsimp only [Option.getD_some, Option.getD_none]
  rw [hnil]
  cases findEntry s.mem userKey S <;> rfl

/-! ## Flushes -/

theorem flush_cases (hstep : s.flush lost = some s') :
    ∃ imm, s.imm = some imm ∧ s'.mem = s.mem ∧ s'.imm = none ∧
      s'.tables = removeFiles lost (if (buildTable [] imm).isEmpty then s.tables
        else Function.update s.tables s.nextFile (some (buildTable [] imm))) ∧
      s'.index = assign s.index (batch s.nextFile (buildTable [] imm)) ∧
      s'.snapshots = s.snapshots ∧ s'.lastSequence = s.lastSequence ∧
      s'.nextFile = s.nextFile + 1 ∧ s'.log = s.log := by
  unfold State.flush at hstep
  cases himm : s.imm with
  | none => simp [himm] at hstep
  | some imm =>
    simp only [himm, Option.some.injEq] at hstep
    obtain rfl := hstep
    exact ⟨imm, rfl, rfl, rfl, rfl, rfl, rfl, rfl, rfl, rfl⟩

theorem removeFiles_eq_some {tables : ℕ → Option (List Entry)} :
    removeFiles lost tables f = some table ↔ f ∉ lost ∧ tables f = some table := by
  unfold removeFiles
  split_ifs with hf
  · exact iff_of_false (by simp) fun h => h.1 hf
  · exact ⟨fun h => ⟨hf, h⟩, fun h => h.2⟩

theorem mem_batch : (n, f) ∈ batch file entries ↔
    (∃ e ∈ entries, fastAtoi e.userKey = n) ∧ f = file % 2 ^ 32 := by
  simp only [batch, List.mem_map, Prod.mk.injEq]
  constructor
  · rintro ⟨e, he, hn, rfl⟩
    exact ⟨⟨e, he, hn⟩, rfl⟩
  · rintro ⟨⟨e, he, hn⟩, rfl⟩
    exact ⟨e, he, hn, rfl⟩

theorem assign_batch_of_mem (index : ℕ → Option ℕ) (hfile : file ≤ noFile)
    (hn : ∃ e ∈ entries, fastAtoi e.userKey = n) :
    assign index (batch file entries) n = some file := by
  have hmod : file % 2 ^ 32 = file := Nat.mod_eq_of_lt (by unfold noFile at hfile; omega)
  obtain ⟨f, hf, heq⟩ := assign_of_mem (k := n) ⟨(n, file), mem_batch.mpr ⟨hn, hmod.symm⟩, rfl⟩ index
  rw [heq, (mem_batch.mp hf).2, hmod]

theorem assign_batch_of_forall_ne (index : ℕ → Option ℕ)
    (hn : ∀ e ∈ entries, fastAtoi e.userKey ≠ n) :
    assign index (batch file entries) n = index n := by
  refine assign_of_forall_ne (fun nf hnf => ?_) index
  rintro rfl
  obtain ⟨⟨e, he, heq⟩, -⟩ := mem_batch.mp hnf
  exact hn e he heq

theorem flush_wf (h : Wf s) (hrange : s.nextFile < noFile) (hstep : s.flush lost = some s') :
    Wf s' := by
  obtain ⟨imm, himm, hmem, himm', htables, hindex, -, hlast, hnext, hlog⟩ := flush_cases hstep
  have hpart : ∀ {entries}, Part s entries → Part s' entries := fun hp =>
    hp.of_log fun e he => hlog ▸ he
  have himmPart := h.imm imm himm
  refine ⟨hlast ▸ h.lastSequence_le, hlog ▸ hlast ▸ h.log_le, hlog ▸ h.log_key, hlog ▸ h.log_inj,
    hmem ▸ hpart h.mem, fun imm' hi => absurd (himm'.symm.trans hi) (by simp),
    fun f table hf => ?_, fun n f hf => ?_, ?_⟩
  · rw [htables, removeFiles_eq_some] at hf
    rw [hnext]
    by_cases hnew : (buildTable [] imm).isEmpty = false ∧ f = s.nextFile
    · obtain ⟨hne, rfl⟩ := hnew
      rw [hne, if_neg (by decide), Function.update_self] at hf
      obtain rfl := Option.some.inj hf.2
      exact ⟨hpart (himmPart.sublist (himmPart.buildTable_sublist h)), Nat.lt_succ_self _⟩
    · have hold : s.tables f = some table := by
        rw [← hf.2]
        split_ifs with hempty
        · rfl
        · rw [Function.update_of_ne fun heq => hnew ⟨by simpa using hempty, heq⟩]
      obtain ⟨htable, hlt⟩ := h.tables f table hold
      exact ⟨hpart htable, Nat.lt_succ_of_lt hlt⟩
  · rw [hindex] at hf
    rw [hnext]
    rcases assign_eq_some hf with hmem' | ⟨-, hold⟩
    · rw [(mem_batch.mp hmem').2]
      exact Nat.lt_succ_of_le (Nat.mod_le _ _)
    · exact Nat.lt_succ_of_lt (h.index n f hold)
  · rw [hnext]
    exact hrange

section FlushReads

variable {lost : List ℕ} {imm : List Entry} {userKey : Slice} {S : ℕ}

section

variable (h : Wf s) (h' : Wf s') (hstep : s.flush lost = some s') (himm : s.imm = some imm)
  (hS : S ≤ s.lastSequence)

include h h' hstep himm hS

/-- **After a flush**, a key whose index key is in the memtable is looked for in the new file. -/
theorem versionGet_flush_moved (hmoved : ∃ e ∈ imm, fastAtoi e.userKey = fastAtoi userKey) :
    s'.versionGet userKey S = if s.nextFile ∈ lost
      then .error (.ioError "No such file or directory")
      else readOr (findEntry (buildTable [] imm) userKey S) := by
  obtain ⟨imm', himm', -, -, htables, hindex, -, hlast, -, -⟩ := flush_cases hstep
  obtain rfl : imm = imm' := Option.some.inj (himm.symm.trans himm')
  obtain ⟨e, he, hatoi⟩ := hmoved
  obtain ⟨e', he', hkey⟩ := (h.imm imm himm).exists_mem_buildTable h ⟨e, he, rfl⟩
  have hnonempty : (buildTable [] imm).isEmpty = false := by
    rw [List.isEmpty_eq_false_iff]
    exact List.ne_nil_of_mem he'
  have hto : s'.index (fastAtoi userKey) = some s.nextFile := by
    rw [hindex, assign_batch_of_mem _ h.nextFile_le ⟨e', he', by rw [hkey, hatoi]⟩]
  have htable : s'.tables s.nextFile =
      if s.nextFile ∈ lost then none else some (buildTable [] imm) := by
    rw [htables, hnonempty, if_neg (by decide)]
    unfold removeFiles
    rw [Function.update_self]
  rw [h'.versionGet_eq userKey (hlast.symm ▸ hS), hto]
  dsimp only
  rw [htable]
  split_ifs <;> rfl

/-- **After a flush**, any other key is looked for where it was looked for before. -/
theorem versionGet_flush_other (hother : ∀ e ∈ imm, fastAtoi e.userKey ≠ fastAtoi userKey) :
    s'.versionGet userKey S = if ∃ f ∈ lost, s.index (fastAtoi userKey) = some f
      then .error (.ioError "No such file or directory") else s.versionGet userKey S := by
  obtain ⟨imm', himm', -, -, htables, hindex, -, hlast, -, -⟩ := flush_cases hstep
  obtain rfl : imm = imm' := Option.some.inj (himm.symm.trans himm')
  have hsub := ((h.imm imm himm).buildTable_sublist h).subset
  rw [h'.versionGet_eq userKey (hlast.symm ▸ hS), h.versionGet_eq userKey hS, hindex,
    assign_batch_of_forall_ne _ fun e he => hother e (hsub he)]
  cases hf : s.index (fastAtoi userKey) with
  | none => simp
  | some f =>
    have hne : f ≠ s.nextFile := (h.index _ f hf).ne
    have htable : s'.tables f = if f ∈ lost then none else s.tables f := by
      rw [htables]
      unfold removeFiles
      split_ifs
      · rfl
      · rfl
      · rw [Function.update_of_ne hne]
    dsimp only
    rw [htable]
    by_cases hlost : f ∈ lost
    · rw [if_pos hlost, if_pos ⟨f, hlost, rfl⟩]
    · rw [if_neg hlost, if_neg]
      rintro ⟨f', hf', heq⟩
      exact hlost (Option.some.inj heq ▸ hf')

end

end FlushReads

end McfKv.DBImpl
