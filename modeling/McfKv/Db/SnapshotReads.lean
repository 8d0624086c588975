import McfKv.Db.MergeLoop

/-!
# Snapshot reads

A snapshot is a sequence number, and a read at it skips newer versions. Three rules throw
versions away: `BuildTable` writes the newest version of a key only, the index remembers one
file for a key, and a compaction drops what is hidden or not in the file of its key.
-/

namespace McfKv.DBImpl

open Assign Coding Run

/-- **Snapshot reads are stable.** -/
def Stable (s : State) : Prop :=
  ∀ snapshot ∈ s.snapshots, ∀ userKey,
    s.get (some snapshot.number) userKey = snapshot.reads userKey

/-- **A flush keeps what the snapshots read.** -/
structure FlushKeeps (s : State) (lost : List ℕ) (imm : List Entry) : Prop where
  /-- Neither the new file nor a file that the index names is lost. -/
  noneLost : s.nextFile ∉ lost ∧ ∀ n f, s.index n = some f → f ∉ lost
  /-- A value that a snapshot reads from the memtable is the newest version there. -/
  fromMem : ∀ snapshot ∈ s.snapshots, ∀ e, e.type = .value →
    Shows imm e.userKey snapshot.number e →
    ∀ e' ∈ imm, e'.userKey = e.userKey → e'.sequence ≤ snapshot.number
  /-- The memtable has no entry with the index key of a value that a snapshot reads from a
  file. -/
  fromFile : ∀ snapshot ∈ s.snapshots, ∀ e f table, e.type = .value →
    s.index (fastAtoi e.userKey) = some f → s.tables f = some table →
    Shows table e.userKey snapshot.number e →
    (∀ e' ∈ imm, e'.userKey = e.userKey → snapshot.number < e'.sequence) →
    ∀ e' ∈ imm, fastAtoi e'.userKey ≠ fastAtoi e.userKey

/-- **A compaction keeps what the snapshots read.** -/
structure CompactKeeps (s : State) (inputs : List ℕ) (rounds : ℕ → Round) (lost : List ℕ) :
    Prop where
  /-- No new file and no file that the index names is lost. -/
  noneLost : ∀ f ∈ lost, f < s.nextFile ∧ ∀ n, s.index n ≠ some f
  /-- No output ends between two entries with one index key. -/
  noSplit : NoSplit rounds (merged s.tables inputs)
  /-- The version of a key that a snapshot sees in all inputs is in the file of the key, or it
  is a deletion and that file shows nothing. -/
  noStale : ∀ snapshot ∈ s.snapshots, ∀ e f table, s.index (fastAtoi e.userKey) = some f →
    f ∈ inputs → s.tables f = some table →
    Shows (merged s.tables inputs) e.userKey snapshot.number e →
    e ∈ table ∨ (e.type = .deletion ∧
      ∀ e' ∈ table, e'.userKey = e.userKey → snapshot.number < e'.sequence)

/-- The condition on a step. -/
def State.Keeps (s : State) : Step → Prop
  | .flush lost => ∀ imm, s.imm = some imm → FlushKeeps s lost imm
  | .compact inputs rounds lost => CompactKeeps s inputs rounds lost
  | _ => True

/-- The invariant of the runs. -/
structure SnapshotInv (s : State) : Prop where
  wf : Wf s
  le : ∀ snapshot ∈ s.snapshots, snapshot.number ≤ s.lastSequence
  ordered : s.snapshots.Pairwise fun a b => a.number ≤ b.number
  lead : ∀ n f, s.index n = some f →
    ∃ table, s.tables f = some table ∧ ∃ e ∈ table, fastAtoi e.userKey = n
  stable : Stable s

variable {s s' : State}

theorem init_snapshotInv : SnapshotInv State.init where
  wf := init_wf
  le _ h := absurd h List.not_mem_nil
  ordered := List.Pairwise.nil
  lead _ _ h := absurd h (by simp [State.init])
  stable _ h := absurd h List.not_mem_nil

section

variable (h : SnapshotInv s)

include h

theorem SnapshotInv.smallestSnapshot_le {snapshot : Snapshot} (hmem : snapshot ∈ s.snapshots) :
    s.smallestSnapshot ≤ snapshot.number := by
  have hordered := h.ordered
  unfold State.smallestSnapshot
  cases hs : s.snapshots with
  | nil =>
    rw [hs] at hmem
    exact absurd hmem List.not_mem_nil
  | cons first others =>
    rw [hs] at hmem hordered
    rcases List.mem_cons.mp hmem with rfl | hmem
    · exact le_rfl
    · exact (List.pairwise_cons.mp hordered).1 snapshot hmem

theorem SnapshotInv.smallestSnapshot_le_last : s.smallestSnapshot ≤ s.lastSequence := by
  unfold State.smallestSnapshot
  cases hs : s.snapshots with
  | nil => exact le_rfl
  | cons first others => exact h.le first (hs ▸ List.mem_cons_self)

/-! ## Writes, snapshots and new memtables -/

theorem write_snapshotInv {type : ValueType} {userKey value : Slice}
    (hseq : s.lastSequence < maxSequenceNumber) (hkey : 8 ≤ userKey.length) :
    SnapshotInv (s.write type userKey value) where
  wf := write_wf h.wf hseq hkey
  le snapshot hmem := (h.le snapshot hmem).trans (Nat.le_succ _)
  ordered := h.ordered
  lead := h.lead
  stable snapshot hmem userKey' :=
    (get_write h.wf hseq hkey (h.le snapshot hmem) userKey').trans (h.stable snapshot hmem userKey')

theorem getSnapshot_snapshotInv :
    SnapshotInv { s with snapshots := s.snapshots ++ [⟨s.lastSequence, s.get none⟩] } := by
  refine ⟨h.wf.withSnapshots _, fun snapshot hmem => ?_, ?_, h.lead,
    fun snapshot hmem userKey => ?_⟩
  · rcases List.mem_append.mp hmem with hmem | hmem
    · exact h.le snapshot hmem
    · rw [List.mem_singleton.mp hmem]
  · rw [List.pairwise_append]
    refine ⟨h.ordered, List.pairwise_singleton _ _, fun a ha b hb => ?_⟩
    rw [List.mem_singleton.mp hb]
    exact h.le a ha
  · rcases List.mem_append.mp hmem with hmem | hmem
    · exact h.stable snapshot hmem userKey
    · rw [List.mem_singleton.mp hmem]
      rfl

theorem releaseSnapshot_snapshotInv (i : ℕ) :
    SnapshotInv { s with snapshots := s.snapshots.eraseIdx i } := by
  have hsub : (s.snapshots.eraseIdx i).Sublist s.snapshots := List.eraseIdx_sublist ..
  exact ⟨h.wf.withSnapshots _, fun snapshot hmem => h.le snapshot (hsub.subset hmem),
    h.ordered.sublist hsub, h.lead, fun snapshot hmem => h.stable snapshot (hsub.subset hmem)⟩

theorem newMemTable_snapshotInv {newLog : Bool} (hrange : s.nextFile < noFile)
    (hstep : step s (.newMemTable newLog) = some s') : SnapshotInv s' := by
  have hwf' := newMemTable_wf h.wf hrange hstep
  obtain ⟨hsnapshots, hlast, hindex, htables⟩ : s'.snapshots = s.snapshots ∧
      s'.lastSequence = s.lastSequence ∧ s'.index = s.index ∧ s'.tables = s.tables := by
    obtain ⟨-, rfl⟩ := newMemTable_cases hstep
    exact ⟨rfl, rfl, rfl, rfl⟩
  refine ⟨hwf', ?_, hsnapshots ▸ h.ordered, ?_, fun snapshot hmem userKey => ?_⟩
  · rw [hsnapshots, hlast]
    exact h.le
  · rw [hindex, htables]
    exact h.lead
  · rw [hsnapshots] at hmem
    rw [get_newMemTable h.wf hwf' hstep (h.le snapshot hmem)]
    exact h.stable snapshot hmem userKey

end

/-! ## Flushes -/

theorem read_of_ne_value {e : Entry} (h : e.type ≠ .value) : e.read = .error (.notFound "") := by
  unfold Entry.read
  cases htype : e.type with
  | value => exact absurd htype h
  | deletion => rfl

/-- What is shown of a key in the file of a flush: the version that the memtable shows, or
nothing. -/
theorem readOr_buildTable {imm : List Entry} {userKey : Slice} {S : ℕ} {e : Entry} (h : Wf s)
    (himm : Part s imm) (hfind : findEntry imm userKey S = some e)
    (hvalue : e.type = .value → ∀ e' ∈ imm, e'.userKey = userKey → e'.sequence ≤ S) :
    readOr (findEntry (buildTable [] imm) userKey S) = e.read := by
  have hpart := himm.sublist (himm.buildTable_sublist h)
  have hshows := (himm.find_eq_some_iff h).mp hfind
  by_cases htype : e.type = .value
  · have hfile : findEntry (buildTable [] imm) userKey S = some e :=
      (hpart.find_eq_some_iff h).mpr ((himm.shows_buildTable_iff h).mpr ⟨hshows, hvalue htype⟩)
    rw [hfile]
    rfl
  · rw [read_of_ne_value htype]
    cases hfile : findEntry (buildTable [] imm) userKey S with
    | none => rfl
    | some a =>
      have ha := ((himm.shows_buildTable_iff h).mp ((hpart.find_eq_some_iff h).mp hfile)).1
      obtain rfl : e = a := Option.some.inj (hfind.symm.trans ((himm.find_eq_some_iff h).mpr ha))
      exact read_of_ne_value htype

/-- **A flush that keeps what the snapshots read** does not change it. -/
theorem get_flush {lost : List ℕ} (h : SnapshotInv s) (h' : Wf s')
    (hkeeps : s.Keeps (.flush lost)) (hstep : s.flush lost = some s') {snapshot : Snapshot}
    (hmem : snapshot ∈ s.snapshots) (userKey : Slice) :
    s'.get (some snapshot.number) userKey = s.get (some snapshot.number) userKey := by
  have hwf := h.wf
  have hS := h.le snapshot hmem
  obtain ⟨imm, himm, hmem', himm', -, -, -, hlast, -, -⟩ := flush_cases hstep
  have hkeep := hkeeps imm himm
  have himmPart := hwf.imm imm himm
  rw [hwf.get_eq userKey hS, h'.get_eq userKey (hlast.symm ▸ hS), hmem', himm', himm]
  cases findEntry s.mem userKey snapshot.number with
  | some e => rfl
  | none =>
    have hnil : findEntry [] userKey snapshot.number = none := rfl
    dsimp only [Option.getD_some, Option.getD_none]
    rw [hnil]
    dsimp only
    cases hfind : findEntry imm userKey snapshot.number with
    | some e =>
      have hshows := (himmPart.find_eq_some_iff hwf).mp hfind
      have hkey := hshows.key_eq
      rw [versionGet_flush_moved hwf h' hstep himm hS ⟨e, hshows.mem, by rw [hkey]⟩,
        if_neg hkeep.noneLost.1]
      refine readOr_buildTable hwf himmPart hfind fun htype e' he' hek => ?_
      exact hkeep.fromMem snapshot hmem e htype (hkey.symm ▸ hshows) e' he' (hek.trans hkey.symm)
    | none =>
      have hnone := (himmPart.find_eq_none_iff hwf).mp hfind
      by_cases hmoved : ∃ e ∈ imm, fastAtoi e.userKey = fastAtoi userKey
      · -- the key is looked for in the new file now, where it is not shown
        have hfile : findEntry (buildTable [] imm) userKey snapshot.number = none := by
          have hsub := himmPart.buildTable_sublist hwf
          rw [(himmPart.sublist hsub).find_eq_none_iff hwf]
          exact fun e he => hnone e (hsub.subset he)
        rw [versionGet_flush_moved hwf h' hstep himm hS hmoved, if_neg hkeep.noneLost.1, hfile]
        cases hindex : s.index (fastAtoi userKey) with
        | none => exact (hwf.versionGet_of_none hS hindex).symm
        | some f =>
          obtain ⟨table, htable, -⟩ := h.lead _ f hindex
          have hpart := (hwf.tables f table htable).1
          rw [hwf.versionGet_of_table hS hindex htable]
          cases hold : findEntry table userKey snapshot.number with
          | none => rfl
          | some e =>
            have hshows := (hpart.find_eq_some_iff hwf).mp hold
            obtain rfl := hshows.key_eq
            refine (read_of_ne_value fun htype => ?_).symm
            obtain ⟨e', he', heq⟩ := hmoved
            exact hkeep.fromFile snapshot hmem e f table htype hindex htable hshows hnone e' he' heq
      · push Not at hmoved
        rw [versionGet_flush_other hwf h' hstep himm hS hmoved, if_neg]
        rintro ⟨f, hf, hindex⟩
        exact hkeep.noneLost.2 _ f hindex hf

theorem flush_snapshotInv {lost : List ℕ} (h : SnapshotInv s) (hrange : s.nextFile < noFile)
    (hkeeps : s.Keeps (.flush lost)) (hstep : s.flush lost = some s') : SnapshotInv s' := by
  have hwf := h.wf
  have hwf' := flush_wf hwf hrange hstep
  obtain ⟨imm, himm, -, -, htables, hindex, hsnapshots, hlast, -, -⟩ := flush_cases hstep
  have hlost := (hkeeps imm himm).noneLost
  refine ⟨hwf', by rw [hsnapshots, hlast]; exact h.le, hsnapshots ▸ h.ordered,
    fun n f hf => ?_, fun snapshot hmem userKey => ?_⟩
  · rw [hindex] at hf
    by_cases hn : ∃ e ∈ buildTable [] imm, fastAtoi e.userKey = n
    · rw [assign_batch_of_mem _ hrange.le hn] at hf
      obtain rfl := Option.some.inj hf
      obtain ⟨e, he, heq⟩ := hn
      have hnonempty : (buildTable [] imm).isEmpty = false := by
        rw [List.isEmpty_eq_false_iff]
        exact List.ne_nil_of_mem he
      refine ⟨buildTable [] imm, ?_, e, he, heq⟩
      rw [htables, hnonempty, if_neg (by decide), removeFiles_eq_some]
      exact ⟨hlost.1, Function.update_self ..⟩
    · push Not at hn
      rw [assign_batch_of_forall_ne _ hn] at hf
      obtain ⟨table, htable, hentry⟩ := h.lead n f hf
      refine ⟨table, ?_, hentry⟩
      rw [htables, removeFiles_eq_some]
      refine ⟨hlost.2 n f hf, ?_⟩
      split_ifs
      · exact htable
      · rw [Function.update_of_ne (hwf.index n f hf).ne]
        exact htable
  · rw [hsnapshots] at hmem
    rw [get_flush h hwf' hkeeps hstep hmem]
    exact h.stable snapshot hmem userKey

/-! ## Compactions -/

section Compact

variable {inputs lost : List ℕ} {rounds : ℕ → Round}

theorem compact_cases (hstep : s.compact inputs rounds lost = some s') :
    (∀ f ∈ inputs, ∃ table, s.tables f = some table) ∧
    ∃ c, c = (Merge.loop inputs s.smallestSnapshot rounds 0 (merged s.tables inputs)
        (Merge.start s)).finish ∧ s'.mem = s.mem ∧ s'.imm = s.imm ∧
      s'.tables = removeFiles (inputs ++ lost) (assign s.tables c.outputs) ∧
      s'.index = assign c.index c.queue ∧ s'.snapshots = s.snapshots ∧
      s'.lastSequence = s.lastSequence ∧ s'.nextFile = c.nextFile ∧ s'.log = s.log := by
  unfold State.compact at hstep
  split_ifs at hstep with hinputs
  obtain rfl := Option.some.inj hstep
  refine ⟨fun f hf => ?_, _, rfl, rfl, rfl, rfl, rfl, rfl, rfl, rfl, rfl⟩
  exact Option.isSome_iff_exists.mp (List.all_eq_true.mp hinputs f hf)

theorem mem_merged {tables : ℕ → Option (List Entry)} {e : Entry} :
    e ∈ merged tables inputs ↔ ∃ f ∈ inputs, ∃ table, tables f = some table ∧ e ∈ table := by
  unfold merged
  rw [List.mem_insertionSort, List.mem_flatMap]
  refine exists_congr fun f => and_congr_right fun _ => ?_
  cases tables f with
  | none => simp
  | some table => simp

theorem merged_part (h : Wf s) (inputs : List ℕ) : Part s (merged s.tables inputs) := by
  refine ⟨List.pairwise_insertionSort Entry.Le _, fun e he => ?_⟩
  obtain ⟨f, -, table, htable, hmem⟩ := mem_merged.mp he
  exact (h.tables f table htable).1.logged e hmem

theorem compact_mergeInv (h : SnapshotInv s) (hrange : s.InRange (.compact inputs rounds lost))
    (hinputs : ∀ f ∈ inputs, ∃ table, s.tables f = some table)
    (hsplit : NoSplit rounds (merged s.tables inputs)) {c : Merge}
    (hc : c = (Merge.loop inputs s.smallestSnapshot rounds 0 (merged s.tables inputs)
        (Merge.start s)).finish) :
    MergeInv s inputs s.smallestSnapshot (merged s.tables inputs) [] c ∧ c.outputs = c.all ∧
      c.nextFile ≤ noFile := by
  have hwf := h.wf
  have hlt : ∀ f ∈ inputs, f < noFile := fun f hf => by
    obtain ⟨table, htable⟩ := hinputs f hf
    exact (hwf.tables f table htable).2.trans_le hwf.nextFile_le
  have hsorted : (merged s.tables inputs).Pairwise
      fun a b => a.userKey = b.userKey → b.sequence ≤ a.sequence :=
    ((merged_part hwf inputs).toSorted hwf).versions.imp fun hle heq => hle.seq_le heq
  have hloop := (start_mergeInv (s := s) (merged s.tables inputs)).loop hlt
    (h.smallestSnapshot_le_last.trans_lt hrange.1) hsorted hsplit
  rw [List.nil_append, List.length_nil] at hloop
  have hfinish := hloop.finish fun x _ y hy => absurd hy List.not_mem_nil
  rw [← hc] at hfinish
  refine ⟨hfinish, ?_, hfinish.nextFile_le.2.trans hrange.2.le⟩
  obtain ⟨hall, houtputs⟩ := Merge.all_finish
    (Merge.loop inputs s.smallestSnapshot rounds 0 (merged s.tables inputs) (Merge.start s))
  rw [hc, houtputs, hall]

/-- A compaction from `s` to `s'` with the variables `c` at the end of its loop. -/
structure Compacted (s s' : State) (inputs lost : List ℕ) (c : Merge) : Prop where
  merge : MergeInv s inputs s.smallestSnapshot (merged s.tables inputs) [] c
  all : c.outputs = c.all
  nextFile_le : c.nextFile ≤ noFile
  inputs_lt : ∀ f ∈ inputs, f < s.nextFile
  lost_lt : ∀ f ∈ lost, f < s.nextFile ∧ ∀ n, s.index n ≠ some f
  mem : s'.mem = s.mem
  imm : s'.imm = s.imm
  tables : s'.tables = removeFiles (inputs ++ lost) (assign s.tables c.outputs)
  index : s'.index = assign c.index c.queue
  snapshots : s'.snapshots = s.snapshots
  lastSequence : s'.lastSequence = s.lastSequence
  nextFile : s'.nextFile = c.nextFile
  log : s'.log = s.log

theorem compacted_of_step (h : SnapshotInv s) (hrange : s.InRange (.compact inputs rounds lost))
    (hkeeps : CompactKeeps s inputs rounds lost)
    (hstep : s.compact inputs rounds lost = some s') : ∃ c, Compacted s s' inputs lost c := by
  obtain ⟨hinputs, c, hc, hmem, himm, htables, hindex, hsnapshots, hlast, hnext, hlog⟩ :=
    compact_cases hstep
  obtain ⟨hmerge, hall, hle⟩ := compact_mergeInv h hrange hinputs hkeeps.noSplit hc
  refine ⟨c, hmerge, hall, hle, fun f hf => ?_, hkeeps.noneLost, hmem, himm, htables, hindex,
    hsnapshots, hlast, hnext, hlog⟩
  obtain ⟨table, htable⟩ := hinputs f hf
  exact (h.wf.tables f table htable).2

namespace Compacted

variable {c : Merge} {o : ℕ × List Entry}

section

variable (h : Compacted s s' inputs lost c)

include h

theorem table_output (ho : o ∈ c.outputs) : s'.tables o.1 = some o.2 := by
  have hge := (h.merge.numbers o (h.all ▸ ho)).1
  rw [h.tables, removeFiles_eq_some]
  constructor
  · intro hmem
    rcases List.mem_append.mp hmem with hmem | hmem
    · exact absurd (h.inputs_lt _ hmem) (not_lt.mpr hge)
    · exact absurd (h.lost_lt _ hmem).1 (not_lt.mpr hge)
  · obtain ⟨entries, hmem, heq⟩ := assign_of_mem (k := o.1) ⟨o, ho, rfl⟩ s.tables
    by_cases hsame : o = (o.1, entries)
    · rw [heq, hsame]
    · exact absurd rfl (h.merge.apart_of_ne (h.all ▸ ho) (h.all ▸ hmem) hsame).1

theorem table_old {f : ℕ} (hf : f < s.nextFile) (hinputs : f ∉ inputs) (hlost : f ∉ lost) :
    s'.tables f = s.tables f := by
  have hassign : assign s.tables c.outputs f = s.tables f := by
    refine assign_of_forall_ne (fun o ho => ?_) _
    exact (hf.trans_le (h.merge.numbers o (h.all ▸ ho)).1).ne'
  rw [h.tables]
  unfold removeFiles
  rw [if_neg (by simp [hinputs, hlost]), hassign]

theorem index_of_not_input {n : ℕ} (hn : ∀ f, s.index n = some f → f ∉ inputs) :
    s'.index n = s.index n := by
  rw [h.index]
  refine h.merge.index_other fun x hx => ?_
  rintro rfl
  obtain ⟨f, hf, hindex⟩ := h.merge.input x hx
  exact hn f hindex hf

theorem index_of_input (hs : SnapshotInv s) {n f : ℕ} (hindex : s.index n = some f)
    (hf : f ∈ inputs) :
    ∃ o ∈ c.outputs, s'.index n = some o.1 ∧ ∃ x ∈ o.2, fastAtoi x.userKey = n := by
  obtain ⟨table, htable, e, he, rfl⟩ := hs.lead n f hindex
  obtain ⟨o, ho, hx⟩ := h.merge.exists_output h.all (mem_merged.mpr ⟨f, hf, table, htable, he⟩)
    ⟨f, hf, hindex⟩
  refine ⟨o, ho, ?_, hx⟩
  rw [h.index, h.merge.index_moved h.all h.nextFile_le ho hx]

theorem wf (hs : Wf s) : Wf s' := by
  have hpart : ∀ {entries}, Part s entries → Part s' entries := fun hp =>
    hp.of_log fun e he => h.log ▸ he
  have hnext : s.nextFile ≤ s'.nextFile := h.nextFile ▸ h.merge.nextFile_le.1
  have hout : ∀ o ∈ c.outputs, Part s' o.2 ∧ o.1 < s'.nextFile := by
    intro o ho
    have hmem : o ∈ c.all := h.all ▸ ho
    refine ⟨hpart ((merged_part hs inputs).sublist (List.Sublist.trans ?_ h.merge.sublist)),
      h.nextFile ▸ (h.merge.numbers o hmem).2⟩
    unfold Merge.kept
    rw [List.flatMap_def]
    exact List.sublist_flatten_of_mem (List.mem_map_of_mem hmem)
  refine ⟨h.lastSequence ▸ hs.lastSequence_le, h.log ▸ h.lastSequence ▸ hs.log_le,
    h.log ▸ hs.log_key, h.log ▸ hs.log_inj, h.mem ▸ hpart hs.mem,
    fun imm himm => hpart (hs.imm imm (h.imm ▸ himm)), fun f table hf => ?_, fun n f hf => ?_,
    h.nextFile ▸ h.nextFile_le⟩
  · rw [h.tables, removeFiles_eq_some] at hf
    rcases assign_eq_some hf.2 with hmem | ⟨-, hold⟩
    · exact hout (f, table) hmem
    · obtain ⟨htable, hlt⟩ := hs.tables f table hold
      exact ⟨hpart htable, hlt.trans_le hnext⟩
  · rw [h.index, h.merge.target] at hf
    rcases assign_eq_some hf with hmem | ⟨-, hold⟩
    · obtain ⟨o, ho, hb⟩ := List.mem_flatMap.mp hmem
      rw [(mem_batch.mp hb).2]
      exact (Nat.mod_le _ _).trans_lt (hout o ho).2
    · exact (hs.index n f hold).trans_le hnext

theorem lead (hs : SnapshotInv s) {n f : ℕ} (hf : s'.index n = some f) :
    ∃ table, s'.tables f = some table ∧ ∃ e ∈ table, fastAtoi e.userKey = n := by
  by_cases hn : ∃ f₀ ∈ inputs, s.index n = some f₀
  · obtain ⟨f₀, hf₀, hindex⟩ := hn
    obtain ⟨o, ho, hto, hx⟩ := h.index_of_input hs hindex hf₀
    obtain rfl : o.1 = f := Option.some.inj (hto.symm.trans hf)
    exact ⟨o.2, h.table_output ho, hx⟩
  · push Not at hn
    rw [h.index_of_not_input fun f₀ hindex hf₀ => hn f₀ hf₀ hindex] at hf
    obtain ⟨table, htable, hx⟩ := hs.lead n f hf
    refine ⟨table, ?_, hx⟩
    rw [h.table_old (hs.wf.index n f hf) (fun hmem => hn f hmem hf)
      fun hmem => (h.lost_lt f hmem).2 n hf, htable]

/-- **A compaction that keeps what the snapshots read** does not change what is read from a
file. -/
theorem versionGet_eq (hs : SnapshotInv s) (hkeeps : CompactKeeps s inputs rounds lost)
    {snapshot : Snapshot} (hmem : snapshot ∈ s.snapshots) (userKey : Slice) :
    s'.versionGet userKey snapshot.number = s.versionGet userKey snapshot.number := by
  have hwf := hs.wf
  have hwf' := h.wf hwf
  have hS := hs.le snapshot hmem
  have hS' : snapshot.number ≤ s'.lastSequence := h.lastSequence.symm ▸ hS
  cases hindex : s.index (fastAtoi userKey) with
  | none =>
    have hindex' : s'.index (fastAtoi userKey) = none := by
      rw [h.index_of_not_input fun f hf => absurd (hf.symm.trans hindex) (by simp), hindex]
    rw [hwf.versionGet_of_none hS hindex, hwf'.versionGet_of_none hS' hindex']
  | some f =>
    obtain ⟨table, htable, -⟩ := hs.lead _ f hindex
    have htablePart := (hwf.tables f table htable).1
    rw [hwf.versionGet_of_table hS hindex htable]
    by_cases hf : f ∈ inputs
    · obtain ⟨o, ho, hto, hx⟩ := h.index_of_input hs hindex hf
      rw [hwf'.versionGet_of_table hS' hto (h.table_output ho)]
      have hopart : Part s o.2 :=
        (hwf'.tables o.1 o.2 (h.table_output ho)).1.of_log fun e he => h.log ▸ he
      have hmergedPart := merged_part hwf inputs
      -- the output shows what all inputs show
      have hfind : findEntry o.2 userKey snapshot.number =
          findEntry (merged s.tables inputs) userKey snapshot.number :=
        hopart.find_congr hmergedPart hwf fun e => h.merge.shows_output_iff h.all
          (hmergedPart.inj hwf) ⟨f, hf, hindex⟩ ho hx (hs.smallestSnapshot_le hmem)
      have hsub : ∀ e ∈ table, e ∈ merged s.tables inputs := fun e he =>
        mem_merged.mpr ⟨f, hf, table, htable, he⟩
      rw [hfind]
      cases hshown : findEntry (merged s.tables inputs) userKey snapshot.number with
      | some e =>
        have hmerged := (hmergedPart.find_eq_some_iff hwf).mp hshown
        obtain rfl := hmerged.key_eq
        rcases hkeeps.noStale snapshot hmem e f table hindex hf htable hmerged with
          hin | ⟨htype, hnone⟩
        · have htableShows : Shows table e.userKey snapshot.number e :=
            ⟨hin, rfl, hmerged.le, fun b hb => hmerged.newest b (hsub b hb)⟩
          rw [(htablePart.find_eq_some_iff hwf).mpr htableShows]
        · rw [(htablePart.find_eq_none_iff hwf).mpr hnone]
          exact read_of_ne_value (by rw [htype]; decide)
      | none =>
        have hnone := (hmergedPart.find_eq_none_iff hwf).mp hshown
        rw [(htablePart.find_eq_none_iff hwf).mpr fun e he => hnone e (hsub e he)]
    · have hindex' : s'.index (fastAtoi userKey) = some f := by
        rw [h.index_of_not_input fun f' hf' => Option.some.inj (hindex.symm.trans hf') ▸ hf, hindex]
      have htable' : s'.tables f = some table := by
        rw [h.table_old (hwf.index _ f hindex) hf fun hlost => (h.lost_lt f hlost).2 _ hindex,
          htable]
      rw [hwf'.versionGet_of_table hS' hindex' htable']

end

end Compacted

theorem compact_snapshotInv (h : SnapshotInv s) (hrange : s.InRange (.compact inputs rounds lost))
    (hkeeps : CompactKeeps s inputs rounds lost)
    (hstep : s.compact inputs rounds lost = some s') : SnapshotInv s' := by
  obtain ⟨c, hc⟩ := compacted_of_step h hrange hkeeps hstep
  have hwf' := hc.wf h.wf
  refine ⟨hwf', by rw [hc.snapshots, hc.lastSequence]; exact h.le, hc.snapshots ▸ h.ordered,
    fun n f hf => hc.lead h hf, fun snapshot hmem userKey => ?_⟩
  rw [hc.snapshots] at hmem
  have hS := h.le snapshot hmem
  rw [← h.stable snapshot hmem userKey, h.wf.get_eq userKey hS,
    hwf'.get_eq userKey (hc.lastSequence.symm ▸ hS), hc.mem, hc.imm,
    hc.versionGet_eq h hkeeps hmem userKey]

end Compact

/-! ## Runs -/

theorem step_snapshotInv (s : State) (a : Step) (s' : State) (h : SnapshotInv s)
    (hok : s.InRange a ∧ s.Keeps a) (hstep : step s a = some s') : SnapshotInv s' := by
  cases a with
  | put userKey value =>
    obtain rfl := Option.some.inj hstep
    exact write_snapshotInv h hok.1.1 hok.1.2
  | delete userKey =>
    obtain rfl := Option.some.inj hstep
    exact write_snapshotInv h hok.1.1 hok.1.2
  | getSnapshot =>
    obtain rfl := Option.some.inj hstep
    exact getSnapshot_snapshotInv h
  | releaseSnapshot i =>
    obtain rfl := Option.some.inj hstep
    exact releaseSnapshot_snapshotInv h i
  | newMemTable newLog => exact newMemTable_snapshotInv h hok.1 hstep
  | flush lost => exact flush_snapshotInv h hok.1 hok.2 hstep
  | compact inputs rounds lost => exact compact_snapshotInv h hok.1 hok.2 hstep

/-- **Snapshot reads are stable** in every run of writes, snapshots, flushes and compactions
that meets the condition. Every initial segment of the run is such a run. -/
theorem stable_of_keeps {steps : List Step}
    (hsteps : Meets step (fun s a => s.InRange a ∧ s.Keeps a) State.init steps)
    (hs : runFrom step State.init steps = some s) : Stable s := by
  have hinv : SnapshotInv s := runFrom_invariant step_snapshotInv init_snapshotInv hsteps hs
  exact hinv.stable

/-- The user key `00000001`. -/
def keyOne : Slice := [48, 48, 48, 48, 48, 48, 48, 49]

/-- A value is flushed and compacted under a snapshot. -/
def flushAndCompact : List Step :=
  [.put keyOne [1], .getSnapshot, .newMemTable false, .flush [],
    .compact [2] (fun _ => ⟨0, false⟩) []]

theorem stable_of_keeps_flushAndCompact :
    ∃ s, runFrom step State.init flushAndCompact = some s ∧ s.snapshots.length = 1 ∧
      Stable s := by
  obtain ⟨s, hs, hlength⟩ : ∃ s, runFrom step State.init flushAndCompact = some s ∧
      s.snapshots.length = 1 := ⟨_, rfl, rfl⟩
  refine ⟨s, hs, hlength, stable_of_keeps ?_ hs⟩
  refine ⟨⟨⟨by decide, by decide⟩, trivial⟩, fun s₁ h₁ => ?_⟩
  obtain rfl := Option.some.inj h₁
  refine ⟨⟨trivial, trivial⟩, fun s₂ h₂ => ?_⟩
  obtain rfl := Option.some.inj h₂
  have hfile : 2 < noFile := by decide
  refine ⟨⟨hfile, trivial⟩, fun s₃ h₃ => ?_⟩
  obtain rfl := Option.some.inj h₃
  refine ⟨⟨hfile, fun imm himm => ?_⟩, fun s₄ h₄ => ?_⟩
  · obtain rfl := Option.some.inj himm
    refine ⟨⟨List.not_mem_nil, fun _ _ _ => List.not_mem_nil⟩,
      fun snapshot hmem e _ _ e' he' _ => ?_,
      fun _ _ _ _ _ _ hindex => absurd hindex (by simp [State.init, State.write])⟩
    -- the memtable has one entry, and the snapshot has its number
    obtain rfl := List.mem_singleton.mp hmem
    obtain rfl := List.mem_singleton.mp he'
    exact le_rfl
  · obtain rfl := Option.some.inj h₄
    have hrange : 0 + 1 < maxSequenceNumber := by decide
    refine ⟨⟨⟨hrange, ?_⟩, ⟨fun _ h => absurd h List.not_mem_nil,
      fun m hfull => absurd hfull (by simp), ?_⟩⟩, fun _ _ => trivial⟩
    · decide +kernel
    · intro snapshot hmem e f table _ hf htable hshows
      obtain ⟨f', hf', table', htable', he⟩ := mem_merged.mp hshows.mem
      obtain rfl : f = f' := (List.mem_singleton.mp hf).trans (List.mem_singleton.mp hf').symm
      exact Or.inl (Option.some.inj (htable.symm.trans htable') ▸ he)

/-- A key is written twice with a snapshot between, and flushed. -/
def overwriteUnderSnapshot : List Step :=
  [.put keyOne [1], .getSnapshot, .put keyOne [2], .newMemTable false, .flush []]

/-- **A flush drops the version of a snapshot.** `BuildTable` writes the second version only,
and the read at the snapshot finds nothing. -/
theorem flush_drops_snapshot_version :
    ∃ s, runFrom step State.init overwriteUnderSnapshot = some s ∧
      ∃ snapshot ∈ s.snapshots, snapshot.reads keyOne = .ok [1] ∧
        s.get (some snapshot.number) keyOne = .error (.notFound "") :=
  ⟨_, rfl, _, List.mem_cons_self, by decide +kernel, by decide +kernel⟩

end McfKv.DBImpl
