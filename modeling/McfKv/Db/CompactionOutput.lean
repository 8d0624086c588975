import McfKv.Db.BuildTable
import McfKv.Db.MergeLoop
import McfKv.Db.Separator
import McfKv.Table.Merger

/-!
# What a compaction writes (`DBImpl::DoCompactionWork` in `db/db_impl.cc`)

`McfKv.Db.DBImpl` has the loop of a compaction as far as reads depend on it: where an output ends is
left open, and an output is a file number with its entries. This module has the loop with its
outputs as the source keeps them, over the records of the input tables:

* the input is what the merging iterator over the tables shows (`McfKv.Table.Merger`);
* an output is finished when the size of its table file reaches the limit, where the size is that of
  the table builder;
* an output records its smallest and largest key and the number of its entries;
* before each round, other threads may take file numbers.

There are no errors here, no shutdown, and the index does not change.

`compaction_output_spec` says what the outputs hold: of each user key that the index has in an input,
the newest entry. `doCompactionWork_refines` says that the loop is one of those that
`McfKv.Db.DBImpl` allows.
-/

namespace McfKv.DBImpl

open Coding

/-! ## The loop -/

/-- `struct CompactionState::Output`, with the records that have been added to its table. -/
structure OutputFile where
  number : ℕ
  fileSize : ℕ
  total : ℕ
  alive : ℕ
  smallest : InternalKey
  largest : InternalKey
  records : List (Slice × Slice)

/-- The builder of an output. -/
def OutputFile.builder (o : TableOptions) (f : OutputFile) : TableBuilder :=
  (TableBuilder.new o).addAll o f.number f.records

/-- An output before its first entry. -/
def OutputFile.new (number : ℕ) : OutputFile := ⟨number, 0, 0, 0, ⟨[]⟩, ⟨[]⟩, []⟩

/-- The entry is added, and the keys of the output are kept up to date. -/
def OutputFile.add (o : TableOptions) (f : OutputFile) (record : Slice × Slice) : OutputFile :=
  { f with
    smallest := if (f.builder o).numEntries = 0 then .decodeFrom record.1 else f.smallest
    largest := .decodeFrom record.1
    records := f.records ++ [record] }

/-- `FinishCompactionOutputFile`. -/
def OutputFile.finish (o : TableOptions) (f : OutputFile) : OutputFile :=
  { f with
    fileSize := ((f.builder o).finish o).offset
    total := (f.builder o).numEntries
    alive := (f.builder o).numEntries }

/-- The variables of `DoCompactionWork`. While a builder is open, its output is the last element of
the vector `outputs` of the source; here it is `current`. -/
structure Work where
  currentUserKey : Option Slice
  lastSequenceForKey : ℕ
  outputs : List OutputFile
  current : Option OutputFile
  nextFile : ℕ

/-- The variables before the loop. -/
def Work.start (nextFile : ℕ) : Work := ⟨none, maxSequenceNumber, [], none, nextFile⟩

/-- `OpenCompactionOutputFile`, if there is no builder. -/
def Work.open (w : Work) : Work × OutputFile :=
  match w.current with
  | some f => (w, f)
  | none => ({ w with nextFile := w.nextFile + 1 }, .new w.nextFile)

/-- The record is written; the output is finished if it is big enough. -/
def Work.keep (o : TableOptions) (maxOutputFileSize : ℕ) (w : Work) (record : Slice × Slice) :
    Work :=
  let opened := w.open
  let f := opened.2.add o record
  if maxOutputFileSize ≤ (f.builder o).offset then
    { opened.1 with outputs := w.outputs ++ [f.finish o], current := none }
  else { opened.1 with current := some f }

/-- The part of a round that depends on `ParseInternalKey`: the variables after it, and `drop`. -/
def Work.look (smallestSnapshot : ℕ) (w : Work) (key : Slice) : Work × Bool :=
  match parseInternalKey key with
  | none => ({ w with currentUserKey := none, lastSequenceForKey := maxSequenceNumber }, false)
  | some (userKey, sequence, _) =>
    let lastSequenceForKey :=
      if w.currentUserKey = some userKey then w.lastSequenceForKey else maxSequenceNumber
    ({ w with currentUserKey := some userKey, lastSequenceForKey := sequence },
      decide (lastSequenceForKey ≤ smallestSnapshot))

/-- What a compaction is given: the options, `max_output_file_size_`, the numbers of the inputs, the
index, and `smallest_snapshot`. -/
structure WorkParams where
  options : TableOptions
  maxOutputFileSize : ℕ
  inputs : List ℕ
  index : Slice → ℕ
  smallestSnapshot : ℕ

/-- One round of the loop, before which other threads have taken some file numbers. -/
def Work.round (P : WorkParams) (taken : ℕ) (w : Work) (record : Slice × Slice) : Work :=
  let looked := look P.smallestSnapshot { w with nextFile := w.nextFile + taken } record.1
  let drop := looked.2 || !P.inputs.contains (P.index (extractUserKey record.1))
  if drop then looked.1 else looked.1.keep P.options P.maxOutputFileSize record

/-- The loop from its `i`-th round on. -/
def Work.loop (P : WorkParams) (taken : ℕ → ℕ) : ℕ → List (Slice × Slice) → Work → Work
  | _, [], w => w
  | i, record :: records, w => loop P taken (i + 1) records (w.round P (taken i) record)

/-- The output that is open after the loop is finished. -/
def Work.finish (o : TableOptions) (w : Work) : List OutputFile :=
  w.outputs ++ (w.current.map (OutputFile.finish o)).toList

/-- An input of a compaction: a table has its entries in order. -/
structure InputTable where
  number : ℕ
  entries : List Entry
  sorted : entries.Pairwise Entry.Le

/-- The entries of all inputs. -/
def inputEntries (tables : List InputTable) : List Entry := tables.flatMap InputTable.entries

/-- The records of the inputs, which are the children of the merging iterator. -/
def inputRecords (tables : List InputTable) (i : Fin tables.length) : List (Slice × Slice) :=
  (tables.get i).entries.map Entry.record

/-- The records that the loop reads from `MakeInputIterator`: it calls `SeekToFirst`, and then `Next`
for as long as the iterator is valid. -/
def makeInputIterator (tables : List InputTable) : List (Slice × Slice) :=
  ((MergingIterator.new fun _ => none).seekToFirst internalKeyCompare (inputRecords tables)).elim []
    (MergingIterator.scan internalKeyCompare (inputRecords tables) (inputEntries tables).length)

/-- `DBImpl::DoCompactionWork` up to the installation of its results: the outputs, in order.
`snapshots` are the sequence numbers of the live snapshots. -/
def doCompactionWork (o : TableOptions) (maxOutputFileSize : ℕ) (tables : List InputTable)
    (index : Slice → ℕ) (snapshots : List ℕ) (lastSequence : ℕ) (taken : ℕ → ℕ) (nextFile : ℕ) :
    List OutputFile :=
  let P : WorkParams :=
    { options := o
      maxOutputFileSize := maxOutputFileSize
      inputs := tables.map InputTable.number
      index := index
      smallestSnapshot := snapshots.head?.getD lastSequence }
  (Work.loop P taken 0 (makeInputIterator tables) (Work.start nextFile)).finish o

/-! ## The input -/

variable {a b e : Entry} {f : OutputFile} {tables : List InputTable}

/-- The entries of all inputs, in order. -/
def sortedInput (tables : List InputTable) : List Entry :=
  (inputEntries tables).insertionSort Entry.Le

theorem sortedInput_perm (tables : List InputTable) :
    (sortedInput tables).Perm (inputEntries tables) := List.perm_insertionSort _ _

theorem sortedInput_sorted (tables : List InputTable) : (sortedInput tables).Pairwise Entry.Le :=
  List.pairwise_insertionSort _ _

theorem Entry.eq_of_compare_eq (h : internalKeyCompare a.internalKey b.internalKey = .eq) :
    a.internalKey = b.internalKey :=
  (internalKeyCompare_eq_iff (by rw [Entry.length_internalKey]; omega)
    (by rw [Entry.length_internalKey]; omega)).mp h

theorem ascending_records {entries : List Entry} (hsorted : entries.Pairwise Entry.Le)
    (hdistinct : (entries.map Entry.internalKey).Nodup) :
    Cursor.Ascending internalKeyCompare (entries.map Entry.record) := by
  refine List.pairwise_map.mpr ((hsorted.and (List.pairwise_map.mp hdistinct)).imp ?_)
  rintro a b ⟨hle, hne⟩
  change internalKeyCompare a.internalKey b.internalKey = .lt
  cases hcmp : internalKeyCompare a.internalKey b.internalKey with
  | lt => rfl
  | eq => exact absurd (Entry.eq_of_compare_eq hcmp) hne
  | gt => exact absurd hcmp hle

/-- The sorted entries are the union that the merging iterator goes through. -/
theorem isUnion_sortedInput (hdistinct : ((inputEntries tables).map Entry.internalKey).Nodup) :
    MergingIterator.IsUnion internalKeyCompare (inputRecords tables)
      ((sortedInput tables).map Entry.record) := by
  have hkeys := hdistinct
  rw [inputEntries, List.map_flatMap, List.nodup_flatMap] at hkeys
  obtain ⟨hnodup, hapart⟩ := hkeys
  refine ⟨fun i => ?_, fun i j p q hp hq heq => ?_, ?_, fun p => ?_⟩
  · exact ascending_records (tables.get i).sorted (hnodup _ (List.get_mem tables i))
  · obtain ⟨a, ha, rfl⟩ := List.mem_map.mp hp
    obtain ⟨b, hb, rfl⟩ := List.mem_map.mp hq
    have hkey : a.internalKey = b.internalKey := Entry.eq_of_compare_eq heq
    have ha' : a.internalKey ∈ (tables.get i).entries.map Entry.internalKey :=
      List.mem_map_of_mem ha
    have hb' : a.internalKey ∈ (tables.get j).entries.map Entry.internalKey :=
      hkey ▸ List.mem_map_of_mem hb
    -- a key that two tables have would be there twice
    rcases lt_trichotomy i j with hij | hij | hij
    · exact absurd hb' (List.pairwise_iff_get.mp hapart i j hij ha')
    · exact hij
    · exact absurd ha' (List.pairwise_iff_get.mp hapart j i hij hb')
  · refine ascending_records (sortedInput_sorted tables) ?_
    exact ((sortedInput_perm tables).map _).nodup_iff.mpr hdistinct
  · simp only [List.mem_map, (sortedInput_perm tables).mem_iff, inputEntries, List.mem_flatMap,
      inputRecords]
    constructor
    · rintro ⟨e, ⟨t, ht, he⟩, rfl⟩
      obtain ⟨i, rfl⟩ := List.get_of_mem ht
      exact ⟨i, e, he, rfl⟩
    · rintro ⟨i, e, he, rfl⟩
      exact ⟨e, ⟨_, List.get_mem tables i, he⟩, rfl⟩

/-- **The loop reads the entries of the inputs in order.** -/
theorem makeInputIterator_eq (hdistinct : ((inputEntries tables).map Entry.internalKey).Nodup) :
    makeInputIterator tables = (sortedInput tables).map Entry.record := by
  have h := isUnion_sortedInput hdistinct
  obtain ⟨m, hfirst, hm⟩ := h.seekToFirst_related (.new fun _ => none)
  unfold makeInputIterator
  rw [hfirst, Option.elim_some]
  refine h.scan_eq _ (List.nil_append _).symm hm ?_
  rw [List.length_map, (sortedInput_perm tables).length_eq]

/-! ## The outputs -/

/-- The keys of an output are those of its first and its last entry. -/
structure OutputFile.Keyed (f : OutputFile) : Prop where
  smallest : f.records.head?.map Prod.fst = some f.smallest.encode
  largest : f.records.getLast?.map Prod.fst = some f.largest.encode

/-- What an output records matches its entries. -/
structure OutputFile.Matches (o : TableOptions) (f : OutputFile) : Prop extends f.Keyed where
  total : f.total = f.records.length
  alive : f.alive = f.records.length
  fileSize : f.fileSize = ((f.builder o).finish o).offset

theorem OutputFile.builder_numEntries (o : TableOptions) (f : OutputFile) :
    (f.builder o).numEntries = f.records.length := by
  unfold builder
  rw [TableBuilder.addAll_numEntries]
  exact Nat.zero_add _

theorem OutputFile.add_keyed (o : TableOptions) (h : f.records = [] ∨ f.Keyed)
    (record : Slice × Slice) : (f.add o record).Keyed := by
  refine ⟨?_, by simp [add, InternalKey.encode, InternalKey.decodeFrom]⟩
  unfold add
  rw [f.builder_numEntries o]
  rcases h with hnil | hkeyed
  · simp [hnil, InternalKey.encode, InternalKey.decodeFrom]
  · -- the first entry stays the first one
    have hsmallest := hkeyed.smallest
    cases hrecords : f.records with
    | nil => simp [hrecords] at hsmallest
    | cons first rest => simpa [hrecords] using hsmallest

theorem OutputFile.Keyed.finish (o : TableOptions) (h : f.Keyed) : (f.finish o).Matches o :=
  ⟨⟨h.smallest, h.largest⟩, f.builder_numEntries o, f.builder_numEntries o, rfl⟩

/-- The records of all outputs, in order. -/
def Work.records (w : Work) : List (Slice × Slice) :=
  (w.outputs ++ w.current.toList).flatMap OutputFile.records

/-- The finished outputs match their entries, and the open one has its keys. -/
structure Work.Sound (o : TableOptions) (w : Work) : Prop where
  outputs : ∀ f ∈ w.outputs, f.Matches o
  current : ∀ f ∈ w.current, f.Keyed

variable {o : TableOptions} {w : Work} {P : WorkParams}

/-- What a record that is written does to the variables: it goes to the open output, or to a new one
with the next file number, and the output is finished or stays open. -/
theorem Work.keep_cases (w : Work) (o : TableOptions) (limit : ℕ) (record : Slice × Slice) :
    ∃ f next, ((w.current = some f ∧ next = w.nextFile) ∨
        (w.current = none ∧ f = .new w.nextFile ∧ next = w.nextFile + 1)) ∧ (w.keep o limit record =
          { w with
            outputs := w.outputs ++ [(f.add o record).finish o]
            current := none
            nextFile := next } ∨
        w.keep o limit record = { w with current := some (f.add o record), nextFile := next }) := by
  unfold keep Work.open
  cases hcurrent : w.current with
  | none =>
    refine ⟨.new w.nextFile, w.nextFile + 1, Or.inr ⟨rfl, rfl, rfl⟩, ?_⟩
    dsimp only
    split_ifs
    · exact Or.inl rfl
    · exact Or.inr rfl
  | some f =>
    refine ⟨f, w.nextFile, Or.inl ⟨rfl, rfl⟩, ?_⟩
    dsimp only
    split_ifs
    · exact Or.inl rfl
    · exact Or.inr rfl

theorem Work.keep_records (limit : ℕ) (record : Slice × Slice) :
    (w.keep o limit record).records = w.records ++ [record] := by
  obtain ⟨f, next, hopen, hkeep⟩ := w.keep_cases o limit record
  unfold records
  rcases hopen with ⟨hcurrent, -⟩ | ⟨hcurrent, rfl, -⟩ <;> rcases hkeep with hkeep | hkeep <;>
    simp [hcurrent, hkeep, OutputFile.add, OutputFile.finish, OutputFile.new]

theorem Work.keep_frame (limit : ℕ) (record : Slice × Slice) :
    (w.keep o limit record).currentUserKey = w.currentUserKey ∧
      (w.keep o limit record).lastSequenceForKey = w.lastSequenceForKey := by
  obtain ⟨f, next, -, hkeep | hkeep⟩ := w.keep_cases o limit record <;> rw [hkeep] <;>
    exact ⟨rfl, rfl⟩

theorem Work.Sound.keep (h : w.Sound o) (limit : ℕ) (record : Slice × Slice) :
    (w.keep o limit record).Sound o := by
  obtain ⟨f, next, hopen, hkeep⟩ := w.keep_cases o limit record
  have hopened : f.records = [] ∨ f.Keyed := by
    rcases hopen with ⟨hcurrent, -⟩ | ⟨-, rfl, -⟩
    · exact Or.inr (h.current f hcurrent)
    · exact Or.inl rfl
  have hkeyed := OutputFile.add_keyed o hopened record
  rcases hkeep with hkeep | hkeep <;> rw [hkeep]
  · refine ⟨fun g hg => ?_, fun g hg => absurd hg (by simp)⟩
    rcases List.mem_append.mp hg with hg | hg
    · exact h.outputs g hg
    · rw [List.mem_singleton.mp hg]
      exact hkeyed.finish o
  · refine ⟨h.outputs, fun g hg => ?_⟩
    rw [← Option.some.inj hg]
    exact hkeyed

theorem Work.look_frame (smallestSnapshot : ℕ) (w : Work) (key : Slice) :
    (w.look smallestSnapshot key).1.outputs = w.outputs ∧
      (w.look smallestSnapshot key).1.current = w.current := by
  unfold look
  cases parseInternalKey key <;> exact ⟨rfl, rfl⟩

theorem Work.Sound.round (h : w.Sound P.options) (taken : ℕ) (record : Slice × Slice) :
    (w.round P taken record).Sound P.options := by
  obtain ⟨houtputs, hcurrent⟩ :=
    look_frame P.smallestSnapshot { w with nextFile := w.nextFile + taken } record.1
  have hlooked : (look P.smallestSnapshot { w with nextFile := w.nextFile + taken }
      record.1).1.Sound P.options :=
    ⟨fun f hf => h.outputs f (houtputs ▸ hf), fun f hf => h.current f (hcurrent ▸ hf)⟩
  unfold Work.round
  dsimp only
  split_ifs
  · exact hlooked
  · exact hlooked.keep _ record

theorem Work.Sound.loop (taken : ℕ → ℕ) (records : List (Slice × Slice)) :
    ∀ (i : ℕ) {w : Work}, w.Sound P.options → (Work.loop P taken i records w).Sound P.options := by
  induction records with
  | nil => exact fun _ _ h => h
  | cons record records ih => exact fun i _ h => ih (i + 1) (h.round (taken i) record)

theorem Work.Sound.finish (h : w.Sound o) : ∀ f ∈ w.finish o, f.Matches o := by
  intro f hf
  rcases List.mem_append.mp hf with hf | hf
  · exact h.outputs f hf
  · rw [Option.mem_toList] at hf
    obtain ⟨open', hopen, rfl⟩ := Option.mem_map.mp hf
    exact (h.current open' hopen).finish o

theorem Work.finish_records : (w.finish o).flatMap OutputFile.records = w.records := by
  unfold Work.finish Work.records
  cases w.current <;> simp [OutputFile.finish]

/-! ## Which entries are kept -/

/-- The index leads to an input for the key of the entry. -/
def WorkParams.leadsToInput (P : WorkParams) (e : Entry) : Bool :=
  P.inputs.contains (P.index e.userKey)

theorem Work.look_internalKey (w : Work) (smallestSnapshot : ℕ)
    (he : e.sequence ≤ maxSequenceNumber) : w.look smallestSnapshot e.internalKey =
      ({ w with currentUserKey := some e.userKey, lastSequenceForKey := e.sequence },
        decide ((if w.currentUserKey = some e.userKey then w.lastSequenceForKey
          else maxSequenceNumber) ≤ smallestSnapshot)) := by
  unfold look Entry.internalKey
  rw [parseInternalKey_append e.userKey he]

/-- Where every entry is visible to the smallest snapshot, an entry is hidden if the one before it
has its key. -/
theorem Work.look_entry {smallestSnapshot : ℕ} (he : e.sequence ≤ smallestSnapshot)
    (hsmallest : smallestSnapshot < maxSequenceNumber)
    (hcurrent : ∀ k, w.currentUserKey = some k → w.lastSequenceForKey ≤ smallestSnapshot) :
    w.look smallestSnapshot e.internalKey =
      ({ w with currentUserKey := some e.userKey, lastSequenceForKey := e.sequence },
        decide (w.currentUserKey = some e.userKey)) := by
  rw [w.look_internalKey smallestSnapshot (he.trans hsmallest.le)]
  split_ifs with hkey
  · rw [decide_eq_true hkey, decide_eq_true (hcurrent _ hkey)]
  · rw [decide_eq_false hkey, decide_eq_false (not_le.mpr hsmallest)]

/-- **One round**: the entry is written if it is the first of its user key, and the index leads to
an input. -/
theorem Work.round_entry (taken : ℕ) (he : e.sequence ≤ P.smallestSnapshot)
    (hsmallest : P.smallestSnapshot < maxSequenceNumber)
    (hcurrent : ∀ k, w.currentUserKey = some k → w.lastSequenceForKey ≤ P.smallestSnapshot) :
    (w.round P taken e.record).currentUserKey = some e.userKey ∧
      (w.round P taken e.record).lastSequenceForKey = e.sequence ∧
      (w.round P taken e.record).records = w.records ++
        if w.currentUserKey = some e.userKey ∨ P.leadsToInput e = false then [] else [e.record] := by
  have hlook := look_entry (w := { w with nextFile := w.nextFile + taken }) he hsmallest hcurrent
  unfold Work.round Entry.record
  dsimp only
  rw [hlook, show extractUserKey e.internalKey = e.userKey from extractUserKey_append _ _ _]
  by_cases hdrop : w.currentUserKey = some e.userKey ∨ P.leadsToInput e = false
  · rw [if_pos hdrop, if_pos (by simpa [WorkParams.leadsToInput] using hdrop), List.append_nil]
    exact ⟨rfl, rfl, rfl⟩
  · rw [if_neg hdrop, if_neg (by simpa [WorkParams.leadsToInput] using hdrop), keep_records]
    obtain ⟨hkey, hlast⟩ := keep_frame (o := P.options) P.maxOutputFileSize
      (w := { w with
        currentUserKey := some e.userKey
        lastSequenceForKey := e.sequence
        nextFile := w.nextFile + taken }) (e.internalKey, e.value)
    exact ⟨hkey, hlast, rfl⟩

/-- **The loop** writes the first entry of each user key for which the index leads to an input,
wherever the outputs end. -/
theorem Work.loop_records (taken : ℕ → ℕ) (hsmallest : P.smallestSnapshot < maxSequenceNumber)
    (entries : List Entry) :
    ∀ (i : ℕ) {w : Work}, (∀ e ∈ entries, e.sequence ≤ P.smallestSnapshot) →
      (∀ k, w.currentUserKey = some k → w.lastSequenceForKey ≤ P.smallestSnapshot) →
      (Work.loop P taken i (entries.map Entry.record) w).records = w.records ++
        ((Versions.firsts Entry.userKey w.currentUserKey entries).filter
          P.leadsToInput).map Entry.record := by
  induction entries with
  | nil => exact fun _ _ _ _ => (List.append_nil _).symm
  | cons e entries ih =>
    intro i w hseq hcurrent
    have he : e.sequence ≤ P.smallestSnapshot := hseq e List.mem_cons_self
    obtain ⟨hkey, hlast, hrecords⟩ := round_entry (taken i) he hsmallest hcurrent
    rw [List.map_cons, Work.loop, ih (i + 1) (fun x hx => hseq x (List.mem_cons_of_mem _ hx))
      (fun _ _ => hlast.symm ▸ he), hkey, hrecords, List.append_assoc]
    congr 1
    rw [Versions.firsts]
    by_cases hsame : w.currentUserKey = some e.userKey
    · rw [if_pos (Or.inl hsame), if_pos hsame, hsame]
      rfl
    · rw [if_neg hsame]
      cases hin : P.leadsToInput e <;> simp [hsame, hin]

/-! ## The specification -/

/-- The newest of the entries with one user key. -/
structure Newest (entries : List Entry) (e : Entry) : Prop where
  mem : e ∈ entries
  newest : ∀ b ∈ entries, b.userKey = e.userKey →
    packSequenceAndType b.sequence b.type ≤ packSequenceAndType e.sequence e.type

theorem Newest.sequence_le {entries : List Entry} (h : Newest entries e)
    (hseq : ∀ x ∈ entries, x.sequence ≤ maxSequenceNumber) (hb : b ∈ entries)
    (hkey : b.userKey = e.userKey) : b.sequence ≤ e.sequence := by
  have hle := h.newest b hb hkey
  rw [packSequenceAndType_eq (hseq b hb), packSequenceAndType_eq (hseq e h.mem)] at hle
  have hcode : e.type.code ≤ 1 := by cases e.type <;> decide
  omega

theorem mem_firsts_sortedInput
    (hdistinct : ((inputEntries tables).map Entry.internalKey).Nodup) (e : Entry) :
    e ∈ Versions.firsts Entry.userKey none (sortedInput tables) ↔
      Newest (inputEntries tables) e := by
  have hperm := sortedInput_perm tables
  have hsorted := (sortedInput_sorted tables).imp fun {a b} => (Entry.le_iff a b).mp
  rw [Versions.mem_firsts_iff hsorted fun x hx y hy =>
    eq_of_packed_eq hdistinct (hperm.mem_iff.mp hx) (hperm.mem_iff.mp hy)]
  constructor
  · rintro ⟨hmem, hnewest⟩
    exact ⟨hperm.mem_iff.mp hmem, fun b hb => hnewest b (hperm.mem_iff.mpr hb)⟩
  · rintro ⟨hmem, hnewest⟩
    exact ⟨hperm.mem_iff.mpr hmem, fun b hb => hnewest b (hperm.mem_iff.mp hb)⟩

/-- **What a compaction writes.** Without a live snapshot, and with an index that does not change,
the outputs hold, in ascending order of the user keys, the newest entry of each user key for which
the index leads to an input, and what each output records matches its entries; wherever the outputs
end, and whatever file numbers other threads take. -/
theorem compaction_output_spec (o : TableOptions) (maxOutputFileSize : ℕ)
    (tables : List InputTable) (index : Slice → ℕ) (lastSequence : ℕ) (taken : ℕ → ℕ)
    (nextFile : ℕ) (hdistinct : ((inputEntries tables).map Entry.internalKey).Nodup)
    (hseq : ∀ e ∈ inputEntries tables, e.sequence ≤ lastSequence)
    (hlast : lastSequence < maxSequenceNumber) :
    ∃ kept : List Entry,
      (doCompactionWork o maxOutputFileSize tables index [] lastSequence taken nextFile).flatMap
        OutputFile.records = kept.map Entry.record ∧
      kept.Pairwise (fun a b => a.userKey < b.userKey) ∧
      (∀ e, e ∈ kept ↔ Newest (inputEntries tables) e ∧
        index e.userKey ∈ tables.map InputTable.number) ∧
      (∀ b ∈ inputEntries tables, index b.userKey ∈ tables.map InputTable.number →
        ∃ e ∈ kept, e.userKey = b.userKey ∧ b.sequence ≤ e.sequence) ∧
      ∀ f ∈ doCompactionWork o maxOutputFileSize tables index [] lastSequence taken nextFile,
        f.Matches o := by
  have hperm := sortedInput_perm tables
  have hsorted := (sortedInput_sorted tables).imp fun {a b} => (Entry.le_iff a b).mp
  let P : WorkParams := ⟨o, maxOutputFileSize, tables.map InputTable.number, index, lastSequence⟩
  let kept := (Versions.firsts Entry.userKey none (sortedInput tables)).filter P.leadsToInput
  have hmem : ∀ e, e ∈ kept ↔ Newest (inputEntries tables) e ∧
      index e.userKey ∈ tables.map InputTable.number := by
    intro e
    rw [List.mem_filter, mem_firsts_sortedInput hdistinct]
    exact and_congr_right fun _ => List.contains_iff_mem
  refine ⟨kept, ?_, ?_, hmem, fun b hb hin => ?_, ?_⟩
  · unfold doCompactionWork
    rw [makeInputIterator_eq hdistinct]
    exact Work.finish_records.trans (Work.loop_records (P := P) taken hlast _ 0
      (fun e he => hseq e (hperm.mem_iff.mp he)) (fun k hk => absurd hk (by simp [Work.start])))
  · exact (Versions.firsts_pairwise_lt none hsorted).filter _
  · -- the first entry with the key of `b`
    obtain ⟨e, he, hkey⟩ := Versions.exists_mem_firsts (k := b.userKey) none
      ⟨b, hperm.mem_iff.mpr hb, rfl⟩ (by simp)
    have hnewest := (mem_firsts_sortedInput hdistinct e).mp he
    refine ⟨e, (hmem e).mpr ⟨hnewest, hkey ▸ hin⟩, hkey, ?_⟩
    exact hnewest.sequence_le (fun x hx => (hseq x hx).trans hlast.le) hb hkey.symm
  · refine (Work.Sound.loop (P := P) taken _ 0 ⟨fun f hf => ?_, fun f hf => ?_⟩).finish
    · exact absurd hf List.not_mem_nil
    · exact absurd hf (by simp [Work.start])

/-- Tables 4 and 5. Both have the key `1`, and the newer entry is in table 4. -/
def overlappingTables : List InputTable :=
  [⟨4, [⟨[49], 5, .value, [120]⟩, ⟨[50], 3, .deletion, []⟩], by decide +kernel⟩,
    ⟨5, [⟨[49], 2, .value, [121]⟩, ⟨[51], 6, .value, [122]⟩], by decide +kernel⟩]

/-- The key `3` has moved on to table 9. -/
def overlappingIndex (userKey : Slice) : ℕ :=
  if userKey = [49] then 4 else if userKey = [50] then 5 else 9

/-- A block for each entry. -/
def smallBlocks : TableOptions := { plainOptions with blockSize := 1 }

theorem compaction_output_spec_overlap :
    ((inputEntries overlappingTables).map Entry.internalKey).Nodup ∧
      (∀ e ∈ inputEntries overlappingTables, e.sequence ≤ 6) ∧ 6 < maxSequenceNumber ∧
      ∃ kept : List Entry,
        (doCompactionWork smallBlocks 1 overlappingTables overlappingIndex [] 6 id 7).flatMap
          OutputFile.records = kept.map Entry.record ∧
        kept.Pairwise (fun a b => a.userKey < b.userKey) ∧
        (∀ e, e ∈ kept ↔ Newest (inputEntries overlappingTables) e ∧
          overlappingIndex e.userKey ∈ overlappingTables.map InputTable.number) ∧
        (∀ b ∈ inputEntries overlappingTables,
          overlappingIndex b.userKey ∈ overlappingTables.map InputTable.number →
          ∃ e ∈ kept, e.userKey = b.userKey ∧ b.sequence ≤ e.sequence) ∧
        ∀ f ∈ doCompactionWork smallBlocks 1 overlappingTables overlappingIndex [] 6 id 7,
          f.Matches smallBlocks := by
  have hdistinct : ((inputEntries overlappingTables).map Entry.internalKey).Nodup := by
    decide +kernel
  have hseq : ∀ e ∈ inputEntries overlappingTables, e.sequence ≤ 6 := by decide +kernel
  have hlast : 6 < maxSequenceNumber := by decide +kernel
  exact ⟨hdistinct, hseq, hlast, compaction_output_spec smallBlocks 1 overlappingTables
    overlappingIndex 6 id 7 hdistinct hseq hlast⟩

-- each entry that is kept gets an output of its own
example : (doCompactionWork smallBlocks 1 overlappingTables overlappingIndex [] 6 id 7).map
    (fun f => (f.number, f.total, f.smallest.userKey, f.largest.userKey)) =
      [(7, 1, [49], [49]), (11, 1, [50], [50])] := by
  decide +kernel

/-! ## The loop of `McfKv.Db.DBImpl` -/

/-- An output as the loop of `McfKv.Db.DBImpl` has it. -/
def written (output : ℕ × List Entry) : ℕ × List (Slice × Slice) :=
  (output.1, output.2.map Entry.record)

/-- The number and the records of an output. -/
def OutputFile.contents (f : OutputFile) : ℕ × List (Slice × Slice) := (f.number, f.records)

/-- The two loops have the same variables, and the index is that of the state. -/
structure Work.Refines (s : State) (w : Work) (c : Merge) : Prop where
  currentUserKey : w.currentUserKey = c.currentUserKey
  lastSequenceForKey : w.lastSequenceForKey = c.lastSequenceForKey
  outputs : w.outputs.map OutputFile.contents = c.outputs.map written
  current : w.current.map OutputFile.contents = c.output.map written
  nextFile : w.nextFile = c.nextFile
  index : c.index = s.index

theorem Work.start_refines (s : State) : (Work.start s.nextFile).Refines s (Merge.start s) :=
  ⟨rfl, rfl, rfl, rfl, rfl, rfl⟩

variable {s : State} {c : Merge}

theorem Work.Refines.advance (h : w.Refines s c) (e : Entry) :
    Work.Refines s { w with currentUserKey := some e.userKey, lastSequenceForKey := e.sequence }
      (c.advance e) :=
  ⟨rfl, rfl, h.outputs, h.current, h.nextFile, h.index⟩

theorem Merge.add_frame (c : Merge) (e : Entry) : (c.add e).currentUserKey = c.currentUserKey ∧
    (c.add e).lastSequenceForKey = c.lastSequenceForKey := by
  unfold Merge.add
  cases c.output <;> exact ⟨rfl, rfl⟩

theorem Work.Refines.keep (h : w.Refines s c) (o : TableOptions) (limit : ℕ) (e : Entry) :
    ∃ full : Bool, (w.keep o limit e.record).Refines s
      (if full then (c.add e).finish else c.add e) := by
  obtain ⟨f, next, hopen, hkeep⟩ := w.keep_cases o limit e.record
  obtain ⟨file, entries, hout, houtputs, hindex, -, hcase⟩ := c.add_cases e
  obtain ⟨hkey, hlast⟩ := c.add_frame e
  -- both loops add the entry to the same output
  have hadd : (f.add o e.record).contents = written (file, entries ++ [e]) ∧
      next = (c.add e).nextFile := by
    have hcurrent := h.current
    rcases hopen with ⟨ho, rfl⟩ | ⟨ho, rfl, rfl⟩ <;>
      rcases hcase with ⟨hc, hn⟩ | ⟨hc, rfl, rfl, hn⟩ <;>
      simp_all [OutputFile.contents, OutputFile.add, OutputFile.new, written, h.nextFile]
  rcases hkeep with hkeep | hkeep <;> rw [hkeep]
  · refine ⟨true, ?_⟩
    have hfinish : (c.add e).finish = { c.add e with
          output := none
          outputs := (c.add e).outputs ++ [(file, entries ++ [e])]
          queue := (c.add e).queue ++ batch file (entries ++ [e]) } := by
      unfold Merge.finish
      rw [hout]
    rw [if_pos rfl, hfinish]
    refine ⟨?_, ?_, ?_, rfl, hadd.2, hindex.trans h.index⟩
    · exact h.currentUserKey.trans hkey.symm
    · exact h.lastSequenceForKey.trans hlast.symm
    · rw [List.map_append, List.map_append, houtputs, h.outputs]
      exact congrArg (fun x => _ ++ [x]) hadd.1
  · refine ⟨false, ?_⟩
    rw [if_neg Bool.false_ne_true]
    refine ⟨?_, ?_, ?_, ?_, hadd.2, hindex.trans h.index⟩
    · exact h.currentUserKey.trans hkey.symm
    · exact h.lastSequenceForKey.trans hlast.symm
    · rw [houtputs, h.outputs]
    · rw [hout]
      exact congrArg some hadd.1

theorem Work.Refines.finish (h : w.Refines s c) (o : TableOptions) :
    (w.finish o).map OutputFile.contents = c.finish.outputs.map written := by
  have hcurrent := h.current
  unfold Work.finish Merge.finish
  rw [List.map_append, h.outputs]
  cases hw : w.current with
  | none =>
    rw [hw, eq_comm, Option.map_none, Option.map_eq_none_iff] at hcurrent
    simp [hcurrent]
  | some f =>
    rw [hw, eq_comm, Option.map_some, Option.map_eq_some_iff] at hcurrent
    obtain ⟨output, hc, heq⟩ := hcurrent
    rw [hc, List.map_append]
    exact congrArg (fun x => _ ++ [x]) heq.symm

/-- **One round** of the two loops, if the index thread applies nothing. -/
theorem Work.Refines.round (h : w.Refines s c) (hindex : P.index = indexGet s.index)
    (he : e.sequence ≤ maxSequenceNumber) : ∃ full : Bool, (w.round P 0 e.record).Refines s
      (c.round P.inputs P.smallestSnapshot ⟨0, full⟩ e) := by
  have happly : c.apply 0 = c := rfl
  unfold Work.round Merge.round Entry.record
  dsimp only
  rw [look_internalKey _ _ he, happly, hindex, h.index,
    show extractUserKey e.internalKey = e.userKey from extractUserKey_append _ _ _]
  dsimp only
  rw [h.currentUserKey, h.lastSequenceForKey]
  -- both loops make the same test
  generalize (decide ((if c.currentUserKey = some e.userKey then c.lastSequenceForKey
    else maxSequenceNumber) ≤ P.smallestSnapshot) ||
      !P.inputs.contains (indexGet s.index e.userKey)) = drop
  cases drop with
  | true => exact ⟨false, h.advance e⟩
  | false => exact (h.advance e).keep P.options P.maxOutputFileSize e

theorem Merge.loop_congr (rounds rounds' : ℕ → Round) (inputs : List ℕ) (smallestSnapshot : ℕ)
    (entries : List Entry) : ∀ (i : ℕ) (c : Merge), (∀ j, i ≤ j → rounds j = rounds' j) →
      Merge.loop inputs smallestSnapshot rounds i entries c =
        Merge.loop inputs smallestSnapshot rounds' i entries c := by
  induction entries with
  | nil => exact fun _ _ _ => rfl
  | cons e entries ih =>
    intro i c h
    unfold Merge.loop
    rw [h i le_rfl]
    exact ih (i + 1) _ fun j hj => h j (Nat.le_of_succ_le hj)

/-- **The loop refines that of `McfKv.Db.DBImpl`**: the sizes of the tables decide where an output
ends. -/
theorem Work.Refines.loop (hindex : P.index = indexGet s.index) (entries : List Entry) :
    ∀ (i : ℕ) {w : Work} {c : Merge}, w.Refines s c →
      (∀ e ∈ entries, e.sequence ≤ maxSequenceNumber) →
      ∃ rounds : ℕ → Round, (∀ j, (rounds j).applied = 0) ∧
        (Work.loop P (fun _ => 0) i (entries.map Entry.record) w).Refines s
          (Merge.loop P.inputs P.smallestSnapshot rounds i entries c) := by
  induction entries with
  | nil => exact fun _ _ _ h _ => ⟨fun _ => ⟨0, false⟩, fun _ => rfl, h⟩
  | cons e entries ih =>
    intro i w c h hseq
    obtain ⟨full, hround⟩ := h.round hindex (hseq e List.mem_cons_self)
    obtain ⟨rounds, happlied, hrest⟩ :=
      ih (i + 1) hround fun x hx => hseq x (List.mem_cons_of_mem _ hx)
    -- this round is put before the others
    refine ⟨Function.update rounds i ⟨0, full⟩, fun j => ?_, ?_⟩
    · by_cases hj : j = i
      · rw [hj, Function.update_self]
      · rw [Function.update_of_ne hj]
        exact happlied j
    · rw [List.map_cons, Work.loop, Merge.loop, Function.update_self]
      rw [Merge.loop_congr _ rounds _ _ entries (i + 1) _ fun j hj =>
        Function.update_of_ne (Nat.ne_of_gt hj) _ _]
      exact hrest

theorem sortedInput_eq_merged {files : ℕ → Option (List Entry)}
    (hfiles : ∀ t ∈ tables, files t.number = some t.entries) :
    sortedInput tables = merged files (tables.map InputTable.number) := by
  unfold sortedInput merged
  rw [List.flatMap_map]
  exact congrArg _ (List.flatMap_congr fun t ht => by rw [hfiles t ht]; rfl)

/-- **The outputs are those of the compaction of `McfKv.Db.DBImpl`**, for some choice of where they
end. -/
theorem doCompactionWork_refines (s : State) (o : TableOptions) (maxOutputFileSize : ℕ)
    (htables : ∀ t ∈ tables, s.tables t.number = some t.entries)
    (hdistinct : ((inputEntries tables).map Entry.internalKey).Nodup)
    (hseq : ∀ e ∈ inputEntries tables, e.sequence ≤ maxSequenceNumber) :
    ∃ rounds : ℕ → Round, (∀ i, (rounds i).applied = 0) ∧
      (doCompactionWork o maxOutputFileSize tables (indexGet s.index)
          (s.snapshots.map fun snapshot => snapshot.number) s.lastSequence (fun _ => 0)
          s.nextFile).map OutputFile.contents =
        (Merge.loop (tables.map InputTable.number) s.smallestSnapshot rounds 0
          (merged s.tables (tables.map InputTable.number)) (Merge.start s)).finish.outputs.map
          written := by
  have hsmallest : ((s.snapshots.map fun snapshot => snapshot.number).head?.getD s.lastSequence) =
      s.smallestSnapshot := by
    unfold State.smallestSnapshot
    cases s.snapshots <;> rfl
  let P : WorkParams :=
    ⟨o, maxOutputFileSize, tables.map InputTable.number, indexGet s.index, s.smallestSnapshot⟩
  obtain ⟨rounds, happlied, hloop⟩ := Work.Refines.loop (P := P) rfl (sortedInput tables) 0
    (Work.start_refines s) fun e he => hseq e ((sortedInput_perm tables).mem_iff.mp he)
  refine ⟨rounds, happlied, ?_⟩
  unfold doCompactionWork
  rw [hsmallest, makeInputIterator_eq hdistinct, ← sortedInput_eq_merged htables]
  exact hloop.finish o

/-- The state that `overlappingTables` is from, with the index as in `overlappingIndex`. -/
def overlappingState : State :=
  { State.init with
    tables := fun n => (overlappingTables.find? (·.number = n)).map InputTable.entries
    index := fun n => if n = 1 then some 4 else if n = 2 then some 5 else some 9
    lastSequence := 6
    nextFile := 7 }

/-- The newest entry of the key `1` and the deletion of the key `2` are written, each to an output
of its own. -/
theorem doCompactionWork_refines_overlapping :
    ∃ rounds, (doCompactionWork smallBlocks 1 overlappingTables (indexGet overlappingState.index)
        [] 6 (fun _ => 0) 7).map OutputFile.contents =
      (Merge.loop [4, 5] 6 rounds 0 (merged overlappingState.tables [4, 5])
        (Merge.start overlappingState)).finish.outputs.map written ∧
      (Merge.loop [4, 5] 6 rounds 0 (merged overlappingState.tables [4, 5])
        (Merge.start overlappingState)).finish.outputs.map written =
        [(7, [Entry.record ⟨[49], 5, .value, [120]⟩]),
          (8, [Entry.record ⟨[50], 3, .deletion, []⟩])] := by
  obtain ⟨rounds, -, heq⟩ := @doCompactionWork_refines overlappingTables overlappingState
    smallBlocks 1 (by decide +kernel) (by decide +kernel) (by decide +kernel)
  exact ⟨rounds, heq, heq.symm.trans (by decide +kernel)⟩

end McfKv.DBImpl
