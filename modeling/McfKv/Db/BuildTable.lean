import McfKv.Db.Table
import McfKv.Db.Version
import McfKv.Lib.Assign
import McfKv.Table.TableWriter

/-!
# Tables that could not be written (`db/builder.cc`, `db/db_impl.cc`)

`BuildTable` writes a memtable to a table file, and `FinishCompactionOutputFile` completes an output
of a compaction. Both return an error when the file could not be written; `BuildTable` then deletes
the file, and the error of a compaction ends the compaction.

`TableBuilder::Finish` passes the keys of the table on to the index before it returns, also when its
status is not `OK`. The index applies them in the background: it assigns the number of the file to
each key, which for the keys of a compaction is an `Update` of keys that the index holds. So after
the error, keys are indexed under a file that is gone. `failed_table_indexed_iff` says when this
does not happen.

`keepsNewest_iff` is about the entries that `BuildTable` writes. It compares user keys with the
comparator for internal keys, which takes eight bytes off them once more.
-/

namespace McfKv

open Assign Writer

/-- The results of the calls of `BuildTable`: creating the file, the operations of the builder,
opening the finished table, and the status of the iterator over the memtable. -/
structure BuildIo where
  newWritableFile : Status
  ops : FileOps
  newIterator : Status
  iter : Status

/-- What `BuildTable` leaves: its status, the metadata of the file, the items that the index got, and
whether the file was deleted. -/
structure BuildOutcome where
  status : Status
  file : FileMetaData
  handed : List (ℕ × ℕ)
  deleted : Bool

/-- `BuildTable`, for the entries of the memtable in order. -/
def buildTableFile (o : TableOptions) (io : BuildIo) (file : FileMetaData) (entries : List Entry) :
    BuildOutcome :=
  match entries.head? with
  | none => ⟨io.iter, { file with fileSize := 0 }, [], true⟩
  | some first =>
    if !io.newWritableFile.isOk then ⟨io.newWritableFile, { file with fileSize := 0 }, [], false⟩
    else
      let added := buildTable [] entries
      let w := (Writer.new o).addAll o io.ops file.number (added.map Entry.record)
      let finished := w.finish o io.ops
      let file := { file with
        smallest := ⟨first.internalKey⟩
        largest := ⟨(added.getLast?.map Entry.internalKey).getD []⟩
        total := w.table.numEntries
        alive := w.table.numEntries
        fileSize := if finished.status.isOk then finished.table.offset else 0 }
      let s := if finished.status.isOk then io.newIterator else finished.status
      let s := if io.iter.isOk then s else io.iter
      ⟨s, file, finished.table.indexQueue, !(s.isOk && 0 < file.fileSize)⟩

/-- The results of the calls of `FinishCompactionOutputFile`: the status of the input, the
operations of the builder, and opening the finished table. -/
structure OutputIo where
  input : Status
  ops : FileOps
  newIterator : Status

/-- What `FinishCompactionOutputFile` leaves: its status, the size and the number of entries of the
output, and the items that the index got. -/
structure OutputOutcome where
  status : Status
  fileSize : ℕ
  total : ℕ
  handed : List (ℕ × ℕ)

/-- `DBImpl::FinishCompactionOutputFile`, for an output to which these records were added. -/
def finishCompactionOutputFile (o : TableOptions) (io : OutputIo) (number : ℕ)
    (records : List (Slice × Slice)) : OutputOutcome :=
  let w := (Writer.new o).addAll o io.ops number records
  if io.input.isOk then
    let finished := w.finish o io.ops
    let s :=
      if finished.status.isOk && 0 < w.table.numEntries then io.newIterator else finished.status
    ⟨s, finished.table.offset, w.table.numEntries, finished.table.indexQueue⟩
  else ⟨io.input, w.table.offset, w.table.numEntries, []⟩

/-! ## When the index is left as it was -/

theorem assign_eq_self_iff {index : ℕ → Option ℕ} {number : ℕ} (hnew : ∀ k, index k ≠ some number)
    {items : List (ℕ × ℕ)} (hitems : ∀ item ∈ items, item.2 = number) :
    assign index items = index ↔ items = [] := by
  refine ⟨fun h => ?_, fun h => by rw [h, assign_nil]⟩
  by_contra hne
  obtain ⟨item, hitem⟩ := List.exists_mem_of_ne_nil _ hne
  obtain ⟨v, hv, heq⟩ := assign_of_mem ⟨item, hitem, rfl⟩ index
  obtain rfl : v = number := hitems _ hv
  rw [h] at heq
  exact hnew _ heq

theorem build_items (o : TableOptions) (ops : FileOps) (number : ℕ)
    (records : List (Slice × Slice)) :
    (∀ item ∈ (build o ops number records).table.indexQueue, item.2 = number) ∧
      ((build o ops number records).table.indexQueue = [] ↔ records = []) := by
  obtain ⟨p, hp, hne, hqueue⟩ := build_indexQueue o ops number records
  rw [hqueue, List.map_eq_nil_iff]
  refine ⟨fun item hitem => ?_, fun h => ?_, ?_⟩
  · obtain ⟨e, -, rfl⟩ := List.mem_map.mp hitem
    rfl
  · by_contra hrecords
    exact hne hrecords h
  · rintro rfl
    exact List.prefix_nil.mp hp

theorem buildTable_eq_nil_iff {entries : List Entry} : buildTable [] entries = [] ↔ entries = [] := by
  cases entries with
  | nil => simp [buildTable]
  | cons e entries => simp [buildTable]

theorem buildTableFile_handed (o : TableOptions) (io : BuildIo) (file : FileMetaData)
    (entries : List Entry) :
    (∀ item ∈ (buildTableFile o io file entries).handed, item.2 = file.number) ∧
      ((buildTableFile o io file entries).handed = [] ↔
        entries = [] ∨ ¬ io.newWritableFile.isOk) := by
  unfold buildTableFile
  cases entries with
  | nil => exact ⟨by simp, by simp⟩
  | cons first entries =>
    dsimp only [List.head?_cons]
    by_cases hfile : io.newWritableFile.isOk
    · rw [if_neg (by simp [hfile])]
      obtain ⟨hnumber, hnil⟩ := build_items o io.ops file.number
        ((buildTable [] (first :: entries)).map Entry.record)
      rw [List.map_eq_nil_iff, buildTable_eq_nil_iff] at hnil
      exact ⟨hnumber, hnil.trans (by simp [hfile])⟩
    · rw [if_pos (by simpa using hfile)]
      exact ⟨by simp, by simp [hfile]⟩

theorem finishCompactionOutputFile_handed (o : TableOptions) (io : OutputIo) (number : ℕ)
    (records : List (Slice × Slice)) :
    (∀ item ∈ (finishCompactionOutputFile o io number records).handed, item.2 = number) ∧
      ((finishCompactionOutputFile o io number records).handed = [] ↔
        records = [] ∨ ¬ io.input.isOk) := by
  unfold finishCompactionOutputFile
  dsimp only
  by_cases hinput : io.input.isOk
  · rw [if_pos hinput]
    obtain ⟨hnumber, hnil⟩ := build_items o io.ops number records
    exact ⟨hnumber, hnil.trans (by simp [hinput])⟩
  · rw [if_neg hinput]
    exact ⟨by simp, by simp [hinput]⟩

/-- **When a table that failed to be written is not indexed.** If `Finish` fails, keys of the table
reach the index unless no entry was added. If `BuildTable` fails, the index is as before exactly
when there was no entry or the file could not be created; if `FinishCompactionOutputFile` fails,
exactly when there was no entry or the input had failed, so that the builder was abandoned. In both
cases every key that is handed over is assigned; `Update`, which takes those of a compaction, does so
if the index holds the key, which it does for the keys of input files. -/
theorem failed_table_indexed_iff (o : TableOptions) (number : ℕ) :
    (∀ (ops : FileOps) (records : List (Slice × Slice)),
      ¬ (build o ops number records).status.isOk →
      ((build o ops number records).table.indexQueue = [] ↔ records = [])) ∧
    ∀ index : ℕ → Option ℕ, (∀ k, index k ≠ some number) →
      (∀ (io : BuildIo) (file : FileMetaData) (entries : List Entry), file.number = number →
        ¬ (buildTableFile o io file entries).status.isOk →
        (assign index (buildTableFile o io file entries).handed = index ↔
          entries = [] ∨ ¬ io.newWritableFile.isOk)) ∧
      ∀ (io : OutputIo) (records : List (Slice × Slice)),
        ¬ (finishCompactionOutputFile o io number records).status.isOk →
        (assign index (finishCompactionOutputFile o io number records).handed = index ↔
          records = [] ∨ ¬ io.input.isOk) := by
  refine ⟨fun ops records _ => (build_items o ops number records).2, fun index hnew => ⟨?_, ?_⟩⟩
  · rintro io file entries rfl -
    obtain ⟨hitems, hnil⟩ := buildTableFile_handed o io file entries
    rw [assign_eq_self_iff hnew hitems, hnil]
  · intro io records _
    obtain ⟨hitems, hnil⟩ := finishCompactionOutputFile_handed o io number records
    rw [assign_eq_self_iff hnew hitems, hnil]

/-! ## A memtable whose table cannot be written -/

/-- The first operation on the file fails, which is an `Append` of `Finish`. -/
def appendFails : BuildIo := ⟨.ok, fun _ => .ioError "append", .ok, .ok⟩

/-- File 9, before it is written. -/
def fileNine : FileMetaData := ⟨9, 0, 0, 0, 0, ⟨[]⟩, ⟨[]⟩⟩

/-- The memtable: one value of the key `0000000000000007`. -/
def oneEntry : List Entry := [⟨List.replicate 15 48 ++ [55], 1, .value, [120]⟩]

/-- A memtable that has a value of the key `0000000000000008` as well. -/
def twoEntries : List Entry := oneEntry ++ [⟨List.replicate 15 48 ++ [56], 2, .value, [121]⟩]

/-- The index knows key 7 in file 3. -/
def indexThree (k : ℕ) : Option ℕ := if k = 7 then some 3 else none

/-- A failed `Finish` has queued keys, and a failed `BuildTable` has changed the index; if the input of
a compaction has failed, its output leaves the index as it was. -/
theorem failed_table_indexed_iff_appendFails :
    let records := twoEntries.map Entry.record
    (build plainOptions appendFails.ops 9 records).table.indexQueue ≠ [] ∧
      assign indexThree (buildTableFile plainOptions appendFails fileNine twoEntries).handed ≠
        indexThree ∧
      assign indexThree (finishCompactionOutputFile plainOptions ⟨.ioError "read", fun _ => .ok, .ok⟩ 9
        records).handed = indexThree := by
  intro records
  have hnew : ∀ k, indexThree k ≠ some 9 := by
    intro k
    unfold indexThree
    split_ifs <;> simp
  obtain ⟨hfinish, hindex⟩ := failed_table_indexed_iff plainOptions 9
  obtain ⟨hbuild, houtput⟩ := hindex indexThree hnew
  refine ⟨fun hnil => ?_, fun hsame => ?_, ?_⟩
  · exact absurd ((hfinish appendFails.ops records (by decide +kernel)).mp hnil) (by decide)
  · exact absurd ((hbuild appendFails fileNine twoEntries rfl (by decide +kernel)).mp hsame) (by decide)
  · exact (houtput _ records (by decide +kernel)).mpr (Or.inr (by decide))

/-- **A key of a table that was not written.** `BuildTable` returns the error and deletes file 9, and
key 7, which was in file 3, is now indexed under file 9. -/
theorem failed_table_is_indexed :
    (buildTableFile plainOptions appendFails fileNine oneEntry).status = .ioError "append" ∧
      (buildTableFile plainOptions appendFails fileNine oneEntry).deleted ∧
      indexThree 7 = some 3 ∧
      assign indexThree (buildTableFile plainOptions appendFails fileNine oneEntry).handed 7 =
        some 9 := by
  decide +kernel

/-! ## What `BuildTable` keeps -/

/-- The slices that the loop of `BuildTable` passes to `ExtractUserKey`: two keys for each
comparison, and the two user keys that `InternalKeyComparator::Compare` is then called with. The
builder also extracts the user key of each key it is given, which is an internal key. -/
def extractedSlices : Slice → List Entry → List Slice
  | _, [] => []
  | prevKey, e :: entries =>
    if prevKey.isEmpty then extractedSlices e.internalKey entries
    else
      [prevKey, e.internalKey, extractUserKey prevKey, extractUserKey e.internalKey] ++
        if internalKeyCompare (extractUserKey prevKey) (extractUserKey e.internalKey) ≠ .eq then
          extractedSlices e.internalKey entries
        else extractedSlices prevKey entries

/-- Once there is a previous key, the user key of every entry is taken apart again. -/
theorem extractedSlices_internalKey_iff (p : Entry) (entries : List Entry) :
    (∀ s ∈ extractedSlices p.internalKey entries, 8 ≤ s.length) ↔
      entries = [] ∨ (8 ≤ p.userKey.length ∧ ∀ e ∈ entries, 8 ≤ e.userKey.length) := by
  induction entries generalizing p with
  | nil => simp [extractedSlices]
  | cons e entries ih =>
    have hne : ¬ p.internalKey.isEmpty := by
      rw [List.isEmpty_iff]
      intro h
      have := p.length_internalKey
      rw [h] at this
      simp at this
    have huser : ∀ x : Entry, extractUserKey x.internalKey = x.userKey := fun x =>
      extractUserKey_append _ _ _
    have hlong : ∀ x : Entry, 8 ≤ x.internalKey.length := fun x => by
      rw [Entry.length_internalKey]
      omega
    unfold extractedSlices
    rw [if_neg hne, huser, huser]
    -- the previous key of the remaining entries is one of the two that were compared
    split_ifs
    all_goals
      simp only [List.forall_mem_append, List.forall_mem_cons, ih, hlong, true_and,
        List.not_mem_nil, false_implies, implies_true, and_true, false_or]
      constructor
      · rintro ⟨⟨hp, he⟩, rfl | hrest⟩
        · exact ⟨hp, he, by simp⟩
        · exact ⟨hp, he, hrest.2⟩
      · rintro ⟨hp, he, hrest⟩
        exact ⟨⟨hp, he⟩, .inr ⟨by assumption, hrest⟩⟩

theorem extractedSlices_nil_iff (entries : List Entry) :
    (∀ s ∈ extractedSlices [] entries, 8 ≤ s.length) ↔
      entries.length ≤ 1 ∨ ∀ e ∈ entries, 8 ≤ e.userKey.length := by
  cases entries with
  | nil => simp [extractedSlices]
  | cons e entries =>
    rw [extractedSlices, if_pos List.isEmpty_nil, extractedSlices_internalKey_iff,
      List.forall_mem_cons]
    simp [← List.length_eq_zero_iff]

theorem buildTable_eq_firsts_of_long {entries : List Entry}
    (h : entries.length ≤ 1 ∨ ∀ e ∈ entries, 8 ≤ e.userKey.length) :
    buildTable [] entries = Versions.firsts Entry.userKey none entries := by
  rcases h with h | h
  · match entries, h with
    | [], _ => rfl
    | [e], _ => rfl
  · exact buildTable_eq h

/-- **`BuildTable` keeps the newest version of each user key**: the slices it takes apart are long
enough, the kept entries ascend in their user keys and are the newest of their keys, and when it
succeeds the metadata describe them. -/
structure KeepsNewest (o : TableOptions) (entries : List Entry) : Prop where
  extracted : ∀ s ∈ extractedSlices [] entries, 8 ≤ s.length
  ascending : (buildTable [] entries).Pairwise fun a b => a.userKey < b.userKey
  mem_iff : ∀ e, e ∈ buildTable [] entries ↔
    e ∈ entries ∧ ∀ b ∈ entries, b.userKey = e.userKey → e.Le b
  newest : ∀ e ∈ buildTable [] entries, ∀ b ∈ entries, b.userKey = e.userKey →
    b.sequence ≤ e.sequence
  metaData : entries ≠ [] → ∀ (io : BuildIo) (file : FileMetaData),
    (buildTableFile o io file entries).status.isOk →
    let kept := buildTable [] entries
    let written := (buildTableFile o io file entries).file
    some written.smallest.rep = kept.head?.map Entry.internalKey ∧
      some written.largest.rep = kept.getLast?.map Entry.internalKey ∧
      written.total = kept.length ∧ written.alive = kept.length

theorem buildTableFile_metaData {o : TableOptions} {io : BuildIo} {file : FileMetaData}
    {first : Entry} {entries : List Entry}
    (hok : (buildTableFile o io file (first :: entries)).status.isOk) :
    let kept := buildTable [] (first :: entries)
    let written := (buildTableFile o io file (first :: entries)).file
    written.smallest.rep = first.internalKey ∧
      written.largest.rep = (kept.getLast?.map Entry.internalKey).getD [] ∧
      written.total = kept.length ∧ written.alive = kept.length := by
  unfold buildTableFile at hok ⊢
  dsimp only [List.head?_cons] at hok ⊢
  by_cases hfile : io.newWritableFile.isOk
  · rw [if_neg (by simp [hfile])] at hok ⊢
    dsimp only at hok ⊢
    set w := (Writer.new o).addAll o io.ops file.number
      ((buildTable [] (first :: entries)).map Entry.record) with hw
    -- a failure of the builder would be the status
    have hwok : w.status.isOk := by
      by_contra hbad
      rw [finish_of_not_ok o io.ops w hbad, if_neg hbad] at hok
      split_ifs at hok with hiter
      · exact hbad hok
      · exact hiter hok
    have hcount : w.table.numEntries = (buildTable [] (first :: entries)).length := by
      rw [hw, addAll_numEntries _ _ _ _ _ hwok, List.length_map]
      exact Nat.zero_add _
    exact ⟨rfl, rfl, hcount, hcount⟩
  · rw [if_pos (by simpa using hfile)] at hok
    exact absurd hok hfile

/-- **When `BuildTable` keeps the newest version of each user key**: exactly when there is at most
one entry or all user keys have at least eight bytes. -/
theorem keepsNewest_iff (o : TableOptions) {entries : List Entry}
    (hstrict : entries.Pairwise fun a b => internalKeyCompare a.internalKey b.internalKey = .lt)
    (hrange : ∀ e ∈ entries, e.sequence ≤ maxSequenceNumber) :
    KeepsNewest o entries ↔ entries.length ≤ 1 ∨ ∀ e ∈ entries, 8 ≤ e.userKey.length := by
  refine ⟨fun h => (extractedSlices_nil_iff entries).mp h.extracted, fun hlong => ?_⟩
  have hle : entries.Pairwise Entry.Le := hstrict.imp fun h => by
    rw [Entry.Le, h]
    decide
  have hsorted := hle.imp fun {a b} => (Entry.le_iff a b).mp
  have hnodup : (entries.map Entry.internalKey).Nodup := List.pairwise_map.mpr <|
    hstrict.imp fun {a b} hlt heq => by
      rw [heq, internalKeyCompare_eq_lt_iff] at hlt
      simp at hlt
  have hkept := buildTable_eq_firsts_of_long hlong
  have hmem : ∀ e, e ∈ buildTable [] entries ↔
      e ∈ entries ∧ ∀ b ∈ entries, b.userKey = e.userKey → e.Le b := by
    intro e
    rw [hkept, Versions.mem_firsts_iff hsorted fun x hx y hy => eq_of_packed_eq hnodup hx hy]
    refine and_congr_right fun _ => forall₃_congr fun b _ hkey => ?_
    rw [Entry.le_iff, Versions.Le, hkey]
    simp
  refine ⟨(extractedSlices_nil_iff entries).mpr hlong, ?_, hmem, fun e he b hb hkey => ?_, ?_⟩
  · rw [hkept]
    exact Versions.firsts_pairwise_lt none hsorted
  · obtain ⟨hin, hfirst⟩ := (hmem e).mp he
    exact ((hfirst b hb hkey).versions (hrange e hin) (hrange b hb)).seq_le hkey.symm
  · intro hne io file hok
    obtain ⟨first, rest, rfl⟩ := List.exists_cons_of_ne_nil hne
    obtain ⟨hsmallest, hlargest, htotal, halive⟩ := buildTableFile_metaData hok
    have hhead : (buildTable [] (first :: rest)).head? = some first := by simp [buildTable]
    have hlast : buildTable [] (first :: rest) ≠ [] := by simp [buildTable]
    refine ⟨?_, ?_, htotal, halive⟩
    · rw [hsmallest, hhead, Option.map_some]
    · rw [hlargest, List.getLast?_eq_some_getLast hlast]
      rfl

/-- Two versions of an eight-byte key, and another key. -/
def longKeys : List Entry :=
  [⟨List.replicate 8 97, 7, .deletion, []⟩, ⟨List.replicate 8 97, 5, .value, [1]⟩,
    ⟨List.replicate 9 97, 6, .value, [2]⟩]

theorem keepsNewest_longKeys :
    KeepsNewest plainOptions longKeys ↔
      longKeys.length ≤ 1 ∨ ∀ e ∈ longKeys, 8 ≤ e.userKey.length :=
  keepsNewest_iff plainOptions (by decide) (by decide)

/-- Two one-byte keys. -/
def shortKeys : List Entry := [⟨[97], 1, .value, [1]⟩, ⟨[98], 2, .value, [2]⟩]

/-- **The user keys of one byte are passed to `ExtractUserKey`.** -/
theorem extractedSlices_shortKeys :
    (shortKeys.Pairwise fun a b => internalKeyCompare a.internalKey b.internalKey = .lt) ∧
      extractedSlices [] shortKeys =
        [[97, 1, 1, 0, 0, 0, 0, 0, 0], [98, 1, 2, 0, 0, 0, 0, 0, 0], [97], [98]] ∧
      ¬ KeepsNewest plainOptions shortKeys := by
  have hshort : [97] ∈ extractedSlices [] shortKeys := by decide
  refine ⟨by decide, by decide, fun h => ?_⟩
  exact absurd (h.extracted [97] hshort) (by decide)

end McfKv
