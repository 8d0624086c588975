import McfKv.Db.Version

/-!
# The children of a scan (`db/version.cc`, `db/db_impl.cc`)

`DBImpl::NewInternalIterator` collects an iterator for the memtable, one for the
immutable memtable and one for every table of the current version, and hands
the list to the merging iterator. The tables come from `Version::AddIterators`.

`AddIterators` walks `files_` and `merge_candidates_` by position, `files_[i]` for
`i = 0, 1, …`, although the maps are keyed by file number. `operator[]` puts a
null pointer under a number that is not there, and the loop then reads the file
behind it. The maps are therefore maps of pointers here, and a run that reads
through a null pointer, or that takes `int i` past its range, has no result.

`addLoop_eq` says which maps a loop gets through: those whose numbers are
`0, …, size - 1`. `coversLiveTables_iff` is what that means for a version.
-/

namespace McfKv

/-- An `Iterator*` of the list `NewInternalIterator` collects; a table iterator is
made by `TableCache::NewIterator` from the number and the size of its file. -/
inductive ChildIterator where
  | mem
  | imm
  | table (number fileSize : ℕ)
deriving DecidableEq, Repr

/-- `table_cache_->NewIterator(options, f->number, f->file_size)`. -/
def ChildIterator.ofFile (f : FileMetaData) : ChildIterator := .table f.number f.fileSize

/-- `std::unordered_map<uint64_t, std::shared_ptr<FileMetaData>>` as `operator[]` sees it:
the pointer under a number may be null. -/
abbrev PointerMap := KeyedMap (Prod.fst : ℕ × Option FileMetaData → ℕ)

namespace KeyedMap

/-- The map as pointers to its files. -/
def pointers (m : FileMap) : PointerMap where
  entries := m.entries.map fun f => (f.number, some f)
  nodup := by
    rw [List.map_map]
    exact m.nodup

theorem size_pointers (m : FileMap) : (pointers m).size = m.size := List.length_map _

theorem find?_pointers (m : FileMap) (i : ℕ) :
    (pointers m).find? i = (m.find? i).map fun f => (f.number, some f) := by
  unfold find? pointers
  rw [List.find?_map]
  rfl

end KeyedMap

namespace Version

/-- `m[i]`: the pointer, and the map that the access leaves behind. -/
def subscript (m : PointerMap) (i : ℕ) : Option FileMetaData × PointerMap :=
  match m.find? i with
  | some entry => (entry.2, m)
  | none => (none, m.insert (i, none))

theorem subscript_some {m m' : PointerMap} {i : ℕ} {f : FileMetaData}
    (h : subscript m i = (some f, m')) : m' = m := by
  unfold subscript at h
  split at h
  · exact (Prod.ext_iff.mp h).2.symm
  · simp at h

/-- One loop of `Version::AddIterators`, from position `i` on; `none` is undefined
behaviour. -/
def addLoop (m : PointerMap) (i : ℕ) (iters : List ChildIterator) :
    Option (PointerMap × List ChildIterator) :=
  if i < m.size then
    match h : subscript m i with
    | (none, _) => none
    | (some f, m') =>
      -- `++i` on an `int`
      if i + 1 < 2 ^ 31 then addLoop m' (i + 1) (iters ++ [.ofFile f]) else none
  else some (m, iters)
termination_by m.size - i
decreasing_by
  rw [subscript_some h]
  omega

/-- `Version::AddIterators`: the two maps afterwards, and the list. -/
def addIterators (v : Version) (iters : List ChildIterator) :
    Option (PointerMap × PointerMap × List ChildIterator) := do
  let (files, iters) ← addLoop (KeyedMap.pointers v.files) 0 iters
  let (mergeCandidates, iters) ← addLoop (KeyedMap.pointers v.mergeCandidates) 0 iters
  return (files, mergeCandidates, iters)

end Version

/-- The list that `DBImpl::NewInternalIterator` passes to `NewMergingIterator`, with the
maps of the version afterwards. -/
def newInternalIterator (hasImm : Bool) (v : Version) :
    Option (PointerMap × PointerMap × List ChildIterator) :=
  v.addIterators ([.mem] ++ if hasImm then [.imm] else [])

namespace Version

/-! ## The loop -/

/-- The numbers of the map are its positions, and `int` counts them. -/
def Dense (m : FileMap) : Prop := m.size < 2 ^ 31 ∧ ∀ i < m.size, i ∈ m

instance (m : FileMap) : Decidable (Dense m) := inferInstanceAs (Decidable (_ ∧ _))

theorem Dense.mem_iff {m : FileMap} (h : Dense m) (n : ℕ) : n ∈ m ↔ n < m.size := by
  have hsub : List.range m.size ⊆ m.keys := fun i hi => h.2 i (List.mem_range.mp hi)
  have hperm : (List.range m.size).Perm m.keys :=
    (List.subperm_of_subset List.nodup_range hsub).perm_of_length_le (by
      rw [List.length_range, KeyedMap.keys, List.length_map]
      exact le_rfl)
  exact (hperm.mem_iff.symm.trans List.mem_range)

/-- The files under the numbers `i, …, size - 1`. -/
def filesFrom (m : FileMap) (i : ℕ) : List FileMetaData :=
  (List.range' i (m.size - i)).filterMap m.find?

/-- **What a loop does**: it appends the iterators of its positions and keeps the map where
every position is a file number, and is undefined otherwise. -/
theorem addLoop_eq (m : FileMap) (i : ℕ) (iters : List ChildIterator) :
    addLoop (KeyedMap.pointers m) i iters = if ∀ j, i ≤ j → j < m.size → j ∈ m ∧ j + 1 < 2 ^ 31 then
        some (KeyedMap.pointers m, iters ++ (filesFrom m i).map .ofFile) else none := by
  induction hn : m.size - i generalizing i iters with
  | zero =>
    have hall : ∀ j, i ≤ j → j < m.size → j ∈ m ∧ j + 1 < 2 ^ 31 := by
      intro j hij hj
      omega
    rw [addLoop, if_neg (by rw [KeyedMap.size_pointers]; omega), if_pos hall]
    simp [filesFrom, hn]
  | succ n ih =>
    have hi : i < m.size := by omega
    rw [addLoop, if_pos (by rw [KeyedMap.size_pointers]; exact hi)]
    cases hfind : m.find? i with
    | none =>
      have hnone : (subscript (KeyedMap.pointers m) i).1 = none := by
        simp [subscript, KeyedMap.find?_pointers, hfind]
      have hnot : ¬ ∀ j, i ≤ j → j < m.size → j ∈ m ∧ j + 1 < 2 ^ 31 := fun h =>
        KeyedMap.find?_eq_none_iff.mp hfind (h i le_rfl hi).1
      rw [if_neg hnot]
      split
      · rfl
      · rename_i heq
        simp [heq] at hnone
    | some f =>
      have hsome : subscript (KeyedMap.pointers m) i = (some f, KeyedMap.pointers m) := by
        simp [subscript, KeyedMap.find?_pointers, hfind]
      have hmem : i ∈ m := KeyedMap.mem_iff_find?.mpr ⟨f, hfind⟩
      have hfiles : filesFrom m i = f :: filesFrom m (i + 1) := by
        unfold filesFrom
        rw [hn, show m.size - (i + 1) = n by omega, List.range'_succ,
          List.filterMap_cons_some hfind]
      split
      · rename_i heq
        simp [heq] at hsome
      · rename_i f' m' heq
        obtain ⟨rfl, rfl⟩ : f = f' ∧ KeyedMap.pointers m = m' := by
          simpa [hsome] using heq
        by_cases hint : i + 1 < 2 ^ 31
        · rw [if_pos hint, ih (i + 1) _ (by omega)]
          refine if_ctx_congr ⟨fun h j hij hj => ?_, fun h j hij hj => h j (by omega) hj⟩
            (fun _ => ?_) fun _ => rfl
          · rcases Nat.eq_or_lt_of_le hij with rfl | hlt
            · exact ⟨hmem, hint⟩
            · exact h j hlt hj
          · rw [hfiles, List.map_cons, List.append_assoc, List.singleton_append]
        · rw [if_neg hint, if_neg fun h => hint (h i le_rfl hi).2]

theorem addLoop_zero (m : FileMap) (iters : List ChildIterator) :
    addLoop (KeyedMap.pointers m) 0 iters =
      if Dense m then some (KeyedMap.pointers m, iters ++ (filesFrom m 0).map .ofFile)
      else none := by
  rw [addLoop_eq]
  refine if_congr ⟨fun h => ?_, fun h j _ hj => ⟨h.2 j hj, ?_⟩⟩ rfl rfl
  · refine ⟨?_, fun i hi => (h i (Nat.zero_le i) hi).1⟩
    by_contra hsize
    have := (h (m.size - 1) (Nat.zero_le _) (by omega)).2
    omega
  · have := h.1
    omega

/-! ## The version -/

/-- **What `AddIterators` does to a version.** -/
theorem addIterators_eq (v : Version) (iters : List ChildIterator) : v.addIterators iters =
    if Dense v.files ∧ Dense v.mergeCandidates then
      some (KeyedMap.pointers v.files, KeyedMap.pointers v.mergeCandidates,
        iters ++ (filesFrom v.files 0 ++ filesFrom v.mergeCandidates 0).map .ofFile)
    else none := by
  unfold addIterators
  rw [addLoop_zero]
  by_cases hfiles : Dense v.files
  · simp only [if_pos hfiles, Option.bind_eq_bind, Option.bind_some, addLoop_zero]
    by_cases hcandidates : Dense v.mergeCandidates
    · simp [hfiles, hcandidates]
    · simp [hcandidates]
  · simp [hfiles]

/-- **One iterator for each live table**: the iterators are those of some files of the
version, and each live number is the number of exactly one of them. -/
def OnePerTable (v : Version) (l : List ChildIterator) : Prop :=
  ∃ fs : List FileMetaData, l = fs.map .ofFile ∧
    (∀ f ∈ fs, f ∈ v.files.entries ∨ f ∈ v.mergeCandidates.entries) ∧
    (fs.map FileMetaData.number).Nodup ∧
    ∀ n, n ∈ fs.map FileMetaData.number ↔ v.IsAlive n

/-- **A scan covers every live table**: both functions finish, append one iterator for each
live table and nothing else, and leave the maps as they were. -/
structure CoversLiveTables (v : Version) : Prop where
  addIterators : ∀ iters, ∃ l, v.OnePerTable l ∧
    v.addIterators iters =
      some (KeyedMap.pointers v.files, KeyedMap.pointers v.mergeCandidates, iters ++ l)
  newInternalIterator : ∀ hasImm, ∃ l, v.OnePerTable l ∧
    newInternalIterator hasImm v =
      some (KeyedMap.pointers v.files, KeyedMap.pointers v.mergeCandidates,
        .mem :: ((if hasImm then [.imm] else []) ++ l))

theorem mem_entries_of_mem_filesFrom {m : FileMap} {i : ℕ} {f : FileMetaData}
    (hf : f ∈ filesFrom m i) : f ∈ m.entries := by
  obtain ⟨j, -, hj⟩ := List.mem_filterMap.mp hf
  exact (KeyedMap.find?_eq_some_iff.mp hj).1

theorem Dense.map_number_filesFrom {m : FileMap} (h : Dense m) :
    (filesFrom m 0).map FileMetaData.number = List.range m.size := by
  unfold filesFrom
  rw [List.map_filterMap, ← List.range_eq_range', Nat.sub_zero]
  calc (List.range m.size).filterMap (fun i => (m.find? i).map FileMetaData.number)
      = (List.range m.size).filterMap some := by
        refine List.filterMap_congr fun i hi => ?_
        obtain ⟨f, hf⟩ := KeyedMap.mem_iff_find?.mp (h.2 i (List.mem_range.mp hi))
        rw [hf, Option.map_some, (KeyedMap.find?_eq_some_iff.mp hf).2]
    _ = List.range m.size := List.filterMap_some

theorem map_number_filesFrom {v : Version} (hfiles : Dense v.files)
    (hcandidates : Dense v.mergeCandidates) :
    (filesFrom v.files 0 ++ filesFrom v.mergeCandidates 0).map FileMetaData.number =
      List.range v.files.size ++ List.range v.mergeCandidates.size := by
  rw [List.map_append, hfiles.map_number_filesFrom, hcandidates.map_number_filesFrom]

theorem onePerTable_filesFrom {v : Version} (hfiles : Dense v.files)
    (hcandidates : Dense v.mergeCandidates)
    (hempty : v.files.size = 0 ∨ v.mergeCandidates.size = 0) :
    v.OnePerTable ((filesFrom v.files 0 ++ filesFrom v.mergeCandidates 0).map .ofFile) := by
  refine ⟨_, rfl, fun f hf => ?_, ?_, fun n => ?_⟩
  · exact (List.mem_append.mp hf).imp mem_entries_of_mem_filesFrom mem_entries_of_mem_filesFrom
  · rw [map_number_filesFrom hfiles hcandidates]
    rcases hempty with h | h <;> simp [h, List.nodup_range]
  · rw [map_number_filesFrom hfiles hcandidates, List.mem_append, List.mem_range,
      List.mem_range, IsAlive, hfiles.mem_iff, hcandidates.mem_iff]

theorem map_number_of_map_ofFile {fs gs : List FileMetaData}
    (h : fs.map ChildIterator.ofFile = gs.map ChildIterator.ofFile) :
    fs.map FileMetaData.number = gs.map FileMetaData.number := by
  induction fs generalizing gs with
  | nil => simpa using h
  | cons f fs ih =>
    obtain ⟨g, gs, rfl, hhead, htail⟩ := List.map_eq_cons_iff.mp h.symm
    rw [List.map_cons, List.map_cons, ih htail.symm]
    injection hhead with hnumber
    rw [hnumber]

/-- **A scan covers every live table exactly when one map is empty and the other's files are
numbered from zero without a gap.** -/
theorem coversLiveTables_iff (v : Version) :
    v.CoversLiveTables ↔
      Dense v.files ∧ Dense v.mergeCandidates ∧
        (v.files.size = 0 ∨ v.mergeCandidates.size = 0) := by
  constructor
  · intro h
    obtain ⟨l, ⟨fs, rfl, -, hnodup, -⟩, hrun⟩ := h.addIterators []
    rw [addIterators_eq] at hrun
    split_ifs at hrun with hdense
    refine ⟨hdense.1, hdense.2, ?_⟩
    have hsame : (filesFrom v.files 0 ++ filesFrom v.mergeCandidates 0).map
        ChildIterator.ofFile = fs.map .ofFile := by
      simpa using hrun
    rw [← map_number_of_map_ofFile hsame, map_number_filesFrom hdense.1 hdense.2] at hnodup
    -- position 0 is visited once for each map that is not empty
    by_contra hboth
    rw [not_or] at hboth
    refine List.disjoint_of_nodup_append hnodup (a := 0) ?_ ?_ <;> rw [List.mem_range] <;> omega
  · rintro ⟨hfiles, hcandidates, hempty⟩
    have hrun : ∀ iters, v.addIterators iters = _ := fun iters =>
      (addIterators_eq v iters).trans (if_pos ⟨hfiles, hcandidates⟩)
    have hone := onePerTable_filesFrom hfiles hcandidates hempty
    refine ⟨fun iters => ⟨_, hone, hrun iters⟩, fun hasImm => ⟨_, hone, ?_⟩⟩
    rw [newInternalIterator, hrun, List.append_assoc, List.singleton_append]

/-- A version with one table, whose number is 5. -/
def oneTable : Version := new.addFile ⟨5, 0, 4096, 3, 3, ⟨[]⟩, ⟨[]⟩⟩

/-- **With a single table the scan reads through a null pointer.** -/
theorem newInternalIterator_oneTable :
    oneTable.IsAlive 5 ∧ newInternalIterator false oneTable = none := by
  refine ⟨by decide, ?_⟩
  have hsparse : ¬ Dense oneTable.files := by decide
  rw [newInternalIterator, addIterators_eq, if_neg fun h => hsparse h.1]

end Version

end McfKv
