import McfKv.Lib.KeyedMap
import McfKv.Db.DbFormat

/-!
# Versions (`db/version.h`, `db/version.cc`)

A `Version` is the set of live table files, split over two maps: `files_` and
`merge_candidates_`. Both are keyed by the file number stored in the entry, which
is what the assertions `iter.first == iter.second->number` of the source say, so
they are `KeyedMap`s here.

A file is live (`IsAlive`) when either map holds it. `moveToMerge` moves files
from the first map to the second, and `moveToMerge_moved` says that this never
changes which files are live. It holds without any assumption on the set of
numbers passed in: a number that `files_` does not hold raises an exception that
the loop swallows.
-/

namespace McfKv

/-- `struct FileMetaData`. -/
structure FileMetaData where
  number : ℕ
  allowedSeeks : ℕ
  fileSize : ℕ
  total : ℕ
  alive : ℕ
  smallest : InternalKey
  largest : InternalKey
deriving DecidableEq, Repr

/-- `std::unordered_map<uint64_t, std::shared_ptr<FileMetaData>>`, keyed by the
number of the file. -/
abbrev FileMap := KeyedMap FileMetaData.number

/-- `class Version`: its files, its merge candidates, the check count of each
file, and the group of files chosen for the next compaction. -/
structure Version where
  files : FileMap
  mergeCandidates : FileMap
  fileCheckCount : ℕ → Option ℤ
  filesToCompact : List FileMetaData
  maxKey : ℕ

namespace Version

/-- `Version::Version`. -/
def new : Version where
  files := ∅
  mergeCandidates := ∅
  fileCheckCount := fun _ => none
  filesToCompact := []
  maxKey := 0

/-- `Version::IsAlive`. -/
def IsAlive (v : Version) (n : ℕ) : Prop := n ∈ v.files ∨ n ∈ v.mergeCandidates

instance (v : Version) (n : ℕ) : Decidable (v.IsAlive n) :=
  inferInstanceAs (Decidable (_ ∨ _))

/-- No file is in both maps. -/
def Disjoint (v : Version) : Prop := ∀ n ∈ v.files, n ∉ v.mergeCandidates

/-- The metadata of a live file, `files_` first as `Version::GetFileSize` reads it. -/
def metaData? (v : Version) (n : ℕ) : Option FileMetaData :=
  (v.files.find? n).or (v.mergeCandidates.find? n)

/-- `Version::AddFile`. -/
def addFile (v : Version) (f : FileMetaData) : Version :=
  { v with
    maxKey := max v.maxKey (Coding.fastAtoi f.largest.userKey)
    files := v.files.insert f }

/-- `Version::AddCompactionFile`. -/
def addCompactionFile (v : Version) (f : FileMetaData) : Version :=
  { v with mergeCandidates := v.mergeCandidates.insert f }

/-- `Version::SetFileCheckCount`: an entry that is already there stays. -/
def setFileCheckCount (v : Version) (f : FileMetaData) (initialCount : ℤ) : Version :=
  { v with
    fileCheckCount := fun n =>
      if n = f.number then (v.fileCheckCount n).or (some initialCount)
      else v.fileCheckCount n }

/-- `file_check_count_[n]`, whose read of a missing entry is zero. -/
def checkCount (v : Version) (n : ℕ) : ℤ := (v.fileCheckCount n).getD 0

/-- `file_check_count_[n] = count`. -/
def setCheckCount (v : Version) (n : ℕ) (count : ℤ) : Version :=
  { v with fileCheckCount := Function.update v.fileCheckCount n (some count) }

/-- The loop of `Version::MoveToMerge`; `added` counts the numbers a scan has
looked at. -/
def moveLoop (isScan : Bool) : List ℕ → ℕ → Version → Version
  | [], _, v => v
  | f :: array, added, v =>
    if isScan ∧ added + 1 > Config.compactionMaxSize / 2 then v
    else
      match v.files.find? f with
      | some file =>
        moveLoop isScan array (added + 1)
          { v with
            files := v.files.erase f
            mergeCandidates := v.mergeCandidates.insert file }
      | none => moveLoop isScan array (added + 1) v

/-- `Version::MoveToMerge`. -/
def moveToMerge (v : Version) (array : List ℕ) (isScan : Bool) : Version :=
  if isScan ∧ v.mergeCandidates.size > Config.slowdownWritesTrigger then v
  else if v.mergeCandidates.size > Config.stopWritesTrigger then v
  else moveLoop isScan array 0 v

/-! ## What moving does -/

/-- **What can happen to a version when files are moved**: files of the first map become
candidates, and nothing else changes. -/
structure Moved (v v' : Version) : Prop where
  fileCheckCount : v'.fileCheckCount = v.fileCheckCount
  filesToCompact : v'.filesToCompact = v.filesToCompact
  isAlive : ∀ n, v'.IsAlive n ↔ v.IsAlive n
  files : ∀ n ∈ v'.files, n ∈ v.files
  candidates : ∀ n ∈ v.mergeCandidates, n ∈ v'.mergeCandidates
  disjoint : v.Disjoint → v'.Disjoint

theorem Moved.refl (v : Version) : Moved v v :=
  ⟨rfl, rfl, fun _ => Iff.rfl, fun _ => id, fun _ => id, id⟩

theorem Moved.trans {v₁ v₂ v₃ : Version} (h : Moved v₁ v₂) (h' : Moved v₂ v₃) : Moved v₁ v₃ :=
  ⟨h'.fileCheckCount.trans h.fileCheckCount, h'.filesToCompact.trans h.filesToCompact,
    fun n => (h'.isAlive n).trans (h.isAlive n), fun n hn => h.files n (h'.files n hn),
    fun n hn => h'.candidates n (h.candidates n hn), fun hv => h'.disjoint (h.disjoint hv)⟩

theorem Moved.single {v : Version} {f : ℕ} {file : FileMetaData}
    (hfind : v.files.find? f = some file) : Moved v { v with
      files := v.files.erase f
      mergeCandidates := v.mergeCandidates.insert file } := by
  obtain ⟨hmem, hnum⟩ := KeyedMap.find?_eq_some_iff.mp hfind
  have hf : f ∈ v.files := hnum ▸ KeyedMap.mem_of_mem_entries hmem
  refine ⟨rfl, rfl, fun n => ?_, fun n hn => (KeyedMap.mem_erase.mp hn).1,
    fun n hn => KeyedMap.mem_insert.mpr (Or.inl hn), fun hdisj n hn => ?_⟩
  · simp only [IsAlive, KeyedMap.mem_erase, KeyedMap.mem_insert, hnum]
    by_cases hnf : n = f
    · simp [hnf, hf]
    · simp [hnf]
  · simp only [KeyedMap.mem_erase] at hn
    simp only [KeyedMap.mem_insert, hnum, not_or]
    exact ⟨hdisj n hn.1, hn.2⟩

theorem moveLoop_moved (isScan : Bool) (array : List ℕ) :
    ∀ (added : ℕ) (v : Version), Moved v (moveLoop isScan array added v) := by
  induction array with
  | nil => exact fun _ v => Moved.refl v
  | cons f array ih =>
    intro added v
    unfold moveLoop
    split_ifs with hbreak
    · exact Moved.refl v
    · cases hfind : v.files.find? f with
      | none => exact ih (added + 1) v
      | some file => exact (Moved.single hfind).trans (ih (added + 1) _)

/-- **`MoveToMerge` only moves files**, whatever numbers it is given. -/
theorem moveToMerge_moved (v : Version) (array : List ℕ) (isScan : Bool) :
    Moved v (v.moveToMerge array isScan) := by
  unfold moveToMerge
  split_ifs
  · exact Moved.refl v
  · exact Moved.refl v
  · exact moveLoop_moved isScan array 0 v

end Version

end McfKv
