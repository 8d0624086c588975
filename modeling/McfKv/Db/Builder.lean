import McfKv.Db.VersionEdit

/-!
# The version builder (`VersionControl::Builder` in `db/version_control.cc`)

A `Builder` collects version edits (`apply`) and then writes the resulting version
(`saveTo`). `LogAndApply` gives each edit a builder of its own; `Recover` feeds
every edit of the manifest to one builder and saves once.

`saveTo` walks over the base version in the order of its hash tables. Each
iteration only touches the entry of its own file number, so the order does not
matter, and the model walks over the entries in the order the map lists them.

Two facts of the source shape the model.

* The metadata of a base file is shared between the base version and the new one.
  Subtracting the dead keys of a file therefore changes the base version too;
  `chargeBase` is the base version after a save.
* The share of live keys is computed as `100 * alive / total` in 64-bit unsigned
  arithmetic. A file without keys (`total = 0`) makes the division trap, and
  `saveTo` is then `none`.

`saveTo_files` and `saveTo_mergeCandidates` say what the saved version holds under
each file number; everything later in the development reads a saved version through
them.
-/

namespace McfKv

/-- `class VersionControl::Builder`, apart from its base version. -/
structure Builder where
  addedFiles : List FileMetaData
  deletedFiles : List ℕ
  deadKeyCounter : KeyedMap (Prod.fst : ℕ × ℕ → ℕ)

namespace Builder

/-- A builder that no edit has been applied to. -/
def new : Builder where
  addedFiles := []
  deletedFiles := []
  deadKeyCounter := ∅

/-- The `FileMetaData` that `Builder::Apply` allocates for a new file. -/
def newFile (f : FileMetaData) : FileMetaData :=
  let allowedSeeks := f.fileSize / 2048 % 2 ^ 32
  { f with allowedSeeks := if allowedSeeks < 100 then 100 else allowedSeeks }

/-- `Builder::Apply`. -/
def apply (b : Builder) (edit : VersionEdit) : Builder where
  deletedFiles :=
    edit.newFiles.foldl (fun deleted f => deleted.filter (· ≠ f.number))
      (b.deletedFiles ++ edit.deletedFiles)
  deadKeyCounter := b.deadKeyCounter.insertAll edit.deadKeyCounter.entries
  addedFiles := b.addedFiles ++ edit.newFiles.map newFile

/-- The dead keys recorded against a file, zero when there is no entry. -/
def dead (b : Builder) (n : ℕ) : ℕ := ((b.deadKeyCounter.find? n).map Prod.snd).getD 0

/-- The metadata of a base file with its dead keys subtracted, if the file
survives. -/
def survivor (b : Builder) (f : FileMetaData) : Option FileMetaData :=
  if f.number ∈ b.deletedFiles then none
  else if b.dead f.number < f.alive then some { f with alive := f.alive - b.dead f.number }
  else none

/-- The comparison `100 * f->alive / f->total <= threshold`, made in `uint64_t`. -/
def isLow (threshold : ℤ) (f : FileMetaData) : Prop :=
  ((100 * f.alive % 2 ^ 64 / f.total : ℕ) : ℤ) ≤ threshold % 2 ^ 64

instance (threshold : ℤ) (f : FileMetaData) : Decidable (isLow threshold f) :=
  inferInstanceAs (Decidable (_ ≤ _))

/-- One iteration over `base_->files_`. The flag is `state_change_`. -/
def saveFile (b : Builder) (base : Version) (threshold : ℤ) (st : Version × Bool)
    (f : FileMetaData) : Option (Version × Bool) :=
  match b.survivor f with
  | none => some st
  | some f' =>
    if f'.total = 0 then none
    else if isLow threshold f' then
      some ((st.1.addCompactionFile f').setFileCheckCount f' (-1), true)
    else some ((st.1.addFile f').setFileCheckCount f' (base.checkCount f.number), st.2)

/-- One iteration over `base_->merge_candidates_`. -/
def saveCandidate (b : Builder) (v : Version) (f : FileMetaData) : Version :=
  if f.number ∈ b.deletedFiles then v
  else (v.addCompactionFile f).setFileCheckCount f (-1)

/-- One iteration over `added_files_`. -/
def saveAdded (v : Version) (f : FileMetaData) : Version :=
  (v.addFile f).setFileCheckCount f 0

/-- `Builder::SaveTo`; its parameter `is_major` is not read. -/
def saveTo (b : Builder) (base v : Version) (threshold : ℤ) (stateChange : Bool) :
    Option (Version × Bool) :=
  (base.files.entries.foldlM (b.saveFile base threshold) (v, stateChange)).map fun st =>
    (b.addedFiles.foldl saveAdded
      (base.mergeCandidates.entries.foldl b.saveCandidate st.1), st.2)

/-- The metadata of a base file after a save: the entry is shared. -/
def charge (b : Builder) (f : FileMetaData) : FileMetaData := (b.survivor f).getD f

variable {b : Builder} {f f' : FileMetaData} {threshold : ℤ} {base : Version}

theorem survivor_number (h : b.survivor f = some f') : f'.number = f.number := by
  unfold survivor at h
  split_ifs at h
  obtain rfl := Option.some.inj h
  rfl

theorem charge_number (b : Builder) (f : FileMetaData) : (b.charge f).number = f.number := by
  unfold charge
  cases h : b.survivor f with
  | none => rfl
  | some f' => exact survivor_number h

/-- The base version after a save. -/
def chargeBase (b : Builder) (base : Version) : Version :=
  { base with files := base.files.map b.charge b.charge_number }

/-! ## What a builder collects -/

theorem mem_foldl_filter_ne (l : List FileMetaData) (deleted : List ℕ) (n : ℕ) :
    n ∈ l.foldl (fun deleted f => deleted.filter (· ≠ f.number)) deleted ↔
      n ∈ deleted ∧ ∀ f ∈ l, f.number ≠ n := by
  induction l generalizing deleted with
  | nil => simp
  | cons f l ih =>
    rw [List.foldl_cons, ih]
    simp only [List.mem_filter, decide_eq_true_eq, List.forall_mem_cons, and_assoc]
    exact and_congr_right fun _ => and_congr_left fun _ => ne_comm

/-- A number is marked deleted when it was marked before or the edit deletes it,
unless the edit adds it. -/
theorem mem_deletedFiles_apply {edit : VersionEdit} {n : ℕ} : n ∈ (b.apply edit).deletedFiles ↔
    (n ∈ b.deletedFiles ∨ n ∈ edit.deletedFiles) ∧ ∀ f ∈ edit.newFiles, f.number ≠ n := by
  unfold apply
  rw [mem_foldl_filter_ne, List.mem_append]

@[simp] theorem newFile_number (f : FileMetaData) : (newFile f).number = f.number := rfl

@[simp] theorem newFile_alive (f : FileMetaData) : (newFile f).alive = f.alive := rfl

@[simp] theorem newFile_total (f : FileMetaData) : (newFile f).total = f.total := rfl

theorem find?_deadKeyCounter_apply (b : Builder) (edit : VersionEdit) (n : ℕ) :
    (b.apply edit).deadKeyCounter.find? n =
      (b.deadKeyCounter.find? n).or (edit.deadKeyCounter.find? n) :=
  KeyedMap.find?_insertAll _ _ _

section NewApply

variable {edit : VersionEdit} {n : ℕ}

theorem mem_deletedFiles_new_apply : n ∈ (new.apply edit).deletedFiles ↔
    n ∈ edit.deletedFiles ∧ ∀ f ∈ edit.newFiles, f.number ≠ n := by
  rw [mem_deletedFiles_apply]
  simp [new]

theorem dead_new_apply : (new.apply edit).dead n = edit.dead n := by
  unfold dead VersionEdit.dead
  rw [find?_deadKeyCounter_apply]
  rfl

theorem mem_addedFiles_new_apply {f : FileMetaData} :
    f ∈ (new.apply edit).addedFiles ↔ ∃ g ∈ edit.newFiles, newFile g = f := by
  simp [apply, new]

end NewApply

/-! ## What a save writes -/

/-- The entry a base file leaves in `files_`. -/
def keep (b : Builder) (threshold : ℤ) (f : FileMetaData) : Option FileMetaData :=
  (b.survivor f).filter fun f' => ¬ isLow threshold f'

/-- The entry a base file leaves in `merge_candidates_`. -/
def move (b : Builder) (threshold : ℤ) (f : FileMetaData) : Option FileMetaData :=
  (b.survivor f).filter fun f' => isLow threshold f'

theorem keep_number (h : b.keep threshold f = some f') : f'.number = f.number :=
  survivor_number (Option.filter_eq_some_iff.mp h).1

theorem move_number (h : b.move threshold f = some f') : f'.number = f.number :=
  survivor_number (Option.filter_eq_some_iff.mp h).1

/-- What one iteration over the files does: a file that does not survive is left out, one with few
keys becomes a candidate, and the others are kept. -/
theorem saveFile_cases {st st' : Version × Bool} (h : b.saveFile base threshold st f = some st') :
    (b.survivor f = none ∧ st' = st) ∨ ∃ f', b.survivor f = some f' ∧ ((isLow threshold f' ∧
          st' = ((st.1.addCompactionFile f').setFileCheckCount f' (-1), true)) ∨
        (¬ isLow threshold f' ∧
          st' = ((st.1.addFile f').setFileCheckCount f' (base.checkCount f.number), st.2))) := by
  unfold saveFile at h
  cases hsurv : b.survivor f with
  | none =>
    simp only [hsurv, Option.some.injEq] at h
    exact Or.inl ⟨rfl, h.symm⟩
  | some f' =>
    simp only [hsurv] at h
    split_ifs at h with htotal hlow
    · exact Or.inr ⟨f', rfl, Or.inl ⟨hlow, (Option.some.inj h).symm⟩⟩
    · exact Or.inr ⟨f', rfl, Or.inr ⟨hlow, (Option.some.inj h).symm⟩⟩

theorem foldlM_saveFile (l : List FileMetaData) :
    ∀ {st st' : Version × Bool}, l.foldlM (b.saveFile base threshold) st = some st' →
      st'.1.files = st.1.files.insertAll (l.filterMap (b.keep threshold)) ∧ st'.1.mergeCandidates =
        st.1.mergeCandidates.insertAll (l.filterMap (b.move threshold)) := by
  induction l with
  | nil =>
    intro st st' h
    obtain rfl : st = st' := by simpa using h
    exact ⟨rfl, rfl⟩
  | cons f l ih =>
    intro st st' h
    rw [List.foldlM_cons] at h
    obtain ⟨mid, hmid, hrest⟩ := Option.bind_eq_some_iff.mp h
    obtain ⟨hfiles, hmerge⟩ := ih hrest
    rw [hfiles, hmerge]
    rcases saveFile_cases hmid with ⟨hsurv, rfl⟩ | ⟨f', hsurv, ⟨hlow, rfl⟩ | ⟨hlow, rfl⟩⟩
    · simp [keep, move, hsurv]
    · have hkeep : b.keep threshold f = none := by simp [keep, hsurv, hlow]
      have hmove : b.move threshold f = some f' := by simp [move, hsurv, hlow]
      rw [List.filterMap_cons_none hkeep, List.filterMap_cons_some hmove]
      exact ⟨rfl, rfl⟩
    · have hkeep : b.keep threshold f = some f' := by simp [keep, hsurv, hlow]
      have hmove : b.move threshold f = none := by simp [move, hsurv, hlow]
      rw [List.filterMap_cons_some hkeep, List.filterMap_cons_none hmove]
      exact ⟨rfl, rfl⟩

theorem foldlM_saveFile_isSome (b : Builder) (base : Version) (threshold : ℤ)
    {l : List FileMetaData} (h : ∀ f ∈ l, f.total ≠ 0) :
    ∀ st : Version × Bool, (l.foldlM (b.saveFile base threshold) st).isSome := by
  induction l with
  | nil => exact fun _ => rfl
  | cons f l ih =>
    intro st
    obtain ⟨hf, hl⟩ := List.forall_mem_cons.mp h
    have hstep : ∃ mid, b.saveFile base threshold st f = some mid := by
      unfold saveFile
      cases hsurv : b.survivor f with
      | none => exact ⟨_, rfl⟩
      | some f' =>
        have htotal : f'.total ≠ 0 := by
          unfold survivor at hsurv
          split_ifs at hsurv
          obtain rfl := Option.some.inj hsurv
          exact hf
        simp only [htotal, if_false]
        split_ifs
        · exact ⟨_, rfl⟩
        · exact ⟨_, rfl⟩
    obtain ⟨mid, hmid⟩ := hstep
    rw [List.foldlM_cons, hmid]
    exact ih hl mid

theorem foldl_saveCandidate (b : Builder) (l : List FileMetaData) : ∀ v : Version,
    (l.foldl b.saveCandidate v).files = v.files ∧ (l.foldl b.saveCandidate v).mergeCandidates =
      v.mergeCandidates.insertAll (l.filter fun f => f.number ∉ b.deletedFiles) := by
  induction l with
  | nil => exact fun v => ⟨rfl, rfl⟩
  | cons f l ih =>
    intro v
    rw [List.foldl_cons]
    obtain ⟨hfiles, hmerge⟩ := ih (b.saveCandidate v f)
    rw [hfiles, hmerge]
    unfold saveCandidate
    split_ifs with hdel
    · simp [hdel]
    · simp [hdel, Version.addCompactionFile, Version.setFileCheckCount]

theorem foldl_saveAdded (l : List FileMetaData) : ∀ v : Version,
    (l.foldl saveAdded v).files = v.files.insertAll l ∧
    (l.foldl saveAdded v).mergeCandidates = v.mergeCandidates := by
  induction l with
  | nil => exact fun v => ⟨rfl, rfl⟩
  | cons f l ih =>
    intro v
    rw [List.foldl_cons]
    obtain ⟨hfiles, hmerge⟩ := ih (saveAdded v f)
    rw [hfiles, hmerge]
    exact ⟨rfl, rfl⟩

section SaveTo

variable {b : Builder} {base v : Version} {threshold : ℤ} {stateChange stateChange' : Bool}

section

variable (h : b.saveTo base Version.new threshold stateChange = some (v, stateChange'))

include h

/-- **The files of a saved version**: the base files that survive with enough live
keys, and then the added files. -/
theorem saveTo_files (n : ℕ) : v.files.find? n = ((base.files.find? n).bind (b.keep threshold)).or
    (b.addedFiles.find? fun f => decide (f.number = n)) := by
  obtain ⟨st, hst, heq⟩ := Option.map_eq_some_iff.mp h
  obtain ⟨rfl, -⟩ := Prod.mk.inj heq
  rw [(foldl_saveAdded _ _).1, (foldl_saveCandidate b _ _).1, (foldlM_saveFile _ hst).1,
    KeyedMap.find?_insertAll, KeyedMap.find?_insertAll,
    KeyedMap.find?_filterMap (fun _ _ => keep_number) base.files.nodup]
  rfl

/-- **The merge candidates of a saved version**: the base files that survive with
few live keys, and then the base candidates that are not deleted. -/
theorem saveTo_mergeCandidates (n : ℕ) :
    v.mergeCandidates.find? n = ((base.files.find? n).bind (b.move threshold)).or
      (if n ∈ b.deletedFiles then none else base.mergeCandidates.find? n) := by
  obtain ⟨st, hst, heq⟩ := Option.map_eq_some_iff.mp h
  obtain ⟨rfl, -⟩ := Prod.mk.inj heq
  rw [(foldl_saveAdded _ _).2, (foldl_saveCandidate b _ _).2, (foldlM_saveFile _ hst).2,
    KeyedMap.find?_insertAll, KeyedMap.find?_insertAll,
    KeyedMap.find?_filterMap (fun _ _ => move_number) base.files.nodup]
  congr 1
  split_ifs with hdel
  · rw [List.find?_eq_none]
    intro f hf
    have hmem := (List.mem_filter.mp hf).2
    simp only [decide_eq_true_eq] at hmem ⊢
    rintro rfl
    exact hmem hdel
  · rw [List.find?_filter, KeyedMap.find?]
    congr 1
    funext f
    by_cases hf : f.number = n
    · simp [hf, hdel]
    · simp [hf]

/-- **The live files of a saved version.** -/
theorem saveTo_isAlive (n : ℕ) : v.IsAlive n ↔ ((base.files.find? n).bind b.survivor).isSome ∨
    (n ∉ b.deletedFiles ∧ n ∈ base.mergeCandidates) ∨ ∃ f ∈ b.addedFiles, f.number = n := by
  have hfiles : n ∈ v.files ↔ ((base.files.find? n).bind (b.keep threshold)).isSome ∨
      ∃ f ∈ b.addedFiles, f.number = n := by
    rw [KeyedMap.mem_iff_find?, ← Option.isSome_iff_exists, saveTo_files h]
    simp [List.find?_isSome]
  have hmerge : n ∈ v.mergeCandidates ↔ ((base.files.find? n).bind (b.move threshold)).isSome ∨
      (n ∉ b.deletedFiles ∧ n ∈ base.mergeCandidates) := by
    rw [KeyedMap.mem_iff_find?, ← Option.isSome_iff_exists, saveTo_mergeCandidates h,
      KeyedMap.mem_iff_find?, ← Option.isSome_iff_exists]
    split_ifs with hdel <;> simp [hdel]
  have hsurv : ((base.files.find? n).bind b.survivor).isSome ↔
      ((base.files.find? n).bind (b.keep threshold)).isSome ∨
        ((base.files.find? n).bind (b.move threshold)).isSome := by
    cases base.files.find? n with
    | none => simp
    | some f =>
      cases hf : b.survivor f with
      | none => simp [keep, move, hf]
      | some f' => by_cases hlow : isLow threshold f' <;> simp [keep, move, hf, hlow]
  unfold Version.IsAlive
  rw [hfiles, hmerge, hsurv, ← eq_iff_iff]
  ac_rfl

theorem saveTo_disjoint (hbase : base.Disjoint)
    (hfresh : ∀ f ∈ b.addedFiles, ¬ base.IsAlive f.number) : v.Disjoint := by
  intro n hfile hcand
  obtain ⟨f, hf⟩ := KeyedMap.mem_iff_find?.mp hfile
  obtain ⟨g, hg⟩ := KeyedMap.mem_iff_find?.mp hcand
  rw [saveTo_files h] at hf
  rw [saveTo_mergeCandidates h] at hg
  cases hn : base.files.find? n with
  | some f0 =>
    -- the file is sorted into one of the maps, and it is no candidate of the base
    have hmerge : base.mergeCandidates.find? n = none :=
      KeyedMap.find?_eq_none_iff.mpr (hbase n (KeyedMap.mem_iff_find?.mpr ⟨f0, hn⟩))
    have hadded : (b.addedFiles.find? fun f => decide (f.number = n)) = none := by
      rw [List.find?_eq_none]
      intro f hmem heq
      refine hfresh f hmem (Or.inl (KeyedMap.mem_iff_find?.mpr ⟨f0, ?_⟩))
      rw [of_decide_eq_true heq, hn]
    simp only [hn, hmerge, hadded, Option.bind_some, ite_self, Option.or_none] at hf hg
    cases hsurv : b.survivor f0 with
    | none => simp [keep, hsurv] at hf
    | some f1 =>
      simp only [keep, move, hsurv, Option.filter_eq_some_iff, Option.some.injEq,
        decide_eq_true_eq] at hf hg
      exact hf.2 (hf.1 ▸ hg.1 ▸ hg.2)
  | none =>
    simp only [hn, Option.bind_none, Option.none_or] at hf hg
    have hmem := List.mem_of_find?_eq_some hf
    have hnum : f.number = n := by simpa using List.find?_some hf
    split_ifs at hg
    exact hfresh f hmem (Or.inr (KeyedMap.mem_iff_find?.mpr ⟨g, hnum ▸ hg⟩))

end

end SaveTo

/-! ## Builders with the same contents -/

/-- Builders that agree on everything a save reads. -/
structure Agrees (b b' : Builder) : Prop where
  addedFiles : b.addedFiles = b'.addedFiles
  deletedFiles : b.deletedFiles = b'.deletedFiles
  deadKeyCounter : ∀ n, b.deadKeyCounter.find? n = b'.deadKeyCounter.find? n

theorem Agrees.saveTo_eq {b' : Builder} (h : Agrees b b') (base v : Version) (threshold : ℤ)
    (stateChange : Bool) :
    b.saveTo base v threshold stateChange = b'.saveTo base v threshold stateChange := by
  have hsurvivor : b.survivor = b'.survivor := by
    funext f
    unfold survivor dead
    rw [h.deletedFiles, h.deadKeyCounter]
  have hfile : b.saveFile base threshold = b'.saveFile base threshold := by
    funext st f
    unfold saveFile
    rw [hsurvivor]
  have hcandidate : b.saveCandidate = b'.saveCandidate := by
    funext v f
    unfold saveCandidate
    rw [h.deletedFiles]
  unfold saveTo
  rw [hfile, hcandidate, h.addedFiles]

end Builder

end McfKv
