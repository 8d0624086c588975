import McfKv.Db.FileAccess
import McfKv.Db.LogAndApply
import McfKv.Db.Recover
import McfKv.Lib.Run

/-!
# Check counts (`file_check_count_` in `db/version.h`)

`PickCandidates` and `EvictCandidates` divide by the check count of a file plus one, and a save
gives the count `-1` to the files it marks for compaction. So a file with that count must never
be among the files that are picked from, and every file there must have a count. `EvictAll` gives
candidates back to `files_` and ends the process when a file is in both maps.

`Version.Counted` is the bookkeeping that rules both out. Each operation keeps it:

* moving files (`MoveToMerge`, from a read or from `PickCandidates`) — `Moved.counted`;
* the rounds of `Finalize` and `EvictAll`, which then also return — `finalize_counted`;
* a save of an edit whose new files are fresh — `saveTo_counted`, with `Building` for the version
  that is being put together.

`checkCounts_bounded` puts them together for all runs of `Recover`, `LogAndApply` and
`RegisterFileAccess`.
-/

namespace McfKv

namespace Version

/-- No file is in both maps, every live file has a count, and a file with the count `-1` is a
candidate. -/
structure Counted (v : Version) : Prop where
  disjoint : v.Disjoint
  counts : ∀ n, v.IsAlive n →
    ∃ c, v.fileCheckCount n = some c ∧ -1 ≤ c ∧ c ≤ Config.maxRoundNumberForPerFile
  permanent : ∀ n, v.fileCheckCount n = some (-1) → n ∈ v.mergeCandidates

/-- The files that a save has marked for compaction. -/
def marked (v : Version) : Set ℕ := {n | v.fileCheckCount n = some (-1)}

/-- The merge candidates that a save has marked for compaction: their check count is `-1`. -/
def markedCandidates (v : Version) : FileMap :=
  v.mergeCandidates.filter fun f => v.checkCount f.number = -1

theorem counted_new : Counted Version.new :=
  ⟨fun n hn => absurd hn (KeyedMap.notMem_empty n),
    fun n hn => absurd hn (not_or.mpr ⟨KeyedMap.notMem_empty n, KeyedMap.notMem_empty n⟩),
    fun _ hn => nomatch hn⟩

section Counted

variable {v v' : Version}

theorem Counted.file (h : Counted v) {n : ℕ} (hn : n ∈ v.files) :
    ∃ c, v.fileCheckCount n = some c ∧ 0 ≤ c ∧ c ≤ Config.maxRoundNumberForPerFile := by
  obtain ⟨c, hc, hlow, hhigh⟩ := h.counts n (Or.inl hn)
  have hne : c ≠ -1 := by
    rintro rfl
    exact h.disjoint n hn (h.permanent n hc)
  exact ⟨c, hc, by omega, hhigh⟩

theorem Moved.counted (hm : Moved v v') (h : Counted v) : Counted v' where
  disjoint := hm.disjoint h.disjoint
  counts n hn := by
    rw [hm.fileCheckCount]
    exact h.counts n ((hm.isAlive n).mp hn)
  permanent n hn := by
    rw [hm.fileCheckCount] at hn
    exact hm.candidates n (h.permanent n hn)

theorem setCheckCount_fileCheckCount (v : Version) (n : ℕ) (c : ℤ) (m : ℕ) :
    (v.setCheckCount n c).fileCheckCount m = if m = n then some c else v.fileCheckCount m :=
  Function.update_apply ..

theorem mem_marked {n : ℕ} : n ∈ v.marked ↔ v.checkCount n = -1 := by
  change v.fileCheckCount n = some (-1) ↔ (v.fileCheckCount n).getD 0 = -1
  cases v.fileCheckCount n with
  | none => decide
  | some c => exact Option.some_inj

theorem Counted.mem_markedCandidates (hv : Counted v) (n : ℕ) :
    n ∈ v.markedCandidates ↔ n ∈ v.marked := by
  simp only [markedCandidates, KeyedMap.mem_def, KeyedMap.entries_filter, List.mem_filter,
    decide_eq_true_eq]
  constructor
  · rintro ⟨f, ⟨-, hcount⟩, rfl⟩
    exact mem_marked.mpr hcount
  · intro hn
    obtain ⟨f, hf, rfl⟩ := KeyedMap.mem_def.mp (hv.permanent n hn)
    exact ⟨f, ⟨hf, mem_marked.mp hn⟩, rfl⟩

theorem Moved.marked (hm : Moved v v') : v'.marked = v.marked := by
  unfold Version.marked
  rw [hm.fileCheckCount]

/-- A count that is set from one that is not negative to another leaves the marks. -/
theorem marked_setCheckCount {n : ℕ} {c : ℤ} (hn : n ∉ v.marked) (hc : 0 ≤ c) :
    (v.setCheckCount n c).marked = v.marked := by
  ext m
  change (v.setCheckCount n c).fileCheckCount m = some (-1) ↔ _
  rw [setCheckCount_fileCheckCount]
  split_ifs with hmn
  · subst hmn
    refine iff_of_false (fun heq => ?_) hn
    have hcm : c = -1 := Option.some.inj heq
    omega
  · rfl

theorem Counted.setCheckCount (h : Counted v) (n : ℕ) {c : ℤ} (h0 : 0 ≤ c)
    (hc : c ≤ Config.maxRoundNumberForPerFile) : Counted (v.setCheckCount n c) where
  disjoint := h.disjoint
  counts m hm := by
    rw [setCheckCount_fileCheckCount]
    split_ifs with hmn
    · exact ⟨c, rfl, by omega, hc⟩
    · exact h.counts m hm
  permanent m hm := by
    rw [setCheckCount_fileCheckCount] at hm
    split_ifs at hm with hmn
    · have hcm : c = -1 := Option.some.inj hm
      omega
    · exact h.permanent m hm

theorem Counted.dropCandidates (h : Counted v) {tmp : FileMap}
    (hsub : ∀ n ∈ tmp, n ∈ v.mergeCandidates)
    (hkeep : ∀ n ∈ v.mergeCandidates, v.checkCount n = -1 → n ∈ tmp) :
    Counted { v with mergeCandidates := tmp } where
  disjoint n hn hn' := h.disjoint n hn (hsub n hn')
  counts n hn := h.counts n (hn.imp id (hsub n))
  permanent n hn := hkeep n (h.permanent n hn) (by rw [checkCount, hn]; rfl)

end Counted

end Version

open Version

/-! ## `Finalize` returns and keeps the bookkeeping -/

namespace VersionControl

variable {D : Type*}

theorem exists_drawRem (draw : ℕ) {cnt : ℤ} (h0 : 0 ≤ cnt)
    (hcnt : cnt ≤ Config.maxRoundNumberForPerFile) : ∃ r, drawRem draw cnt = some r := by
  unfold Config.maxRoundNumberForPerFile at hcnt
  unfold drawRem
  dsimp only
  rw [if_neg (by omega)]
  exact ⟨_, rfl⟩

theorem pickLoop_counted (draw : ℕ → ℕ) (count : ℕ) (l : List FileMetaData) :
    ∀ (i : ℕ) (picked : List ℕ) {v : Version}, Counted v → (∀ f ∈ l, f.number ∈ v.files) →
      ∃ picked' v', pickLoop draw count l i picked v = some (picked', v') ∧ Counted v' ∧
        v'.marked = v.marked := by
  induction l with
  | nil => exact fun i picked v hv _ => ⟨picked, v, rfl, hv, rfl⟩
  | cons f rest ih =>
    intro i picked v hv hl
    obtain ⟨hf, hrest⟩ := List.forall_mem_cons.mp hl
    unfold pickLoop
    split_ifs with hgo
    · obtain ⟨c, hc, h0, hmax⟩ := hv.file hf
      have hcount : v.checkCount f.number = c := by rw [checkCount, hc]; rfl
      have hmark : f.number ∉ v.marked := fun hmem => by
        have hneg := mem_marked.mp hmem
        omega
      obtain ⟨r, hr⟩ := exists_drawRem (draw i) h0 hmax
      -- a picked file gets a count of at least one, so it is not marked
      have hset : ∀ c' : ℤ, 0 ≤ c' → c' ≤ Config.maxRoundNumberForPerFile →
          ∃ picked' v', pickLoop draw count rest (i + 1) (setInsert (f.number % 2 ^ 32) picked)
            (v.setCheckCount f.number c') = some (picked', v') ∧ Counted v' ∧
              v'.marked = v.marked := by
        intro c' h0' hmax'
        obtain ⟨picked', v', hloop, hv', hmarked⟩ :=
          ih (i + 1) (setInsert (f.number % 2 ^ 32) picked) (hv.setCheckCount _ h0' hmax') hrest
        exact ⟨picked', v', hloop, hv', hmarked.trans (marked_setCheckCount hmark h0')⟩
      simp only [hcount, hr]
      split_ifs with hr0 hfull
      · exact hset 1 (by decide) (by decide)
      · exact hset (c + 1) (by omega) (by omega)
      · exact ih _ _ hv hrest
    · exact ⟨picked, v, rfl, hv, rfl⟩

theorem pickCandidates_counted (env : Env D) (round : ℕ) {v : Version} (hv : Counted v) :
    ∃ v', pickCandidates env round v = some v' ∧ Counted v' ∧ v'.marked = v.marked := by
  unfold pickCandidates
  split_ifs with hfew hmany
  · exact ⟨v, rfl, hv, rfl⟩
  · exact ⟨v, rfl, hv, rfl⟩
  · dsimp only
    generalize (if Config.filesToPickAtOneRound - v.mergeCandidates.size > v.files.size then
      Config.pickRatio v.files.size
      else Config.filesToPickAtOneRound - v.mergeCandidates.size) = count
    obtain ⟨picked, w, hloop, hw, hmarked⟩ := pickLoop_counted (env.pickDraw round) count
      (env.order round v.files) 0 [] hv fun f hf => (mem_order env round).mpr ⟨f, hf, rfl⟩
    refine ⟨_, by rw [hloop, Option.map_some], ?_⟩
    dsimp only
    split_ifs
    · exact ⟨hw, hmarked⟩
    · have hmoved := moveToMerge_moved w picked false
      exact ⟨hmoved.counted hw, hmoved.marked.trans hmarked⟩

theorem evictLoop_counted {v : Version} (draw : ℕ → ℕ) (l : List FileMetaData) :
    ∀ (i : ℕ) (tmp : FileMap), (∀ f ∈ l, -1 ≤ v.checkCount f.number ∧
        v.checkCount f.number ≤ Config.maxRoundNumberForPerFile) →
      ∃ tmp', evictLoop v draw l i tmp = some tmp' ∧ (∀ n ∈ tmp, n ∈ tmp') ∧
        ∀ f ∈ l, v.checkCount f.number = -1 → f.number ∈ tmp' := by
  induction l with
  | nil => exact fun i tmp _ => ⟨tmp, rfl, fun _ => id, by simp⟩
  | cons f rest ih =>
    intro i tmp hl
    obtain ⟨⟨hlow, hhigh⟩, hrest⟩ := List.forall_mem_cons.mp hl
    unfold evictLoop
    split_ifs with hcnt
    · obtain ⟨tmp', hloop, hsub, hkeep⟩ := ih i (tmp.insert f) hrest
      refine ⟨tmp', hloop, fun n hn => hsub n (KeyedMap.mem_insert.mpr (Or.inl hn)),
        List.forall_mem_cons.mpr ⟨fun _ => ?_, hkeep⟩⟩
      exact hsub _ (KeyedMap.mem_insert.mpr (Or.inr rfl))
    · obtain ⟨r, hr⟩ := exists_drawRem (draw i) (by omega) hhigh
      obtain ⟨tmp', hloop, hsub, hkeep⟩ :=
        ih (i + 1) (if r = 0 then tmp.insert f else tmp) hrest
      simp only [hr]
      refine ⟨tmp', hloop, fun n hn => hsub n ?_,
        List.forall_mem_cons.mpr ⟨fun heq => absurd heq hcnt, hkeep⟩⟩
      split_ifs
      · exact KeyedMap.mem_insert.mpr (Or.inl hn)
      · exact hn

theorem evictCandidates_counted (env : Env D) (round : ℕ) {v : Version} (hv : Counted v) :
    ∃ v', evictCandidates env round v = some v' ∧ Counted v' ∧ v'.marked = v.marked := by
  have hcounts : ∀ f ∈ env.order round v.mergeCandidates, -1 ≤ v.checkCount f.number ∧
      v.checkCount f.number ≤ Config.maxRoundNumberForPerFile := by
    intro f hf
    obtain ⟨c, hc, hrange⟩ := hv.counts f.number (Or.inr ((mem_order env round).mpr ⟨f, hf, rfl⟩))
    rw [checkCount, hc]
    exact hrange
  obtain ⟨tmp, hloop, -, hkeep⟩ := evictLoop_counted (env.evictDraw round) _ 0 ∅ hcounts
  have heq : evictCandidates env round v = some { v with mergeCandidates := tmp } := by
    rw [evictCandidates, hloop, Option.map_some]
  refine ⟨_, heq, hv.dropCandidates (evictCandidates_subset heq).2 fun n hn hcnt => ?_, rfl⟩
  obtain ⟨f, hf, rfl⟩ := (mem_order env round).mp hn
  exact hkeep f hf hcnt

/-- `EvictAll` leaves the marked files as the candidates. -/
theorem evictAll_counted (env : Env D) {v : Version} (hv : Counted v) :
    ∃ v', evictAll env v = some v' ∧ Counted v' ∧ ∀ n, n ∈ v'.mergeCandidates ↔ n ∈ v.marked := by
  obtain ⟨v', hall, halive, hdisj⟩ := evictAll_spec env hv.disjoint
  obtain ⟨files', tmp', heq, -, hmem'⟩ := evictAll_maps env hv.disjoint
  obtain rfl := Option.some.inj (hall.symm.trans heq)
  have hcand : ∀ n, n ∈ tmp' ↔ n ∈ v.marked := fun n => by
    rw [hmem', ← mem_marked, and_iff_right_of_imp]
    exact hv.permanent n
  exact ⟨_, heq, ⟨hdisj, fun n hn => hv.counts n ((halive n).mp hn), fun n => (hcand n).mpr⟩, hcand⟩

theorem finalizeLoop_counted (env : Env D) (stateChange : Bool) (left : ℕ) :
    ∀ {v : Version}, Counted v →
      ∃ v', finalizeLoop env stateChange left v = some v' ∧ Counted v' ∧
        v'.marked = v.marked := by
  induction left with
  | zero => exact fun {v} hv => ⟨v, rfl, hv, rfl⟩
  | succ left ih =>
    intro v hv
    obtain ⟨v1, hpick, hv1, hmarked⟩ :=
      pickCandidates_counted env (Config.maxMergeCandidateCheckRound - (left + 1)) hv
    unfold finalizeLoop
    dsimp only
    rw [hpick, Option.bind_some]
    split_ifs with hgroup
    · exact ⟨_, rfl, ⟨hv1.disjoint, hv1.counts, hv1.permanent⟩, hmarked⟩
    · obtain ⟨v2, hevict, hv2, hmarked2⟩ := evictCandidates_counted env
        (Config.maxMergeCandidateCheckRound - (left + 1)) (v := { v1 with filesToCompact := [] })
        ⟨hv1.disjoint, hv1.counts, hv1.permanent⟩
      obtain ⟨v3, hloop, hv3, hmarked3⟩ := ih hv2
      exact ⟨v3, Option.bind_eq_some_iff.mpr ⟨v2, hevict, hloop⟩, hv3,
        hmarked3.trans (hmarked2.trans hmarked)⟩

/-- **No division by zero and no exit in `Finalize`**: it returns, and keeps the bookkeeping. The
candidates that it leaves are the marked files: no draw drops one of them, and `EvictAll` gives all
others back. -/
theorem finalize_counted (env : Env D) (stateChange : Bool) {v : Version} (hv : Counted v) :
    ∃ v', finalize env stateChange v = some v' ∧ Counted v' ∧
      ∀ n, n ∈ v'.mergeCandidates ↔ n ∈ v.marked := by
  obtain ⟨w, hloop, hw, hmarked⟩ :=
    finalizeLoop_counted env stateChange Config.maxMergeCandidateCheckRound hv
  obtain ⟨v', hall, hv', hcand⟩ := evictAll_counted env hw
  exact ⟨v', Option.bind_eq_some_iff.mpr ⟨w, hloop, hall⟩, hv', hmarked ▸ hcand⟩

end VersionControl

/-! ## A save keeps the bookkeeping -/

/-- The bookkeeping of a version that is being put together: only its files have counts. -/
structure Version.Building (v : Version) : Prop extends Counted v where
  live : ∀ n c, v.fileCheckCount n = some c → v.IsAlive n

section Building

variable {v : Version} {f : FileMetaData}

theorem Version.building_new : Building Version.new := ⟨counted_new, fun _ _ h => nomatch h⟩

theorem Version.setFileCheckCount_cases {c : ℤ} {n : ℕ} {c' : ℤ}
    (h : (v.setFileCheckCount f c).fileCheckCount n = some c') :
    v.fileCheckCount n = some c' ∨ (n = f.number ∧ c' = c) := by
  unfold setFileCheckCount at h
  dsimp only at h
  split_ifs at h with hn
  · cases hold : v.fileCheckCount n with
    | none =>
      rw [hold, Option.none_or, Option.some.injEq] at h
      exact Or.inr ⟨hn, h.symm⟩
    | some old =>
      rw [hold, Option.some_or, Option.some.injEq] at h
      exact Or.inl (by rw [h])
  · exact Or.inl h

theorem Version.exists_setFileCheckCount {c : ℤ} {n : ℕ}
    (h : (∃ c', v.fileCheckCount n = some c') ∨ n = f.number) :
    ∃ c', (v.setFileCheckCount f c).fileCheckCount n = some c' := by
  unfold setFileCheckCount
  dsimp only
  cases hold : v.fileCheckCount n with
  | none =>
    obtain hn | rfl := h
    · obtain ⟨c', hc'⟩ := hn
      simp [hold] at hc'
    · exact ⟨c, by simp⟩
  | some old => exact ⟨old, by simp⟩

/-- **Entering a file**: it goes to one of the maps and is given a count, unless it has one. -/
theorem Version.Building.enter (h : Building v) {w : Version} {c : ℤ}
    (hcounts : w.fileCheckCount = v.fileCheckCount)
    (halive : ∀ n, w.IsAlive n ↔ v.IsAlive n ∨ n = f.number)
    (hmerge : ∀ n ∈ v.mergeCandidates, n ∈ w.mergeCandidates) (hdisj : w.Disjoint)
    (hrange : -1 ≤ c ∧ c ≤ Config.maxRoundNumberForPerFile)
    (hperm : c = -1 → f.number ∈ w.mergeCandidates) : Building (w.setFileCheckCount f c) where
  disjoint := hdisj
  counts n hn := by
    have hold : (∃ c', w.fileCheckCount n = some c') ∨ n = f.number := by
      rw [hcounts]
      exact ((halive n).mp hn).imp (fun hn => (h.counts n hn).imp fun _ hc => hc.1) id
    obtain ⟨c', hc'⟩ := exists_setFileCheckCount (c := c) hold
    refine ⟨c', hc', ?_⟩
    rcases setFileCheckCount_cases hc' with hc' | ⟨-, rfl⟩
    · rw [hcounts] at hc'
      obtain ⟨c'', hc'', hrange'⟩ := h.counts n (h.live n c' hc')
      obtain rfl := Option.some.inj (hc'.symm.trans hc'')
      exact hrange'
    · exact hrange
  permanent n hn := by
    rcases setFileCheckCount_cases hn with hn | ⟨rfl, hc⟩
    · exact hmerge n (h.permanent n (hcounts ▸ hn))
    · exact hperm hc.symm
  live n c' hc' := by
    rcases setFileCheckCount_cases hc' with hc' | ⟨hn, -⟩
    · exact (halive n).mpr (Or.inl (h.live n c' (hcounts ▸ hc')))
    · exact (halive n).mpr (Or.inr hn)

theorem Version.Building.addFile (h : Building v) {c : ℤ} (hf : f.number ∉ v.mergeCandidates)
    (hrange : 0 ≤ c ∧ c ≤ Config.maxRoundNumberForPerFile) :
    Building ((v.addFile f).setFileCheckCount f c) := by
  refine h.enter rfl (fun n => ?_) (fun _ => id) (fun n hn => ?_) ⟨by omega, hrange.2⟩
    (fun hc => by omega)
  · exact (or_congr_left KeyedMap.mem_insert).trans or_right_comm
  · rcases KeyedMap.mem_insert.mp hn with hn | rfl
    · exact h.disjoint n hn
    · exact hf

theorem Version.Building.addCompactionFile (h : Building v) (hf : f.number ∉ v.files) :
    Building ((v.addCompactionFile f).setFileCheckCount f (-1)) := by
  refine h.enter rfl (fun n => ?_) (fun n hn => KeyedMap.mem_insert.mpr (Or.inl hn))
    (fun n hn hn' => ?_) (by decide) (fun _ => KeyedMap.mem_insert.mpr (Or.inr rfl))
  · exact (or_congr_right KeyedMap.mem_insert).trans or_assoc.symm
  · rcases KeyedMap.mem_insert.mp hn' with hn' | rfl
    · exact h.disjoint n hn hn'
    · exact hf hn

end Building

namespace Builder

variable {b : Builder} {base : Version} {threshold : ℤ}

theorem saveFile_building {st st' : Version × Bool} {f : FileMetaData} (h : Building st.1)
    (hf : ¬ st.1.IsAlive f.number) (hcount : 0 ≤ base.checkCount f.number ∧
      base.checkCount f.number ≤ Config.maxRoundNumberForPerFile)
    (hstep : b.saveFile base threshold st f = some st') :
    Building st'.1 ∧ ∀ n, st'.1.IsAlive n → st.1.IsAlive n ∨ n = f.number := by
  obtain ⟨hfile, hcand⟩ := not_or.mp hf
  rcases saveFile_cases hstep with ⟨-, rfl⟩ | ⟨f', hsurv, ⟨-, rfl⟩ | ⟨-, rfl⟩⟩
  · exact ⟨h, fun _ => Or.inl⟩
  · have hnum : f'.number = f.number := survivor_number hsurv
    refine ⟨h.addCompactionFile (hnum ▸ hfile), fun n hn => ?_⟩
    rw [← hnum]
    exact ((or_congr_right KeyedMap.mem_insert).trans or_assoc.symm).mp hn
  · have hnum : f'.number = f.number := survivor_number hsurv
    refine ⟨h.addFile (hnum ▸ hcand) hcount, fun n hn => ?_⟩
    rw [← hnum]
    exact ((or_congr_left KeyedMap.mem_insert).trans or_right_comm).mp hn

theorem foldlM_saveFile_building (l : List FileMetaData) :
    ∀ {st st' : Version × Bool}, (l.map FileMetaData.number).Nodup →
      (∀ f ∈ l, 0 ≤ base.checkCount f.number ∧
        base.checkCount f.number ≤ Config.maxRoundNumberForPerFile) →
      (∀ f ∈ l, ¬ st.1.IsAlive f.number) → Building st.1 →
      l.foldlM (b.saveFile base threshold) st = some st' →
      Building st'.1 ∧ ∀ n, st'.1.IsAlive n → st.1.IsAlive n ∨ ∃ f ∈ l, f.number = n := by
  induction l with
  | nil =>
    intro st st' _ _ _ hst h
    obtain rfl : st = st' := by simpa using h
    exact ⟨hst, fun _ => Or.inl⟩
  | cons f l ih =>
    intro st st' hnodup hcount hnew hst h
    obtain ⟨hfl, hnodup⟩ := List.nodup_cons.mp hnodup
    obtain ⟨hfcount, hcount⟩ := List.forall_mem_cons.mp hcount
    obtain ⟨hfnew, hnew⟩ := List.forall_mem_cons.mp hnew
    rw [List.foldlM_cons] at h
    obtain ⟨mid, hmid, hrest⟩ := Option.bind_eq_some_iff.mp h
    obtain ⟨hbuild, hlive⟩ := saveFile_building hst hfnew hfcount hmid
    have hnew' : ∀ g ∈ l, ¬ mid.1.IsAlive g.number := by
      intro g hg hmem
      rcases hlive _ hmem with hold | heq
      · exact hnew g hg hold
      · exact hfl (List.mem_map.mpr ⟨g, hg, heq⟩)
    obtain ⟨hbuild', hlive'⟩ := ih hnodup hcount hnew' hbuild hrest
    refine ⟨hbuild', fun n hn => ?_⟩
    rcases hlive' n hn with hmem | ⟨g, hg, heq⟩
    · exact (hlive n hmem).imp id fun heq => ⟨f, List.mem_cons_self, heq.symm⟩
    · exact Or.inr ⟨g, List.mem_cons_of_mem _ hg, heq⟩

theorem foldl_saveCandidate_building (l : List FileMetaData) :
    ∀ {v : Version}, (∀ f ∈ l, f.number ∉ v.files) → Building v →
      Building (l.foldl b.saveCandidate v) := by
  induction l with
  | nil => exact fun _ hv => hv
  | cons f l ih =>
    intro v hnew hv
    obtain ⟨hf, hnew⟩ := List.forall_mem_cons.mp hnew
    rw [List.foldl_cons]
    unfold saveCandidate
    split_ifs with hdel
    · exact ih hnew hv
    · exact ih hnew (hv.addCompactionFile hf)

theorem foldl_saveAdded_building (l : List FileMetaData) :
    ∀ {v : Version}, (∀ f ∈ l, f.number ∉ v.mergeCandidates) → Building v →
      Building (l.foldl saveAdded v) := by
  induction l with
  | nil => exact fun _ hv => hv
  | cons f l ih =>
    intro v hnew hv
    obtain ⟨hf, hnew⟩ := List.forall_mem_cons.mp hnew
    exact ih hnew (hv.addFile hf (by decide))

/-- **A save keeps the bookkeeping** when the files it adds are fresh. -/
theorem saveTo_counted {v : Version} {stateChange stateChange' : Bool} (hbase : Counted base)
    (hfresh : ∀ f ∈ b.addedFiles, ¬ base.IsAlive f.number)
    (h : b.saveTo base Version.new threshold stateChange = some (v, stateChange')) : Counted v := by
  obtain ⟨st, hst, heq⟩ := Option.map_eq_some_iff.mp h
  obtain ⟨rfl, -⟩ := Prod.mk.inj heq
  have hcount : ∀ f ∈ base.files.entries, 0 ≤ base.checkCount f.number ∧
      base.checkCount f.number ≤ Config.maxRoundNumberForPerFile := by
    intro f hf
    obtain ⟨c, hc, hrange⟩ := hbase.file (KeyedMap.mem_of_mem_entries hf)
    rw [checkCount, hc]
    exact hrange
  obtain ⟨hfiles, hlive⟩ := foldlM_saveFile_building base.files.entries base.files.nodup hcount
    (fun f _ => not_or.mpr ⟨KeyedMap.notMem_empty _, KeyedMap.notMem_empty _⟩) building_new hst
  -- after the first loop every live file is a file of the base
  have hsub : ∀ n, st.1.IsAlive n → n ∈ base.files := by
    intro n hn
    rcases hlive n hn with hnew | ⟨f, hf, rfl⟩
    · exact absurd hnew (not_or.mpr ⟨KeyedMap.notMem_empty n, KeyedMap.notMem_empty n⟩)
    · exact KeyedMap.mem_of_mem_entries hf
  have hcands : Building (base.mergeCandidates.entries.foldl b.saveCandidate st.1) :=
    foldl_saveCandidate_building _ (fun f hf hmem =>
      hbase.disjoint _ (hsub _ (Or.inl hmem)) (KeyedMap.mem_of_mem_entries hf)) hfiles
  refine (foldl_saveAdded_building b.addedFiles (fun f hf hmem => hfresh f hf ?_) hcands).toCounted
  rw [(foldl_saveCandidate b _ _).2, KeyedMap.mem_insertAll] at hmem
  rcases hmem with hmem | ⟨g, hg, heq⟩
  · exact Or.inl (hsub _ (Or.inr hmem))
  · exact Or.inr (heq ▸ KeyedMap.mem_of_mem_entries (List.mem_of_mem_filter hg))

theorem chargeBase_moved (b : Builder) (v : Version) : Moved v (b.chargeBase v) := by
  have hfiles : ∀ n, n ∈ (b.chargeBase v).files ↔ n ∈ v.files := fun n => by
    rw [chargeBase, KeyedMap.mem_map]
  exact ⟨rfl, rfl, fun n => or_congr_left (hfiles n), fun n => (hfiles n).mp, fun _ => id,
    fun h n hn => h n ((hfiles n).mp hn)⟩

end Builder

/-! ## Runs -/

namespace VersionControl

variable {D : Type*}

/-- `VersionControl::VersionControl`. -/
def new : VersionControl where
  current := Version.new
  nextFileNumber := 2
  manifestFileNumber := 0
  lastSequence := 0
  logNumber := 0
  prevLogNumber := 0
  stateChange := false
  descriptorLog := none

/-- What happens to a `VersionControl`; each call has its own random numbers. A restart
constructs a new one. -/
inductive Op (D : Type*)
  | restart
  | recover (env : Env D) (records : List Slice)
  | logAndApply (env : Env D) (io : ManifestIo) (edit : VersionEdit)
  | registerFileAccess (number : ℕ)

/-- One call. -/
def step (comparatorName : Slice) (threshold : ℤ) (vc : VersionControl) :
    Op D → Option VersionControl
  | .restart => some new
  | .recover env records => (vc.recover env comparatorName threshold records).map Prod.snd
  | .logAndApply env io edit =>
    (vc.logAndApply env comparatorName threshold io edit).map Prod.snd
  | .registerFileAccess number => some (vc.registerFileAccess number).2

/-- The files that the call adds have numbers that no live file has. A `VersionControl` that has
just been constructed has no live file, so this says nothing about the `Recover` of a process that
starts. -/
def Fresh (comparatorName : Slice) (vc : VersionControl) : Op D → Prop
  | .restart => True
  | .recover _ records =>
    ∀ f ∈ (recoverRecords comparatorName records).builder.addedFiles,
      ¬ vc.current.IsAlive f.number
  | .logAndApply _ _ edit => ∀ f ∈ edit.newFiles, ¬ vc.current.IsAlive f.number
  | .registerFileAccess _ => True

section Runs

variable {comparatorName : Slice} {threshold : ℤ}

theorem step_counted (vc : VersionControl) (op : Op D) (vc' : VersionControl)
    (hv : Counted vc.current) (hfresh : Fresh comparatorName vc op)
    (hstep : step comparatorName threshold vc op = some vc') : Counted vc'.current := by
  cases op with
  | restart =>
    obtain rfl := Option.some.inj hstep
    exact counted_new
  | recover env records =>
    obtain ⟨⟨s, vc1⟩, hrun, rfl⟩ := Option.map_eq_some_iff.mp hstep
    have hcase := recover_cases hrun
    split_ifs at hcase with hok
    · obtain ⟨saved, hsave, hfin⟩ := hcase
      obtain ⟨v, hfin', hcounted, -⟩ :=
        finalize_counted env _ (Builder.saveTo_counted hv hfresh hsave)
      exact Option.some.inj (hfin'.symm.trans hfin) ▸ hcounted
    · exact hcase.1 ▸ hv
  | logAndApply env io edit =>
    obtain ⟨⟨s, vc1⟩, hrun, rfl⟩ := Option.map_eq_some_iff.mp hstep
    obtain ⟨saved, stateChange, v, hsave, hfin, -, -, hcase⟩ := logAndApply_cases hrun
    split_ifs at hcase with hok
    · have hnew : ∀ f ∈ (Builder.new.apply edit).addedFiles,
          ¬ vc.current.IsAlive f.number := fun f hf => by
        obtain ⟨g, hg, rfl⟩ := Builder.mem_addedFiles_new_apply.mp hf
        exact hfresh g hg
      obtain ⟨v', hfin', hcounted, -⟩ :=
        finalize_counted env _ (Builder.saveTo_counted hv hnew hsave)
      obtain rfl := Option.some.inj (hfin'.symm.trans hfin)
      exact hcase.1 ▸ hcounted
    · exact hcase.1 ▸ (Builder.chargeBase_moved _ vc.current).counted hv
  | registerFileAccess number =>
    obtain rfl := Option.some.inj hstep
    exact (registerFileAccess_moved vc number).counted hv

/-- **The candidate bookkeeping never divides by zero.** After any calls whose new files are fresh,
the maps are disjoint, every file in `files_` has a count from zero to the limit, and `-1` is the
count of candidates only. And whatever is saved next, as long as its new files are fresh,
`Finalize` returns for all random numbers, orders and scores: no modulus in `PickCandidates` and
`EvictCandidates` is zero, and `EvictAll` does not exit. -/
theorem checkCounts_bounded (ops : List (Op D)) (vc : VersionControl)
    (hfresh : Run.Meets (step comparatorName threshold) (Fresh comparatorName) new ops)
    (hrun : Run.runFrom (step comparatorName threshold) new ops = some vc) :
    vc.current.Disjoint ∧
    (∀ n ∈ vc.current.files, ∃ c, vc.current.fileCheckCount n = some c ∧ 0 ≤ c ∧
      c ≤ Config.maxRoundNumberForPerFile) ∧
    (∀ n, vc.current.fileCheckCount n = some (-1) → n ∈ vc.current.mergeCandidates) ∧
    ∀ (b : Builder) (saved : Version) (stateChange : Bool) (env : Env D),
      (∀ f ∈ b.addedFiles, ¬ vc.current.IsAlive f.number) →
      b.saveTo vc.current Version.new threshold vc.stateChange = some (saved, stateChange) →
      ∃ v, finalize env stateChange saved = some v := by
  have hcounted : Counted vc.current :=
    Run.runFrom_invariant step_counted counted_new hfresh hrun
  refine ⟨hcounted.disjoint, fun n hn => hcounted.file hn, hcounted.permanent, ?_⟩
  intro b saved stateChange env hnew hsave
  obtain ⟨v, hfin, -⟩ := finalize_counted env _ (Builder.saveTo_counted hcounted hnew hsave)
  exact ⟨v, hfin⟩

end Runs

/-- A file is added, some of its keys die, and it is read. -/
def threeCalls : List (Op (Option ℚ)) :=
  [.logAndApply (clockEnv 1) ManifestIo.allOk (VersionEdit.new.addFile (rangeFile 2)),
    .logAndApply (clockEnv 1) ManifestIo.allOk (deadKeysEdit 5), .registerFileAccess 2]

theorem checkCounts_bounded_threeCalls :
    ∃ vc, Run.runFrom (step [] 70) new threeCalls = some vc ∧
      vc.current.fileCheckCount 2 = some (-1) ∧ 2 ∈ vc.current.mergeCandidates := by
  have hend : (Run.runFrom (step [] 70) new threeCalls).map
      (fun vc => vc.current.fileCheckCount 2) = some (some (-1)) := by decide +kernel
  obtain ⟨vc, hrun, hcount⟩ := Option.map_eq_some_iff.mp hend
  have hfresh : Run.Meets (step [] 70) (Fresh []) new threeCalls := by
    refine ⟨fun f _ => not_or.mpr ⟨KeyedMap.notMem_empty _, KeyedMap.notMem_empty _⟩,
      fun vc' _ => ⟨by simp [Fresh, deadKeysEdit, VersionEdit.new], ?_⟩⟩
    exact fun _ _ => ⟨trivial, fun _ _ => trivial⟩
  exact ⟨vc, hrun, hcount, (checkCounts_bounded threeCalls vc hfresh hrun).2.2.1 2 hcount⟩

end VersionControl

end McfKv
