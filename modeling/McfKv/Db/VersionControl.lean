import McfKv.Db.Builder
import Mathlib.Data.List.Sort
import Mathlib.Data.Rat.Defs

/-!
# Version control (`db/version_control.cc`)

`LogAndApply` turns an edit into the next version. It saves the edited version
with a `Builder`, lets `Finalize` rearrange `files_` and `merge_candidates_`,
writes the manifest, and installs the result.

`Finalize` makes up to three rounds. A round picks files at random and moves them
to the candidates (`pickCandidates`), scores the overlaps of the candidates
(`calculateScore`), and unless that found a group of at least two files it drops
candidates at random (`evictCandidates`). After the rounds, `evictAll` gives the
candidates that are not due for compaction back to `files_`.

## What comes from outside

`Env` collects what the code does not determine: the order in which a hash table is
enumerated, the numbers the random engines return, and the arithmetic on `double`.
Every result holds for all of them. A division by zero in `e() % (cnt + 1)` and the
call of `exit` in `EvictAll` make a function `none`.

## Live files

Picking and `EvictAll` only move files between the two maps. `evictCandidates`
does not: a candidate that does not stay is left out of the new candidate map and
is not put back into `files_`. So a file is live after `Finalize` exactly when
every draw let it stay, which is what `CandidatesStay` says.
-/

namespace McfKv

/-- The operations on `double` that the scores are computed with. -/
structure DoubleArith (D : Type*) where
  ofNat : ℕ → D
  add : D → D → D
  sub : D → D → D
  div : D → D → D
  min : D → D → D
  max : D → D → D
  lt : D → D → Bool
  le : D → D → Bool

/-- What a call of `LogAndApply` reads from outside. The first argument of `order`,
`pickDraw` and `evictDraw` is the round of `Finalize`. -/
structure Env (D : Type*) where
  arith : DoubleArith D
  /-- The order in which a hash table of files is enumerated. -/
  order : ℕ → FileMap → List FileMetaData
  order_perm : ∀ round m, (order round m).Perm m.entries
  /-- `std::sort` by descending score; the order of equal scores is open. -/
  sort : List (D × FileMetaData) → List (D × FileMetaData)
  sort_perm : ∀ l, (sort l).Perm l
  /-- The numbers that the engine of `PickCandidates` returns. -/
  pickDraw : ℕ → ℕ → ℕ
  /-- The numbers that the engine of `EvictCandidates` returns. -/
  evictDraw : ℕ → ℕ → ℕ

namespace VersionControl

variable {D : Type*}

/-- `e() % (cnt + 1)`: the `int` is converted to the 64-bit result type of the
engine, and a zero modulus traps. -/
def drawRem (draw : ℕ) (cnt : ℤ) : Option ℕ :=
  let modulus := ((cnt + 1) % 2 ^ 64).toNat
  if modulus = 0 then none else some (draw % modulus)

/-! ## `PickCandidates` -/

/-- Insertion into a `std::set`, held as an ascending list. -/
def setInsert (n : ℕ) (l : List ℕ) : List ℕ :=
  if n ∈ l then l else l.orderedInsert (· ≤ ·) n

/-- The loop of `PickCandidates`. The set of picked numbers has 32-bit elements. -/
def pickLoop (draw : ℕ → ℕ) (count : ℕ) :
    List FileMetaData → ℕ → List ℕ → Version → Option (List ℕ × Version)
  | [], _, picked, v => some (picked, v)
  | f :: rest, i, picked, v =>
    if picked.length < count ∧ i < Config.maxPickTimes then
      let cnt := v.checkCount f.number
      match drawRem (draw i) cnt with
      | none => none
      | some r =>
        if r = 0 then
          pickLoop draw count rest (i + 1) (setInsert (f.number % 2 ^ 32) picked)
            (v.setCheckCount f.number
              (if cnt = Config.maxRoundNumberForPerFile then 1 else cnt + 1))
        else pickLoop draw count rest (i + 1) picked v
    else some (picked, v)

/-- `VersionControl::PickCandidates`. -/
def pickCandidates (env : Env D) (round : ℕ) (v : Version) : Option Version :=
  if v.files.size < Config.startCompactionCheckTrigger then some v
  else if v.mergeCandidates.size ≥ Config.stopWritesTrigger then some v
  else
    let count := Config.filesToPickAtOneRound - v.mergeCandidates.size
    let count := if count > v.files.size then Config.pickRatio v.files.size else count
    (pickLoop (env.pickDraw round) count (env.order round v.files) 0 [] v).map fun (picked, v) =>
      if picked = [] then v else v.moveToMerge picked false

/-! ## `CalculateScore` -/

/-- The score of the overlap of two files, `none` when they do not overlap. -/
def overlapScore (A : DoubleArith D) (main next : FileMetaData) : Option D :=
  let smallest1 := A.ofNat (Coding.fastAtoi main.smallest.userKey)
  let largest1 := A.ofNat (Coding.fastAtoi main.largest.userKey)
  let smallest2 := A.ofNat (Coding.fastAtoi next.smallest.userKey)
  let largest2 := A.ofNat (Coding.fastAtoi next.largest.userKey)
  if A.lt largest2 smallest1 || A.lt largest1 smallest2 then none
  else
    some (A.div (A.sub (A.min largest1 largest2) (A.max smallest1 smallest2))
      (A.sub (A.max largest1 largest2) (A.min smallest1 smallest2)))

/-- The files that overlap a candidate, with their scores, and the sum of the scores. -/
def currentPickList (A : DoubleArith D) (candidates : List FileMetaData) (main : FileMetaData) :
    D × List (D × FileMetaData) :=
  candidates.foldl
    (fun current next =>
      match overlapScore A main next with
      | none => current
      | some score => (A.add current.1 score, current.2 ++ [(score, next)]))
    (A.ofNat 0, [])

/-- The list with the highest sum. -/
def bestPickList (A : DoubleArith D) (candidates : List FileMetaData) :
    List (D × FileMetaData) :=
  (candidates.foldl
    (fun best main =>
      let current := currentPickList A candidates main
      if A.lt best.1 current.1 then current else best)
    (A.ofNat 0, [])).2

/-- Append files to `files_to_compact_` until a score is too low or the group is full. -/
def fillGroup (A : DoubleArith D) (threshold : D) :
    List (D × FileMetaData) → List FileMetaData → List FileMetaData
  | [], group => group
  | (score, f) :: rest, group =>
    let group := group ++ [f]
    if A.le score threshold ∨ group.length ≥ Config.compactCandidateStopWriteTrigger then group
    else fillGroup A threshold rest group

/-- `VersionControl::CalculateScore`. -/
def calculateScore (env : Env D) (stateChange : Bool) (round : ℕ) (v : Version) : Version :=
  let best := bestPickList env.arith (env.order round v.mergeCandidates)
  let threshold := env.arith.ofNat (if stateChange then Config.overlapRatioThreshold else 0)
  { v with filesToCompact := fillGroup env.arith threshold (env.sort best) v.filesToCompact }

/-! ## `EvictCandidates` and `EvictAll` -/

/-- The loop of `EvictCandidates`: `i` counts the draws made so far, and `tmp` is the
new candidate map. -/
def evictLoop (v : Version) (draw : ℕ → ℕ) :
    List FileMetaData → ℕ → FileMap → Option FileMap
  | [], _, tmp => some tmp
  | f :: rest, i, tmp =>
    if v.checkCount f.number = -1 then evictLoop v draw rest i (tmp.insert f)
    else
      match drawRem (draw i) (v.checkCount f.number) with
      | none => none
      | some r => evictLoop v draw rest (i + 1) (if r = 0 then tmp.insert f else tmp)

/-- `VersionControl::EvictCandidates`. -/
def evictCandidates (env : Env D) (round : ℕ) (v : Version) : Option Version :=
  (evictLoop v (env.evictDraw round) (env.order round v.mergeCandidates) 0 ∅).map fun tmp =>
    { v with mergeCandidates := tmp }

/-- The loop of `EvictAll`; the call of `exit` is `none`. -/
def evictAllLoop (v : Version) :
    List FileMetaData → FileMap → FileMap → Option (FileMap × FileMap)
  | [], files, tmp => some (files, tmp)
  | f :: rest, files, tmp =>
    if v.checkCount f.number = -1 then evictAllLoop v rest files (tmp.insert f)
    else if f.number ∈ files then none
    else evictAllLoop v rest (files.insert f) tmp

/-- `VersionControl::EvictAll`. -/
def evictAll (env : Env D) (v : Version) : Option Version :=
  (evictAllLoop v (env.order Config.maxMergeCandidateCheckRound v.mergeCandidates)
    v.files ∅).map fun (files, tmp) => { v with files := files, mergeCandidates := tmp }

/-! ## `Finalize` -/

/-- The rounds of `Finalize`, given how many are left. -/
def finalizeLoop (env : Env D) (stateChange : Bool) : ℕ → Version → Option Version
  | 0, v => some v
  | left + 1, v =>
    let round := Config.maxMergeCandidateCheckRound - (left + 1)
    (pickCandidates env round v).bind fun v =>
      let v := calculateScore env stateChange round v
      if v.filesToCompact.length ≥ 2 then some v
      else
        (evictCandidates env round { v with filesToCompact := [] }).bind fun v =>
          finalizeLoop env stateChange left v

/-- `VersionControl::Finalize`. -/
def finalize (env : Env D) (stateChange : Bool) (v : Version) : Option Version :=
  (finalizeLoop env stateChange Config.maxMergeCandidateCheckRound v).bind (evictAll env)

/-! ## Picking loses no file -/

theorem pickLoop_frame (draw : ℕ → ℕ) (count : ℕ) (l : List FileMetaData) :
    ∀ {i : ℕ} {picked picked' : List ℕ} {v v' : Version},
      pickLoop draw count l i picked v = some (picked', v') →
        v'.files = v.files ∧ v'.mergeCandidates = v.mergeCandidates ∧
          v'.filesToCompact = v.filesToCompact := by
  induction l with
  | nil =>
    intro i picked picked' v v' h
    obtain ⟨-, rfl⟩ := Prod.mk.inj (Option.some.inj h)
    exact ⟨rfl, rfl, rfl⟩
  | cons f rest ih =>
    intro i picked picked' v v' h
    unfold pickLoop at h
    split_ifs at h with hgo
    · cases hrem : drawRem (draw i) (v.checkCount f.number) with
      | none => simp [hrem] at h
      | some r =>
        simp only [hrem] at h
        split_ifs at h with hr
        · exact (ih h :)
        · exact (ih h :)
        · exact ih h
    · obtain ⟨-, rfl⟩ := Prod.mk.inj (Option.some.inj h)
      exact ⟨rfl, rfl, rfl⟩

variable {env : Env D} {round : ℕ} {v v' : Version} {stateChange : Bool}

theorem pickCandidates_cases (h : pickCandidates env round v = some v') : v' = v ∨ ∃ count picked w,
    pickLoop (env.pickDraw round) count (env.order round v.files) 0 [] v = some (picked, w) ∧
      Version.Moved w v' := by
  unfold pickCandidates at h
  split_ifs at h
  · exact Or.inl (Option.some.inj h).symm
  · exact Or.inl (Option.some.inj h).symm
  · obtain ⟨⟨picked, w⟩, hloop, heq⟩ := Option.map_eq_some_iff.mp h
    refine Or.inr ⟨_, picked, w, hloop, ?_⟩
    simp only at heq
    split_ifs at heq
    · exact heq ▸ Version.Moved.refl w
    · exact heq ▸ Version.moveToMerge_moved w picked false

/-- Picking changes neither which files are live nor that the maps are disjoint, and leaves the
group to compact alone. -/
theorem pickCandidates_spec (h : pickCandidates env round v = some v') :
    (∀ n, v'.IsAlive n ↔ v.IsAlive n) ∧ (v.Disjoint → v'.Disjoint) ∧
      v'.filesToCompact = v.filesToCompact := by
  rcases pickCandidates_cases h with rfl | ⟨count, picked, w, hloop, hmoved⟩
  · exact ⟨fun _ => Iff.rfl, id, rfl⟩
  · obtain ⟨hfiles, hmerge, hgroup⟩ := pickLoop_frame _ _ _ hloop
    refine ⟨fun n => (hmoved.isAlive n).trans ?_, fun hv => hmoved.disjoint ?_,
      hmoved.filesToCompact.trans hgroup⟩
    · unfold Version.IsAlive
      rw [hfiles, hmerge]
    · unfold Version.Disjoint
      rw [hfiles, hmerge]
      exact hv

/-! ## Evicting drops the candidates that do not stay -/

/-- Every candidate of the list stays: its check count is `-1`, or the number drawn
for it is a multiple of its check count plus one. -/
def Stay (v : Version) (draw : ℕ → ℕ) : List FileMetaData → ℕ → Prop
  | [], _ => True
  | f :: rest, i =>
    if v.checkCount f.number = -1 then Stay v draw rest i
    else drawRem (draw i) (v.checkCount f.number) = some 0 ∧ Stay v draw rest (i + 1)

section EvictLoop

variable {v : Version} {draw : ℕ → ℕ}

theorem evictLoop_subset (l : List FileMetaData) :
    ∀ {i : ℕ} {tmp tmp' : FileMap}, evictLoop v draw l i tmp = some tmp' →
      ∀ n ∈ tmp', n ∈ tmp ∨ ∃ f ∈ l, f.number = n := by
  induction l with
  | nil =>
    intro i tmp tmp' h n hn
    obtain rfl := Option.some.inj h
    exact Or.inl hn
  | cons f rest ih =>
    intro i tmp tmp' h n hn
    have hstep : ∃ i' tmp1, evictLoop v draw rest i' tmp1 = some tmp' ∧
        (tmp1 = tmp ∨ tmp1 = tmp.insert f) := by
      unfold evictLoop at h
      split_ifs at h with hcnt
      · exact ⟨_, _, h, Or.inr rfl⟩
      · cases hrem : drawRem (draw i) (v.checkCount f.number) with
        | none => simp [hrem] at h
        | some r =>
          simp only [hrem] at h
          refine ⟨_, _, h, ?_⟩
          by_cases hr : r = 0
          · exact Or.inr (by rw [if_pos hr])
          · exact Or.inl (by rw [if_neg hr])
    obtain ⟨i', tmp1, hrest, htmp⟩ := hstep
    rcases ih hrest n hn with hmem | ⟨g, hg, rfl⟩
    · rcases htmp with rfl | rfl
      · exact Or.inl hmem
      · rcases KeyedMap.mem_insert.mp hmem with hmem | rfl
        · exact Or.inl hmem
        · exact Or.inr ⟨f, List.mem_cons_self, rfl⟩
    · exact Or.inr ⟨g, List.mem_cons_of_mem _ hg, rfl⟩

theorem evictLoop_of_stay (l : List FileMetaData) : ∀ {i : ℕ} {tmp : FileMap}, Stay v draw l i →
    evictLoop v draw l i tmp = some (tmp.insertAll l) := by
  induction l with
  | nil => exact fun _ => rfl
  | cons f rest ih =>
    intro i tmp h
    unfold Stay at h
    unfold evictLoop
    split_ifs at h ⊢ with hcnt
    · exact ih h
    · simp only [h.1]
      exact ih h.2

theorem stay_of_evictLoop (l : List FileMetaData) :
    ∀ {i : ℕ} {tmp tmp' : FileMap}, (l.map FileMetaData.number).Nodup →
      (∀ f ∈ l, f.number ∉ tmp) → evictLoop v draw l i tmp = some tmp' →
      (∀ f ∈ l, f.number ∈ tmp') → Stay v draw l i := by
  induction l with
  | nil => exact fun _ _ _ _ => trivial
  | cons f rest ih =>
    intro i tmp tmp' hnodup hfresh h hall
    obtain ⟨hf, hrest⟩ := List.nodup_cons.mp hnodup
    have hfresh' : ∀ g ∈ rest, g.number ∉ tmp.insert f := by
      intro g hg hmem
      rcases KeyedMap.mem_insert.mp hmem with hmem | heq
      · exact hfresh g (List.mem_cons_of_mem _ hg) hmem
      · exact hf (List.mem_map.mpr ⟨g, hg, heq⟩)
    have hall' : ∀ g ∈ rest, g.number ∈ tmp' := fun g hg => hall g (List.mem_cons_of_mem _ hg)
    unfold evictLoop at h
    unfold Stay
    split_ifs at h ⊢ with hcnt
    · exact ih hrest hfresh' h hall'
    · cases hrem : drawRem (draw i) (v.checkCount f.number) with
      | none => simp [hrem] at h
      | some r =>
        simp only [hrem] at h
        by_cases hr : r = 0
        · rw [if_pos hr] at h
          exact ⟨by rw [hr], ih hrest hfresh' h hall'⟩
        · -- the candidate is left out, and nothing later can bring it back
          rw [if_neg hr] at h
          rcases evictLoop_subset rest h f.number (hall f List.mem_cons_self)
            with hmem | ⟨g, hg, heq⟩
          · exact absurd hmem (hfresh f List.mem_cons_self)
          · exact absurd (List.mem_map.mpr ⟨g, hg, heq⟩) hf

end EvictLoop

theorem order_nodup (env : Env D) (round : ℕ) (m : FileMap) :
    ((env.order round m).map FileMetaData.number).Nodup :=
  ((env.order_perm round m).map _).nodup_iff.mpr m.nodup

theorem mem_order (env : Env D) (round : ℕ) {m : FileMap} {n : ℕ} :
    n ∈ m ↔ ∃ f ∈ env.order round m, f.number = n := by
  rw [KeyedMap.mem_def]
  exact exists_congr fun f => and_congr_left fun _ => (env.order_perm round m).mem_iff.symm

/-- The candidates of a round all stay. -/
def RoundStays (env : Env D) (round : ℕ) (v : Version) : Prop :=
  Stay v (env.evictDraw round) (env.order round v.mergeCandidates) 0

theorem evictCandidates_subset (h : evictCandidates env round v = some v') :
    v'.files = v.files ∧ ∀ n ∈ v'.mergeCandidates, n ∈ v.mergeCandidates := by
  obtain ⟨tmp, hloop, rfl⟩ := Option.map_eq_some_iff.mp h
  refine ⟨rfl, fun n hn => ?_⟩
  rcases evictLoop_subset _ hloop n hn with hmem | hmem
  · exact absurd hmem (KeyedMap.notMem_empty n)
  · exact (mem_order env round).mpr hmem

theorem evictCandidates_of_roundStays (h : RoundStays env round v) :
    ∃ v', evictCandidates env round v = some v' ∧ ∀ n, v'.IsAlive n ↔ v.IsAlive n := by
  refine ⟨_, by rw [evictCandidates, evictLoop_of_stay _ h]; rfl, fun n => ?_⟩
  refine or_congr_right ?_
  rw [KeyedMap.mem_insertAll, ← mem_order env round]
  simp

/-- **A round of eviction keeps the live files exactly when its candidates all stay.** -/
theorem roundStays_of_evictCandidates (hdisj : v.Disjoint)
    (h : evictCandidates env round v = some v') (halive : ∀ n, v.IsAlive n → v'.IsAlive n) :
    RoundStays env round v := by
  obtain ⟨tmp, hloop, rfl⟩ := Option.map_eq_some_iff.mp h
  refine stay_of_evictLoop _ (order_nodup env round _) (fun f _ => KeyedMap.notMem_empty _)
    hloop fun f hf => ?_
  have hcand : f.number ∈ v.mergeCandidates := (mem_order env round).mpr ⟨f, hf, rfl⟩
  rcases halive f.number (Or.inr hcand) with hfile | hmem
  · exact absurd hcand (hdisj _ hfile)
  · exact hmem

/-! ## `EvictAll` gives the other candidates back -/

theorem evictAllLoop_spec (v : Version) (l : List FileMetaData) :
    ∀ files tmp : FileMap, (l.map FileMetaData.number).Nodup → (∀ f ∈ l, f.number ∉ files) →
      ∃ files' tmp', evictAllLoop v l files tmp = some (files', tmp') ∧
        (∀ n, n ∈ files' ↔ n ∈ files ∨ ∃ f ∈ l, f.number = n ∧ v.checkCount n ≠ -1) ∧
        ∀ n, n ∈ tmp' ↔ n ∈ tmp ∨ ∃ f ∈ l, f.number = n ∧ v.checkCount n = -1 := by
  induction l with
  | nil => exact fun files tmp _ _ => ⟨files, tmp, rfl, by simp, by simp⟩
  | cons f rest ih =>
    intro files tmp hnodup hfiles
    obtain ⟨hf, hrest⟩ := List.nodup_cons.mp hnodup
    obtain ⟨hffiles, hfiles'⟩ := List.forall_mem_cons.mp hfiles
    have hcons : ∀ (n : ℕ) (p : Prop), (∃ g ∈ f :: rest, g.number = n ∧ p) ↔
        (f.number = n ∧ p) ∨ ∃ g ∈ rest, g.number = n ∧ p := fun n p => by simp
    unfold evictAllLoop
    split_ifs with hcnt
    · obtain ⟨files', tmp', hloop, hmem, hmem'⟩ := ih files (tmp.insert f) hrest hfiles'
      refine ⟨files', tmp', hloop, fun n => ?_, fun n => ?_⟩
      · rw [hmem n, hcons, or_iff_right (a := f.number = n ∧ _)]
        rintro ⟨rfl, hne⟩
        exact hne hcnt
      · rw [hmem' n, hcons, KeyedMap.mem_insert, or_assoc]
        refine or_congr_right (or_congr_left ⟨?_, fun h => h.1.symm⟩)
        rintro rfl
        exact ⟨rfl, hcnt⟩
    · have hne : ∀ g ∈ rest, g.number ≠ f.number :=
        fun g hg heq => hf (List.mem_map.mpr ⟨g, hg, heq⟩)
      obtain ⟨files', tmp', hloop, hmem, hmem'⟩ := ih (files.insert f) tmp hrest
        (fun g hg => by simp [hfiles' g hg, hne g hg])
      refine ⟨files', tmp', hloop, fun n => ?_, fun n => ?_⟩
      · rw [hmem n, hcons, KeyedMap.mem_insert, or_assoc]
        refine or_congr_right (or_congr_left ⟨?_, fun h => h.1.symm⟩)
        rintro rfl
        exact ⟨rfl, hcnt⟩
      · rw [hmem' n, hcons, or_iff_right (a := f.number = n ∧ _)]
        rintro ⟨rfl, heq⟩
        exact hcnt heq

/-- **What `EvictAll` does** when the maps are disjoint: it does not exit, and the candidates
other than those with the count `-1` go back to the files. -/
theorem evictAll_maps (env : Env D) (hdisj : v.Disjoint) :
    ∃ files' tmp', evictAll env v = some { v with files := files', mergeCandidates := tmp' } ∧
      (∀ n, n ∈ files' ↔ n ∈ v.files ∨ (n ∈ v.mergeCandidates ∧ v.checkCount n ≠ -1)) ∧
      ∀ n, n ∈ tmp' ↔ n ∈ v.mergeCandidates ∧ v.checkCount n = -1 := by
  set l := env.order Config.maxMergeCandidateCheckRound v.mergeCandidates with hl
  have hcand : ∀ (n : ℕ) (p : Prop),
      (∃ f ∈ l, f.number = n ∧ p) ↔ n ∈ v.mergeCandidates ∧ p := fun n p => by
    rw [mem_order env Config.maxMergeCandidateCheckRound (m := v.mergeCandidates), ← hl,
      ← exists_and_right]
    exact exists_congr fun f => and_assoc.symm
  obtain ⟨files', tmp', hloop, hmem, hmem'⟩ := evictAllLoop_spec v l v.files ∅ (order_nodup env _ _)
    (fun f hf hfile => hdisj _ hfile ((mem_order env _).mpr ⟨f, hf, rfl⟩))
  refine ⟨files', tmp', ?_, fun n => ?_, fun n => ?_⟩
  · rw [evictAll, ← hl, hloop]
    rfl
  · rw [hmem n, hcand]
  · rw [hmem' n, hcand, or_iff_right (KeyedMap.notMem_empty n)]

/-- **`EvictAll` loses no file**, and does not exit, when the maps are disjoint. -/
theorem evictAll_spec (env : Env D) (hdisj : v.Disjoint) :
    ∃ v', evictAll env v = some v' ∧ (∀ n, v'.IsAlive n ↔ v.IsAlive n) ∧ v'.Disjoint := by
  obtain ⟨files', tmp', heq, hmem, hmem'⟩ := evictAll_maps env hdisj
  refine ⟨_, heq, fun n => ?_, fun n hn hn' => ?_⟩
  · unfold Version.IsAlive
    dsimp only
    rw [hmem n, hmem' n]
    by_cases hcnt : v.checkCount n = -1 <;> simp [hcnt]
  · obtain ⟨hcand, hcnt⟩ := (hmem' n).mp hn'
    rcases (hmem n).mp hn with hfile | ⟨-, hne⟩
    · exact hdisj n hfile hcand
    · exact hne hcnt

/-! ## Which files `Finalize` keeps -/

/-- In each of the rounds that are left, no division traps while candidates are
picked, and if the round finds no group of two files then all its candidates stay. -/
def CandidatesStay (env : Env D) (stateChange : Bool) : ℕ → Version → Prop
  | 0, _ => True
  | left + 1, v =>
    let round := Config.maxMergeCandidateCheckRound - (left + 1)
    ∃ v1, pickCandidates env round v = some v1 ∧
      ((calculateScore env stateChange round v1).filesToCompact.length ≥ 2 ∨
        (RoundStays env round { v1 with filesToCompact := [] } ∧
          ∀ v2, evictCandidates env round { v1 with filesToCompact := [] } = some v2 →
            CandidatesStay env stateChange left v2))

theorem finalizeLoop_subset (left : ℕ) :
    ∀ {v v' : Version}, finalizeLoop env stateChange left v = some v' →
      (∀ n, v'.IsAlive n → v.IsAlive n) ∧ (v.Disjoint → v'.Disjoint) := by
  induction left with
  | zero =>
    intro v v' h
    obtain rfl := Option.some.inj h
    exact ⟨fun _ => id, id⟩
  | succ left ih =>
    intro v v' h
    unfold finalizeLoop at h
    obtain ⟨v1, hpick, h⟩ := Option.bind_eq_some_iff.mp h
    obtain ⟨halive, hdisj, -⟩ := pickCandidates_spec hpick
    simp only at h
    split_ifs at h with hgroup
    · obtain rfl := Option.some.inj h
      exact ⟨fun n hn => (halive n).mp hn, hdisj⟩
    · obtain ⟨v2, hevict, h⟩ := Option.bind_eq_some_iff.mp h
      obtain ⟨hfiles, hmerge⟩ := evictCandidates_subset hevict
      obtain ⟨hsub, hdisj'⟩ := ih h
      refine ⟨fun n hn => (halive n).mp ?_, fun hv => hdisj' fun n hn hm => ?_⟩
      · exact (hsub n hn).imp (fun hf => hfiles ▸ hf) (hmerge n)
      · exact hdisj hv n (hfiles ▸ hn) (hmerge n hm)

/-- **The rounds keep the live files exactly when all candidates stay.** -/
theorem finalizeLoop_iff (left : ℕ) : ∀ {v : Version}, v.Disjoint →
    ((∃ v', finalizeLoop env stateChange left v = some v' ∧
        ∀ n, v'.IsAlive n ↔ v.IsAlive n) ↔ CandidatesStay env stateChange left v) := by
  induction left with
  | zero => exact fun _ => ⟨fun _ => trivial, fun _ => ⟨_, rfl, fun _ => Iff.rfl⟩⟩
  | succ left ih =>
    intro v hv
    constructor
    · rintro ⟨v', h, hsame⟩
      unfold finalizeLoop at h
      obtain ⟨v1, hpick, h⟩ := Option.bind_eq_some_iff.mp h
      obtain ⟨halive, hdisj, -⟩ := pickCandidates_spec hpick
      refine ⟨v1, hpick, ?_⟩
      simp only at h
      split_ifs at h with hgroup
      · exact Or.inl hgroup
      · right
        obtain ⟨v2, hevict, h⟩ := Option.bind_eq_some_iff.mp h
        obtain ⟨hfiles, hmerge⟩ := evictCandidates_subset hevict
        -- a file lost in this round would not come back in a later one
        have hback : ∀ n, v1.IsAlive n → v2.IsAlive n := fun n hn =>
          (finalizeLoop_subset left h).1 n ((hsame n).mpr ((halive n).mp hn))
        have hv2 : v2.Disjoint := fun n hn hm => hdisj hv n (hfiles ▸ hn) (hmerge n hm)
        have hsame2 : ∀ n, v'.IsAlive n ↔ v2.IsAlive n := fun n =>
          ⟨(finalizeLoop_subset left h).1 n, fun hn => (hsame n).mpr ((halive n).mp
            (hn.imp (fun hf => hfiles ▸ hf) (hmerge n)))⟩
        refine ⟨roundStays_of_evictCandidates (hdisj hv) hevict hback, fun w hw => ?_⟩
        obtain rfl := Option.some.inj (hevict.symm.trans hw)
        exact (ih hv2).mp ⟨v', h, hsame2⟩
    · rintro ⟨v1, hpick, hstay⟩
      obtain ⟨halive, hdisj, -⟩ := pickCandidates_spec hpick
      unfold finalizeLoop
      simp only [hpick, Option.bind_some]
      by_cases hgroup : (calculateScore env stateChange
          (Config.maxMergeCandidateCheckRound - (left + 1)) v1).filesToCompact.length ≥ 2
      · rw [if_pos hgroup]
        exact ⟨_, rfl, halive⟩
      · rw [if_neg hgroup]
        obtain ⟨hround, hlater⟩ := hstay.resolve_left hgroup
        obtain ⟨v2, hevict, halive2⟩ := evictCandidates_of_roundStays hround
        obtain ⟨hfiles, hmerge⟩ := evictCandidates_subset hevict
        have hv2 : v2.Disjoint := fun n hn hm => hdisj hv n (hfiles ▸ hn) (hmerge n hm)
        obtain ⟨v', hloop, hsame⟩ := (ih hv2).mpr (hlater v2 hevict)
        refine ⟨v', ?_, fun n => (hsame n).trans ((halive2 n).trans (halive n))⟩
        exact Option.bind_eq_some_iff.mpr ⟨v2, hevict, hloop⟩

theorem finalize_iff (hv : v.Disjoint) :
    (∃ v', finalize env stateChange v = some v' ∧ ∀ n, v'.IsAlive n ↔ v.IsAlive n) ↔
      CandidatesStay env stateChange Config.maxMergeCandidateCheckRound v := by
  rw [← finalizeLoop_iff Config.maxMergeCandidateCheckRound hv]
  constructor
  · rintro ⟨v', h, hsame⟩
    obtain ⟨w, hloop, hall⟩ := Option.bind_eq_some_iff.mp h
    obtain ⟨v'', hall', halive, -⟩ := evictAll_spec env ((finalizeLoop_subset _ hloop).2 hv)
    obtain rfl := Option.some.inj (hall.symm.trans hall')
    exact ⟨w, hloop, fun n => (halive n).symm.trans (hsame n)⟩
  · rintro ⟨w, hloop, hsame⟩
    obtain ⟨v', hall, halive, -⟩ := evictAll_spec env ((finalizeLoop_subset _ hloop).2 hv)
    exact ⟨v', Option.bind_eq_some_iff.mpr ⟨w, hloop, hall⟩, fun n => (halive n).trans (hsame n)⟩

end VersionControl

/-! ## `LogAndApply` -/

/-- `class VersionControl`, as far as `LogAndApply` reads and writes it. The records
of the open manifest are `none` when `descriptor_log_` is a null pointer. -/
structure VersionControl where
  current : Version
  nextFileNumber : ℕ
  manifestFileNumber : ℕ
  lastSequence : ℕ
  logNumber : ℕ
  prevLogNumber : ℕ
  stateChange : Bool
  descriptorLog : Option (List Slice)

/-- What the file operations of `LogAndApply` return. -/
structure ManifestIo where
  newWritableFile : Status
  snapshotRecord : Status
  editRecord : Status
  sync : Status
  setCurrentFile : Status

namespace VersionControl

variable {D : Type*}

/-- The edit that `WriteSnapshot` builds. -/
def snapshotEdit (env : Env D) (comparatorName : Slice) (current : Version) : VersionEdit :=
  let round := Config.maxMergeCandidateCheckRound
  let edit := VersionEdit.new.setComparatorName comparatorName
  let edit := (env.order round current.files).foldl VersionEdit.addFile edit
  (env.order round current.mergeCandidates).foldl VersionEdit.addMergeCandidates edit

/-- The record that `VersionControl::WriteSnapshot` adds to the manifest. -/
def writeSnapshot (env : Env D) (comparatorName : Slice) (current : Version) : Slice :=
  (snapshotEdit env comparatorName current).encodeTo []

/-- The edit with the fields that `LogAndApply` fills in. -/
def completeEdit (vc : VersionControl) (edit : VersionEdit) : VersionEdit :=
  let edit := if edit.logNumber.isSome then edit else edit.setLogNumber vc.logNumber
  let edit := if edit.prevLogNumber.isSome then edit else edit.setPrevLogNumber vc.prevLogNumber
  (edit.setNextFile vc.nextFileNumber).setLastSequence vc.lastSequence

/-- Open the manifest if it is not open yet: the status, and the records of it. -/
def openManifest (env : Env D) (comparatorName : Slice) (io : ManifestIo) (vc : VersionControl) :
    Status × Option (List Slice) :=
  match vc.descriptorLog with
  | some records => (.ok, some records)
  | none =>
    if io.newWritableFile.isOk then
      (io.snapshotRecord,
        some (if io.snapshotRecord.isOk then [writeSnapshot env comparatorName vc.current] else []))
    else (io.newWritableFile, none)

/-- Add the record of an edit to the manifest and switch to a new manifest. -/
def writeManifest (io : ManifestIo) (isNew : Bool) (edit : VersionEdit)
    (opened : Status × Option (List Slice)) : Status × Option (List Slice) :=
  if opened.1.isOk then
    if io.editRecord.isOk then
      let log := opened.2.map (· ++ [edit.encodeTo []])
      if io.sync.isOk then (if isNew then io.setCurrentFile else io.sync, log)
      else (io.sync, log)
    else (io.editRecord, opened.2)
  else opened

/-- `VersionControl::LogAndApply`. The builder shares the metadata of the current
version, so the current version is charged even when the manifest cannot be written. -/
def logAndApply (env : Env D) (comparatorName : Slice) (threshold : ℤ) (io : ManifestIo)
    (vc : VersionControl) (edit : VersionEdit) : Option (Status × VersionControl) :=
  let edit := vc.completeEdit edit
  let b := Builder.new.apply edit
  (b.saveTo vc.current Version.new threshold vc.stateChange).bind fun saved =>
    (finalize env saved.2 saved.1).map fun v =>
      let vc : VersionControl :=
        { vc with current := b.chargeBase vc.current, stateChange := saved.2 }
      let isNew := vc.descriptorLog.isNone
      let written := writeManifest io isNew edit (openManifest env comparatorName io vc)
      if written.1.isOk then
        (written.1,
          { vc with
            current := v
            descriptorLog := written.2
            logNumber := edit.logNumber.getD 0
            prevLogNumber := edit.prevLogNumber.getD 0 })
      else (written.1, { vc with descriptorLog := if isNew then none else written.2 })

/-- The files that should be live after an edit: the live files that are neither
deleted nor used up, and the new files. -/
def ExpectedLive (v : Version) (edit : VersionEdit) (n : ℕ) : Prop :=
  (v.IsAlive n ∧ n ∉ edit.deletedFiles ∧
      ¬ ∃ f ∈ v.files.entries, f.number = n ∧ f.alive ≤ edit.dead n) ∨
    ∃ f ∈ edit.newFiles, f.number = n

@[simp] theorem apply_completeEdit (vc : VersionControl) (edit : VersionEdit) :
    Builder.new.apply (vc.completeEdit edit) = Builder.new.apply edit := by
  dsimp only [completeEdit]
  split_ifs <;> rfl

section LogAndApply

variable {env : Env D} {comparatorName : Slice} {threshold : ℤ} {io : ManifestIo}
  {vc vc' : VersionControl} {edit : VersionEdit} {s : Status}

section

variable (h : logAndApply env comparatorName threshold io vc edit = some (s, vc'))

include h

/-- **What a call of `LogAndApply` does.** It installs the finalized version if the manifest
is written, and else it leaves the current version charged with the dead keys of the edit. -/
theorem logAndApply_cases : ∃ saved stateChange v,
    (Builder.new.apply edit).saveTo vc.current Version.new threshold vc.stateChange =
      some (saved, stateChange) ∧ finalize env stateChange saved = some v ∧
    vc'.nextFileNumber = vc.nextFileNumber ∧ vc'.stateChange = stateChange ∧ if s.isOk then
      vc'.current = v ∧ vc'.logNumber = (vc.completeEdit edit).logNumber.getD 0 ∧
        vc'.prevLogNumber = (vc.completeEdit edit).prevLogNumber.getD 0 else
      vc'.current = (Builder.new.apply edit).chargeBase vc.current ∧
        vc'.logNumber = vc.logNumber ∧ vc'.prevLogNumber = vc.prevLogNumber := by
  unfold logAndApply at h
  simp only [apply_completeEdit] at h
  obtain ⟨⟨saved, stateChange⟩, hsave, h⟩ := Option.bind_eq_some_iff.mp h
  obtain ⟨v, hfin, h⟩ := Option.map_eq_some_iff.mp h
  refine ⟨saved, stateChange, v, hsave, hfin, ?_⟩
  split at h
  · rename_i hwritten
    obtain ⟨rfl, rfl⟩ := Prod.mk.inj h
    rw [if_pos hwritten]
    exact ⟨rfl, rfl, rfl, rfl, rfl⟩
  · rename_i hwritten
    obtain ⟨rfl, rfl⟩ := Prod.mk.inj h
    rw [if_neg hwritten]
    exact ⟨rfl, rfl, rfl, rfl, rfl⟩

theorem logAndApply_current (hok : s.isOk) : ∃ saved stateChange,
    (Builder.new.apply edit).saveTo vc.current Version.new threshold vc.stateChange =
      some (saved, stateChange) ∧ finalize env stateChange saved = some vc'.current := by
  obtain ⟨saved, stateChange, v, hsave, hfin, -, -, hcase⟩ := logAndApply_cases h
  rw [if_pos hok] at hcase
  exact ⟨saved, stateChange, hsave, hcase.1 ▸ hfin⟩

theorem logAndApply_numbers : vc'.nextFileNumber = vc.nextFileNumber ∧
    vc'.logNumber = if s.isOk then (vc.completeEdit edit).logNumber.getD 0 else vc.logNumber := by
  obtain ⟨_, _, _, -, -, hnext, -, hcase⟩ := logAndApply_cases h
  refine ⟨hnext, ?_⟩
  split_ifs at hcase ⊢ with hok
  · exact hcase.2.1
  · exact hcase.2.1

end

end LogAndApply

theorem saveTo_expectedLive {v saved : Version} {edit : VersionEdit} {threshold : ℤ}
    {stateChange stateChange' : Bool}
    (h : (Builder.new.apply edit).saveTo v Version.new threshold stateChange =
      some (saved, stateChange'))
    (hv : v.Disjoint) (n : ℕ) : saved.IsAlive n ↔ ExpectedLive v edit n := by
  have hadded : (∃ f ∈ (Builder.new.apply edit).addedFiles, f.number = n) ↔
      ∃ f ∈ edit.newFiles, f.number = n := by
    simp [Builder.mem_addedFiles_new_apply]
  have hdead : (Builder.new.apply edit).dead n = edit.dead n := Builder.dead_new_apply
  rw [Builder.saveTo_isAlive h n, hadded, ExpectedLive, ← or_assoc]
  refine or_congr_left' fun hnew => ?_
  have hdel : n ∈ (Builder.new.apply edit).deletedFiles ↔ n ∈ edit.deletedFiles := by
    rw [Builder.mem_deletedFiles_new_apply, and_iff_left_iff_imp]
    exact fun _ f hf heq => hnew ⟨f, hf, heq⟩
  cases hfind : v.files.find? n with
  | none =>
    have hn : n ∉ v.files := KeyedMap.find?_eq_none_iff.mp hfind
    have hused : ¬ ∃ f ∈ v.files.entries, f.number = n ∧ f.alive ≤ edit.dead n := by
      rintro ⟨f, hf, rfl, -⟩
      exact hn (KeyedMap.mem_of_mem_entries hf)
    simp only [Option.bind_none, Option.isSome_none, Bool.false_eq_true, false_or, hdel,
      Version.IsAlive, hn, hused, not_false_eq_true, and_true]
    exact and_comm
  | some f =>
    obtain ⟨hmem, rfl⟩ := KeyedMap.find?_eq_some_iff.mp hfind
    have hlive : f.number ∈ v.files := KeyedMap.mem_of_mem_entries hmem
    have hused : (∃ g ∈ v.files.entries, g.number = f.number ∧ g.alive ≤ edit.dead f.number) ↔
        f.alive ≤ edit.dead f.number := by
      constructor
      · rintro ⟨g, hg, hnum, hle⟩
        rwa [v.files.eq_of_key_eq hg hmem hnum] at hle
      · exact fun hle => ⟨f, hmem, rfl, hle⟩
    simp only [Option.bind_some, Builder.survivor, hdel, hdead, hused, Version.IsAlive, hlive,
      hv _ hlive, and_false, or_false, true_and]
    split_ifs with h1 h2
    · simp [h1]
    · simp [h1, h2]
    · simp [h1, h2]

/-- **Which files an evolution of the version keeps.** `Finalize` keeps the live files
exactly when every candidate stays in every round; and after a successful
`LogAndApply` the live files are the expected ones exactly when every candidate stays
while the saved version is finalized. -/
theorem finalize_live_iff (env : Env D) :
    (∀ (stateChange : Bool) (v : Version), v.Disjoint →
      ((∃ v', finalize env stateChange v = some v' ∧ ∀ n, v'.IsAlive n ↔ v.IsAlive n) ↔
        CandidatesStay env stateChange Config.maxMergeCandidateCheckRound v)) ∧
    ∀ (comparatorName : Slice) (threshold : ℤ) (io : ManifestIo) (vc vc' : VersionControl)
      (edit : VersionEdit) (s : Status), vc.current.Disjoint →
      (∀ f ∈ edit.newFiles, ¬ vc.current.IsAlive f.number) →
      logAndApply env comparatorName threshold io vc edit = some (s, vc') → s.isOk →
      ∃ saved stateChange,
        (Builder.new.apply edit).saveTo vc.current Version.new threshold vc.stateChange =
          some (saved, stateChange) ∧
        ((∀ n, vc'.current.IsAlive n ↔ ExpectedLive vc.current edit n) ↔
          CandidatesStay env stateChange Config.maxMergeCandidateCheckRound saved) := by
  refine ⟨fun stateChange v hv => finalize_iff hv, ?_⟩
  intro comparatorName threshold io vc vc' edit s hv hfresh hrun hok
  obtain ⟨saved, stateChange, hsave, hfin⟩ := logAndApply_current hrun hok
  refine ⟨saved, stateChange, hsave, ?_⟩
  have hexpected := saveTo_expectedLive hsave hv
  have hdisj : saved.Disjoint := Builder.saveTo_disjoint hsave hv (by
    intro f hf
    obtain ⟨g, hg, rfl⟩ := Builder.mem_addedFiles_new_apply.mp hf
    exact hfresh g hg)
  rw [← finalize_iff hdisj]
  constructor
  · intro hlive
    exact ⟨_, hfin, fun n => (hlive n).trans (hexpected n).symm⟩
  · rintro ⟨v', hv', hsame⟩ n
    obtain rfl := Option.some.inj (hfin.symm.trans hv')
    exact (hsame n).trans (hexpected n)

/-! ## A run of `Finalize` that loses files -/

/-- Exact arithmetic, with `none` for the quotient `0 / 0`. -/
def exactArith : DoubleArith (Option ℚ) where
  ofNat n := some n
  add a b := a.bind fun x => b.map fun y => x + y
  sub a b := a.bind fun x => b.map fun y => x - y
  div a b := a.bind fun x => b.bind fun y => if y = 0 then none else some (x / y)
  min a b := a.bind fun x => b.map fun y => if y < x then y else x
  max a b := a.bind fun x => b.map fun y => if x < y then y else x
  lt a b := (a.bind fun x => b.map fun y => decide (x < y)).getD false
  le a b := (a.bind fun x => b.map fun y => decide (x ≤ y)).getD false

/-- The numbers of `std::minstd_rand0`, which is `default_random_engine`, after a seed. -/
def minstdRand0 (seed i : ℕ) : ℕ := (fun x => 16807 * x % 2147483647)^[i + 1] seed

/-- An environment with exact scores, in which all engines of a call are seeded with
the same clock value. -/
def clockEnv (seed : ℕ) : Env (Option ℚ) where
  arith := exactArith
  order _ m := m.entries
  order_perm _ _ := List.Perm.refl _
  sort l := l.insertionSort fun a b => exactArith.lt a.1 b.1 = false
  sort_perm l := List.perm_insertionSort _ l
  pickDraw _ := minstdRand0 seed
  evictDraw _ := minstdRand0 seed

/-- A key of three decimal digits. -/
def digitKey (n : ℕ) : InternalKey where
  rep := [UInt8.ofNat (48 + n / 100), UInt8.ofNat (48 + n / 10 % 10), UInt8.ofNat (48 + n % 10)]
    ++ Coding.encodeFixed64 (packSequenceAndType 1 .value)

/-- File `n` of a family of files whose key ranges do not overlap. -/
def rangeFile (n : ℕ) : FileMetaData where
  number := n
  allowedSeeks := 100
  fileSize := 2048
  total := 6
  alive := 6
  smallest := digitKey (10 * n)
  largest := digitKey (10 * n + 5)

/-- Twenty-five files that have never been picked. -/
def rangeVersion : Version :=
  { Version.new with files := ⟨(List.range 25).map rangeFile, by decide⟩ }

/-- No two of the files overlap, so no round finds a group to compact. The first
round picks seventeen files, and the draws drop fifteen of them from the version. -/
theorem finalize_drops_file :
    rangeVersion.Disjoint ∧ rangeVersion.IsAlive 1 ∧
      ∃ v', finalize (clockEnv 1700000000) false rangeVersion = some v' ∧ ¬ v'.IsAlive 1 := by
  have hrun : (finalize (clockEnv 1700000000) false rangeVersion).map
      (fun v => decide (v.IsAlive 1)) = some false := by decide +kernel
  obtain ⟨v', hfin, hdead⟩ := Option.map_eq_some_iff.mp hrun
  exact ⟨fun n _ => KeyedMap.notMem_empty n, by decide, v', hfin, of_decide_eq_false hdead⟩

/-- A version control object whose manifest is open. -/
def openControl : VersionControl where
  current := Version.new
  nextFileNumber := 3
  manifestFileNumber := 1
  lastSequence := 0
  logNumber := 0
  prevLogNumber := 0
  stateChange := false
  descriptorLog := some []

/-- The object with these files and merge candidates. -/
def controlWith (files mergeCandidates : FileMap) : VersionControl :=
  { openControl with
    current := { Version.new with files := files, mergeCandidates := mergeCandidates } }

/-- File operations that all succeed. -/
def ManifestIo.allOk : ManifestIo := ⟨.ok, .ok, .ok, .ok, .ok⟩

theorem finalize_live_iff_rangeVersion :
    ((∃ v', finalize (clockEnv 1700000000) false rangeVersion = some v' ∧
        ∀ n, v'.IsAlive n ↔ rangeVersion.IsAlive n) ↔
      CandidatesStay (clockEnv 1700000000) false Config.maxMergeCandidateCheckRound
        rangeVersion) ∧
    ∃ s vc' saved stateChange,
      logAndApply (clockEnv 1) [] 70 ManifestIo.allOk openControl
        (VersionEdit.new.addFile (rangeFile 2)) = some (s, vc') ∧
      ((∀ n, vc'.current.IsAlive n ↔
          ExpectedLive Version.new (VersionEdit.new.addFile (rangeFile 2)) n) ↔
        CandidatesStay (clockEnv 1) stateChange Config.maxMergeCandidateCheckRound saved) := by
  refine ⟨(finalize_live_iff _).1 false rangeVersion fun n _ => KeyedMap.notMem_empty n, ?_⟩
  have hrun : ∃ vc', logAndApply (clockEnv 1) [] 70 ManifestIo.allOk openControl
      (VersionEdit.new.addFile (rangeFile 2)) = some (.ok, vc') := ⟨_, rfl⟩
  obtain ⟨vc', hvc'⟩ := hrun
  obtain ⟨saved, stateChange, -, hiff⟩ := (finalize_live_iff (clockEnv 1)).2 [] 70
    ManifestIo.allOk openControl vc' (VersionEdit.new.addFile (rangeFile 2)) .ok
    (fun n _ => KeyedMap.notMem_empty n) (fun f _ => by simp [openControl, Version.IsAlive, Version.new])
    hvc' rfl
  exact ⟨.ok, vc', saved, stateChange, hvc', hiff⟩

end VersionControl

end McfKv
