import McfKv.Db.VersionControl
import Mathlib.Data.List.Induction

/-!
# Seek accounting (`VersionControl::RegisterFileAccess` in `db/version_control.cc`)

After a `DBImpl::Get` that has read a table file, `RegisterFileAccess` takes one off the
allowance of the file, and a file without allowance is moved to the merge candidates.

The number of the file goes through three types: `Version::Get` returns a `uint32_t`,
`RegisterFileAccess` takes a `uint16_t`. So a read of file `n` charges the file `n % 65536`. The
allowance is a `uint32_t`: when `MoveToMerge` refuses the file, because there are too many
candidates, the next read takes the allowance from zero to `2 ^ 32 - 1`, and the move is not
requested again.

`Version.seeksLeft` is the state that the accounting is about: the allowance of each file that is
not a candidate. `registerFileAccess_spec` says what a read does to it, and
`seekAccounting_iff` which versions keep the accounts right whatever is read.
-/

namespace McfKv

/-- The conversion of a file number to a `uint16_t`. -/
def asUInt16 (n : ℕ) : ℕ := n % 2 ^ 16

theorem asUInt16_of_lt {n : ℕ} (h : n < 2 ^ 16) : asUInt16 n = n := Nat.mod_eq_of_lt h

/-- The decrement of a `uint32_t`. -/
@[irreducible] def decrement (seeks : ℕ) : ℕ := (seeks + (2 ^ 32 - 1)) % 2 ^ 32

/-- `allowed_seeks--` for the file with the number `n`. -/
def FileMetaData.chargeSeek (n : ℕ) (f : FileMetaData) : FileMetaData :=
  if f.number = n then { f with allowedSeeks := decrement f.allowedSeeks } else f

theorem FileMetaData.chargeSeek_number (n : ℕ) (f : FileMetaData) :
    (f.chargeSeek n).number = f.number := by
  unfold chargeSeek
  split_ifs <;> rfl

/-- A version in which the file with the number `n` is charged a seek. -/
def Version.chargeSeek (v : Version) (n : ℕ) : Version :=
  { v with
    files := v.files.map (FileMetaData.chargeSeek n) (FileMetaData.chargeSeek_number n) }

theorem Version.mem_chargeSeek_files {v : Version} {n k : ℕ} :
    k ∈ (v.chargeSeek n).files ↔ k ∈ v.files := by
  rw [chargeSeek, KeyedMap.mem_map]

theorem Version.size_chargeSeek_files (v : Version) (n : ℕ) :
    (v.chargeSeek n).files.size = v.files.size := by
  rw [chargeSeek, KeyedMap.size_map]

theorem Version.chargeSeek_moved (v : Version) (n : ℕ) : Moved v (v.chargeSeek n) :=
  ⟨rfl, rfl, fun _ => or_congr_left mem_chargeSeek_files, fun _ => mem_chargeSeek_files.mp,
    fun _ => id, fun h k hk => h k (mem_chargeSeek_files.mp hk)⟩

/-- The allowance of a file in `files_`. -/
def Version.seeksLeft (v : Version) (n : ℕ) : Option ℕ :=
  (v.files.find? n).map FileMetaData.allowedSeeks

namespace VersionControl

/-- `VersionControl::RegisterFileAccess`, called with the number that `Get` has read from. The
first result is the number that `MoveToMerge` is called with, if it is. -/
def registerFileAccess (vc : VersionControl) (fileNumber : ℕ) : Option ℕ × VersionControl :=
  let fileNumber := asUInt16 fileNumber
  if fileNumber = 0 then (none, vc)
  else
    match vc.current.files.find? fileNumber with
    | none => (none, vc)
    | some f =>
      let current := vc.current.chargeSeek fileNumber
      if (f.chargeSeek fileNumber).allowedSeeks = 0 then
        (some fileNumber,
          { vc with stateChange := true, current := current.moveToMerge [fileNumber] false })
      else (none, { vc with current := current })

/-- A sequence of `Get` calls that read these files. -/
def accessAll (vc : VersionControl) (reads : List ℕ) : VersionControl :=
  reads.foldl (fun vc n => (vc.registerFileAccess n).2) vc

@[simp] theorem accessAll_nil (vc : VersionControl) : vc.accessAll [] = vc := rfl

@[simp] theorem accessAll_cons (vc : VersionControl) (n : ℕ) (reads : List ℕ) :
    vc.accessAll (n :: reads) = (vc.registerFileAccess n).2.accessAll reads := rfl

theorem accessAll_append (vc : VersionControl) (reads reads' : List ℕ) :
    vc.accessAll (reads ++ reads') = (vc.accessAll reads).accessAll reads' := List.foldl_append

theorem accessAll_concat (vc : VersionControl) (reads : List ℕ) (n : ℕ) :
    vc.accessAll (reads ++ [n]) = ((vc.accessAll reads).registerFileAccess n).2 :=
  accessAll_append vc reads [n]

/-! ## One read -/

section Register

variable {vc : VersionControl} {r n a : ℕ}

theorem mem_files_iff_seeksLeft {v : Version} : n ∈ v.files ↔ ∃ a, v.seeksLeft n = some a := by
  unfold Version.seeksLeft
  rw [KeyedMap.mem_iff_find?]
  simp

theorem registerFileAccess_of_none (h : asUInt16 r = 0 ∨ vc.current.seeksLeft (asUInt16 r) = none) :
    vc.registerFileAccess r = (none, vc) := by
  unfold registerFileAccess
  dsimp only
  split_ifs with h0
  · rfl
  · have hfind := Option.map_eq_none_iff.mp (h.resolve_left h0)
    rw [hfind]

theorem seeksLeft_chargeSeek {v : Version} (hseeks : v.seeksLeft n = some a) :
    (v.chargeSeek n).seeksLeft = Function.update v.seeksLeft n (some (decrement a)) := by
  funext k
  unfold Version.seeksLeft Version.chargeSeek at *
  dsimp only
  rw [KeyedMap.find?_map, Option.map_map]
  by_cases hk : k = n
  · subst hk
    obtain ⟨f, hf, rfl⟩ := Option.map_eq_some_iff.mp hseeks
    have hnumber : f.number = k := (KeyedMap.find?_eq_some_iff.mp hf).2
    rw [Function.update_self, hf, Option.map_some, Function.comp_apply, FileMetaData.chargeSeek,
      if_pos hnumber]
  · rw [Function.update_of_ne hk]
    refine Option.map_congr fun f hf => ?_
    have hnumber : f.number ≠ n := (KeyedMap.find?_eq_some_iff.mp hf).2 ▸ hk
    rw [Function.comp_apply, FileMetaData.chargeSeek, if_neg hnumber]

theorem moveToMerge_singleton {v : Version} (hdisj : v.Disjoint) (hn : n ∈ v.files) :
    if v.mergeCandidates.size ≤ Config.stopWritesTrigger then
      (v.moveToMerge [n] false).seeksLeft = Function.update v.seeksLeft n none ∧
        (v.moveToMerge [n] false).files.size + 1 = v.files.size ∧
        (v.moveToMerge [n] false).mergeCandidates.size = v.mergeCandidates.size + 1
    else v.moveToMerge [n] false = v := by
  obtain ⟨f, hf⟩ := KeyedMap.mem_iff_find?.mp hn
  have hnumber : f.number = n := (KeyedMap.find?_eq_some_iff.mp hf).2
  have hloop : v.moveToMerge [n] false =
      if v.mergeCandidates.size > Config.stopWritesTrigger then v
      else { v with
        files := v.files.erase n
        mergeCandidates := v.mergeCandidates.insert f } := by
    simp [Version.moveToMerge, Version.moveLoop, hf]
  rw [hloop]
  by_cases hle : v.mergeCandidates.size ≤ Config.stopWritesTrigger
  · rw [if_pos hle, if_neg (not_lt.mpr hle)]
    refine ⟨?_, KeyedMap.size_erase _ hn, KeyedMap.size_insert _ (hnumber ▸ hdisj n hn)⟩
    funext k
    unfold Version.seeksLeft
    dsimp only
    rw [KeyedMap.find?_erase, Function.update_apply]
    split_ifs <;> rfl
  · rw [if_neg hle, if_pos (not_le.mp hle)]

theorem registerFileAccess_eq (hr : asUInt16 r = n) (hn : n ≠ 0)
    (ha : vc.current.seeksLeft n = some a) : vc.registerFileAccess r = if decrement a = 0 then
        (some n, { vc with
            stateChange := true
            current := (vc.current.chargeSeek n).moveToMerge [n] false })
      else (none, { vc with current := vc.current.chargeSeek n }) := by
  obtain ⟨f, hf, rfl⟩ := Option.map_eq_some_iff.mp ha
  have hnumber : f.number = n := (KeyedMap.find?_eq_some_iff.mp hf).2
  have hseeks : (f.chargeSeek n).allowedSeeks = decrement f.allowedSeeks := by
    rw [FileMetaData.chargeSeek, if_pos hnumber]
  unfold registerFileAccess
  simp only [hr, if_neg hn, hf, hseeks]

theorem registerFileAccess_request (hr : asUInt16 r = n) (hn : n ≠ 0)
    (ha : vc.current.seeksLeft n = some a) :
    (vc.registerFileAccess r).1 = if decrement a = 0 then some n else none := by
  rw [registerFileAccess_eq hr hn ha]
  split_ifs <;> rfl

/-- **What a read does**: the allowance `a` of the file `n` goes down by one, in 32 bits; at zero
the file is moved unless there are too many candidates. -/
def Charges (v v' : Version) (n a : ℕ) : Prop :=
  if decrement a = 0 ∧ v.mergeCandidates.size ≤ Config.stopWritesTrigger then
    v'.seeksLeft = Function.update v.seeksLeft n none ∧ v'.files.size + 1 = v.files.size ∧
      v'.mergeCandidates.size = v.mergeCandidates.size + 1
  else
    v'.seeksLeft = Function.update v.seeksLeft n (some (decrement a)) ∧
      v'.files.size = v.files.size ∧ v'.mergeCandidates.size = v.mergeCandidates.size

theorem registerFileAccess_spec (hdisj : vc.current.Disjoint) (hr : asUInt16 r = n) (hn : n ≠ 0)
    (ha : vc.current.seeksLeft n = some a) :
    Charges vc.current (vc.registerFileAccess r).2.current n a := by
  have hcharged := seeksLeft_chargeSeek ha
  have hsize := vc.current.size_chargeSeek_files n
  have hmem : n ∈ vc.current.files := mem_files_iff_seeksLeft.mpr ⟨a, ha⟩
  have hmove := moveToMerge_singleton ((vc.current.chargeSeek_moved n).disjoint hdisj)
    (Version.mem_chargeSeek_files.mpr hmem)
  have hcand : (vc.current.chargeSeek n).mergeCandidates = vc.current.mergeCandidates := rfl
  rw [hsize, hcharged, Function.update_idem, hcand] at hmove
  rw [registerFileAccess_eq hr hn ha, Charges]
  by_cases hzero : decrement a = 0
  · rw [if_pos hzero]
    by_cases hle : vc.current.mergeCandidates.size ≤ Config.stopWritesTrigger
    · rw [if_pos hle] at hmove
      rw [if_pos ⟨hzero, hle⟩]
      exact hmove
    · rw [if_neg hle] at hmove
      rw [if_neg fun hc => hle hc.2, hmove]
      exact ⟨hcharged, hsize, rfl⟩
  · rw [if_neg hzero, if_neg fun hc => hzero hc.1]
    exact ⟨hcharged, hsize, rfl⟩

theorem registerFileAccess_cases (hdisj : vc.current.Disjoint) (r : ℕ) :
    (vc.registerFileAccess r = (none, vc) ∧
        (asUInt16 r = 0 ∨ vc.current.seeksLeft (asUInt16 r) = none)) ∨
      ∃ a, asUInt16 r ≠ 0 ∧ vc.current.seeksLeft (asUInt16 r) = some a ∧
        Charges vc.current (vc.registerFileAccess r).2.current (asUInt16 r) a := by
  by_cases hnone : asUInt16 r = 0 ∨ vc.current.seeksLeft (asUInt16 r) = none
  · exact .inl ⟨registerFileAccess_of_none hnone, hnone⟩
  · push Not at hnone
    obtain ⟨a, ha⟩ := Option.ne_none_iff_exists'.mp hnone.2
    exact .inr ⟨a, hnone.1, ha, registerFileAccess_spec hdisj rfl hnone.1 ha⟩

theorem registerFileAccess_seeksLeft_of_ne (hdisj : vc.current.Disjoint) (hne : n ≠ asUInt16 r) :
    (vc.registerFileAccess r).2.current.seeksLeft n = vc.current.seeksLeft n := by
  rcases registerFileAccess_cases hdisj r with ⟨heq, -⟩ | ⟨a, -, -, hcharges⟩
  · rw [heq]
  · unfold Charges at hcharges
    split_ifs at hcharges <;> rw [hcharges.1, Function.update_of_ne hne]

/-- **A read only moves files.** -/
theorem registerFileAccess_moved (vc : VersionControl) (r : ℕ) :
    Version.Moved vc.current (vc.registerFileAccess r).2.current := by
  unfold registerFileAccess
  dsimp only
  split_ifs with h0
  · exact Version.Moved.refl _
  · cases vc.current.files.find? (asUInt16 r) with
    | none => exact Version.Moved.refl _
    | some f =>
      have hcharged := vc.current.chargeSeek_moved (asUInt16 r)
      dsimp only
      split_ifs
      · exact hcharged.trans (Version.moveToMerge_moved _ [asUInt16 r] false)
      · exact hcharged

theorem registerFileAccess_size (hdisj : vc.current.Disjoint) (r : ℕ) :
    (vc.registerFileAccess r).2.current.files.size +
        (vc.registerFileAccess r).2.current.mergeCandidates.size =
      vc.current.files.size + vc.current.mergeCandidates.size := by
  rcases registerFileAccess_cases hdisj r with ⟨heq, -⟩ | ⟨a, -, -, hcharges⟩
  · rw [heq]
  · unfold Charges at hcharges
    split_ifs at hcharges <;> omega

theorem accessAll_moved (vc : VersionControl) (reads : List ℕ) :
    Version.Moved vc.current (vc.accessAll reads).current := by
  induction reads generalizing vc with
  | nil => exact Version.Moved.refl _
  | cons r reads ih => exact (registerFileAccess_moved vc r).trans (ih (vc.registerFileAccess r).2)

theorem accessAll_size (hdisj : vc.current.Disjoint) (reads : List ℕ) :
    (vc.accessAll reads).current.files.size + (vc.accessAll reads).current.mergeCandidates.size =
      vc.current.files.size + vc.current.mergeCandidates.size := by
  induction reads generalizing vc with
  | nil => rfl
  | cons r reads ih =>
    rw [accessAll_cons, ih ((registerFileAccess_moved vc r).disjoint hdisj),
      registerFileAccess_size hdisj r]

end Register

/-! ## The accounts of a sequence of reads -/

/-- **Seek accounting is right**: whatever live files are read, a file is moved only after as
many reads of it as its allowance, and a read of a file whose allowance is used up requests its
move, as long as it has not been moved. -/
def SeekAccounting (vc : VersionControl) : Prop :=
  ∀ (reads : List ℕ) (n : ℕ), (∀ r ∈ reads ++ [n], vc.current.IsAlive r) →
    ∀ f ∈ vc.current.files.entries, f.number ∈ (vc.accessAll reads).current.files →
      (f.number ∉ (vc.accessAll (reads ++ [n])).current.files →
        f.allowedSeeks ≤ (reads ++ [n]).count f.number) ∧
      (n = f.number → f.allowedSeeks ≤ reads.count n →
        ((vc.accessAll reads).registerFileAccess n).1 = some n)

/-- The versions on which no read goes wrong: no file, or so few that no move is ever refused,
with numbers of 16 bits, allowances that are not used up, and no number that is taken for that
of a file. -/
structure Accountable (v : Version) : Prop where
  size : v.files.size + v.mergeCandidates.size ≤ Config.stopWritesTrigger + 1
  number : ∀ f ∈ v.files.entries, 0 < f.number ∧ f.number < 2 ^ 16
  seeks : ∀ f ∈ v.files.entries, 0 < f.allowedSeeks
  unaliased : ∀ r, v.IsAlive r → asUInt16 r ∈ v.files → r < 2 ^ 16

section Accountable

variable {vc : VersionControl} {reads : List ℕ} {n a : ℕ} {f : FileMetaData}

theorem decrement_succ (h : a < 2 ^ 32) : decrement (a + 1) = a := by
  unfold decrement
  omega

theorem decrement_zero : decrement 0 = 2 ^ 32 - 1 := by
  unfold decrement
  rfl

theorem seeksLeft_of_mem {v : Version} (hf : f ∈ v.files.entries) :
    v.seeksLeft f.number = some f.allowedSeeks := by
  unfold Version.seeksLeft
  rw [KeyedMap.find?_eq_some_iff.mpr ⟨hf, rfl⟩]
  rfl

section

variable (h : Accountable vc.current) (hdisj : vc.current.Disjoint)
  (hseeks : ∀ f ∈ vc.current.files.entries, f.allowedSeeks < 2 ^ 32)

include h hdisj hseeks

/-- On an accountable version, each file that is left has been read less often than its
allowance, and what is left of the allowance is the difference. -/
theorem Accountable.seeksLeft (halive : ∀ r ∈ reads, vc.current.IsAlive r) (n left : ℕ)
    (hleft : (vc.accessAll reads).current.seeksLeft n = some left) :
    ∃ f ∈ vc.current.files.entries, f.number = n ∧ 0 < left ∧
      f.allowedSeeks = left + reads.count n := by
  induction reads using List.reverseRecOn generalizing n left with
  | nil =>
    obtain ⟨f, hf, rfl⟩ := Option.map_eq_some_iff.mp hleft
    obtain ⟨hmem, hnumber⟩ := KeyedMap.find?_eq_some_iff.mp hf
    exact ⟨f, hmem, hnumber, h.seeks f hmem, by simp⟩
  | append_singleton reads r ih =>
    have halive' : ∀ x ∈ reads, vc.current.IsAlive x := fun x hx =>
      halive x (List.mem_append_left _ hx)
    have hr := halive r (List.mem_append_right _ List.mem_cons_self)
    rw [accessAll_concat] at hleft
    rw [List.count_append, List.count_singleton]
    have hdisj' := (accessAll_moved vc reads).disjoint hdisj
    rcases registerFileAccess_cases hdisj' r with ⟨hsame, hnone⟩ | ⟨old, -, hold, hcharges⟩
    · rw [hsame] at hleft
      obtain ⟨f, hf, hnumber, hpos, heq⟩ := ih halive' n left hleft
      -- the file that was read is not this one, which is charged by its own reads
      have hne : r ≠ n := by
        rintro rfl
        have hnum := h.number f hf
        rw [hnumber] at hnum
        rw [asUInt16_of_lt hnum.2] at hnone
        rcases hnone with h0 | hgone
        · omega
        · exact absurd (hgone.symm.trans hleft) (by simp)
      exact ⟨f, hf, hnumber, hpos, by simpa [hne] using heq⟩
    · obtain ⟨f, hf, hnumber, hpos, heq⟩ := ih halive' _ old hold
      have hlt : r < 2 ^ 16 := h.unaliased r hr (hnumber ▸ KeyedMap.mem_of_mem_entries hf)
      rw [asUInt16_of_lt hlt] at hold hcharges hnumber heq
      obtain ⟨d, rfl⟩ := Nat.exists_eq_succ_of_ne_zero hpos.ne'
      have hd : d < 2 ^ 32 := by
        have := hseeks f hf
        omega
      rw [Charges, Nat.succ_eq_add_one, decrement_succ hd] at hcharges
      by_cases hn : n = r
      · subst hn
        split_ifs at hcharges with hzero
        · rw [hcharges.1, Function.update_self] at hleft
          exact absurd hleft (by simp)
        · rw [hcharges.1, Function.update_self] at hleft
          obtain rfl := Option.some.inj hleft
          -- with few files the move at zero is not refused
          have hmem : n ∈ (vc.accessAll reads).current.files :=
            mem_files_iff_seeksLeft.mpr ⟨_, hold⟩
          have hsize := accessAll_size hdisj reads
          have hfew := h.size
          have hone := KeyedMap.size_erase _ hmem
          refine ⟨f, hf, hnumber, ?_, by simp; omega⟩
          by_contra h0
          exact hzero ⟨by omega, by omega⟩
      · have hne : n ≠ asUInt16 r := by rwa [asUInt16_of_lt hlt]
        have hleft' := (registerFileAccess_seeksLeft_of_ne hdisj' hne).symm.trans hleft
        obtain ⟨g, hg, hnumber', hpos', heq'⟩ := ih halive' n left hleft'
        exact ⟨g, hg, hnumber', hpos', by simpa [Ne.symm hn] using heq'⟩

/-- **Accountable versions keep the accounts right.** -/
theorem Accountable.seekAccounting : SeekAccounting vc := by
  intro reads n halive f hf hmem
  have halive' : ∀ r ∈ reads, vc.current.IsAlive r := fun r hr =>
    halive r (List.mem_append_left _ hr)
  obtain ⟨left, hleft⟩ := mem_files_iff_seeksLeft.mp hmem
  obtain ⟨g, hg, hnumber, hpos, heq⟩ := h.seeksLeft hdisj hseeks halive' f.number left hleft
  obtain rfl : g = f := vc.current.files.eq_of_key_eq hg hf hnumber
  refine ⟨fun hmoved => ?_, fun hn hle => ?_⟩
  · -- the file was moved, so it was charged, and by a read of itself
    rw [accessAll_concat] at hmoved
    have hdisj' := (accessAll_moved vc reads).disjoint hdisj
    rcases registerFileAccess_cases hdisj' n with ⟨hsame, -⟩ | ⟨old, -, hold, hcharges⟩
    · rw [hsame] at hmoved
      exact absurd hmem hmoved
    · obtain ⟨g', hg', hnumber', -, -⟩ := h.seeksLeft hdisj hseeks halive' _ old hold
      have hlt : n < 2 ^ 16 := h.unaliased n (halive n (by simp))
        (hnumber' ▸ KeyedMap.mem_of_mem_entries hg')
      have hmoved' : ¬ ∃ b, ((vc.accessAll reads).registerFileAccess n).2.current.seeksLeft g.number =
          some b := fun hex => hmoved (mem_files_iff_seeksLeft.mpr hex)
      rw [asUInt16_of_lt hlt] at hold hcharges
      have hsame : g.number = n := by
        by_contra hne
        have hother : g.number ≠ asUInt16 n := by rwa [asUInt16_of_lt hlt]
        exact hmoved' ⟨left, (registerFileAccess_seeksLeft_of_ne hdisj' hother).trans hleft⟩
      rw [hsame, hold] at hleft
      obtain rfl := Option.some.inj hleft
      have hzero : decrement old = 0 := by
        by_contra h0
        rw [Charges, if_neg fun hc => h0 hc.1] at hcharges
        rw [hcharges.1, hsame, Function.update_self] at hmoved'
        exact hmoved' ⟨_, rfl⟩
      have hold1 : old = 1 := by
        have := hseeks g hg
        unfold decrement at hzero
        omega
      rw [List.count_append, hsame, List.count_singleton_self, heq, hsame, hold1]
      omega
  · subst hn
    omega

end

/-! ## Reads that go wrong -/

section

variable {r : ℕ} (hdisj : vc.current.Disjoint) (hr : asUInt16 r = n) (hn : n ≠ 0)
  (ha : vc.current.seeksLeft n = some a) (hlt : a < 2 ^ 32)

include hdisj hr hn ha hlt

theorem accessAll_replicate : ∀ i < a, (vc.accessAll (List.replicate i r)).current.seeksLeft =
      Function.update vc.current.seeksLeft n (some (a - i)) ∧
    (vc.accessAll (List.replicate i r)).current.mergeCandidates.size =
      vc.current.mergeCandidates.size := by
  intro i
  induction i with
  | zero =>
    intro _
    refine ⟨?_, rfl⟩
    rw [Nat.sub_zero, ← ha, Function.update_eq_self]
    rfl
  | succ i ih =>
    intro hi
    obtain ⟨hseeks, hsize⟩ := ih (by omega)
    have hold : (vc.accessAll (List.replicate i r)).current.seeksLeft n =
        some (a - (i + 1) + 1) := by
      rw [hseeks, Function.update_self]
      congr 1
      omega
    have hspec := registerFileAccess_spec ((accessAll_moved vc _).disjoint hdisj) hr hn hold
    rw [Charges, decrement_succ (by omega), if_neg (fun hc => by omega)] at hspec
    rw [List.replicate_succ', accessAll_concat, hspec.1, hspec.2.2, hseeks, hsize,
      Function.update_idem]
    exact ⟨rfl, rfl⟩

theorem accessAll_replicate_all (hpos : 0 < a) :
    if vc.current.mergeCandidates.size ≤ Config.stopWritesTrigger then
      (vc.accessAll (List.replicate a r)).current.seeksLeft =
          Function.update vc.current.seeksLeft n none ∧
        (vc.accessAll (List.replicate a r)).current.mergeCandidates.size =
          vc.current.mergeCandidates.size + 1 else
      (vc.accessAll (List.replicate a r)).current.seeksLeft =
        Function.update vc.current.seeksLeft n (some 0) := by
  obtain ⟨i, rfl⟩ := Nat.exists_eq_succ_of_ne_zero hpos.ne'
  obtain ⟨hseeks, hsize⟩ := accessAll_replicate hdisj hr hn ha hlt i (Nat.lt_succ_self i)
  have hold : (vc.accessAll (List.replicate i r)).current.seeksLeft n = some (0 + 1) := by
    rw [hseeks, Function.update_self]
    congr 1
    omega
  have hspec := registerFileAccess_spec ((accessAll_moved vc _).disjoint hdisj) hr hn hold
  rw [Charges, decrement_succ (by decide), hseeks, hsize, Function.update_idem,
    Function.update_idem] at hspec
  rw [Nat.succ_eq_add_one, List.replicate_succ', accessAll_concat]
  simp only [true_and] at hspec
  split_ifs at hspec ⊢
  · exact ⟨hspec.1, hspec.2.2⟩
  · exact hspec.1

end

/-- A file whose number does not survive the conversion is never charged, and its move is never
requested. -/
theorem not_seekAccounting_of_number (hdisj : vc.current.Disjoint)
    (hf : f ∈ vc.current.files.entries) (hnumber : ¬ (0 < f.number ∧ f.number < 2 ^ 16)) :
    ¬ SeekAccounting vc := by
  intro h
  have hmod : asUInt16 f.number = 0 ∨ asUInt16 f.number ≠ f.number := by
    unfold asUInt16
    omega
  have hlive : vc.current.IsAlive f.number := Or.inl (KeyedMap.mem_of_mem_entries hf)
  -- reads of the file leave its own entry alone
  have hleft : ∀ reads, (∀ r ∈ reads, r = f.number) →
      (vc.accessAll reads).current.seeksLeft f.number = some f.allowedSeeks := by
    intro reads
    induction reads using List.reverseRecOn with
    | nil => exact fun _ => seeksLeft_of_mem hf
    | append_singleton reads r ih =>
      intro hall
      obtain rfl : r = f.number := hall r (by simp)
      have hrec := ih fun r hr => hall r (List.mem_append_left _ hr)
      rw [accessAll_concat]
      rcases hmod with hzero | hne
      · rw [registerFileAccess_of_none (Or.inl hzero)]
        exact hrec
      · have hdisj' := (accessAll_moved vc reads).disjoint hdisj
        exact (registerFileAccess_seeksLeft_of_ne hdisj' hne.symm).trans hrec
  have hmem : f.number ∈ (vc.accessAll (List.replicate f.allowedSeeks f.number)).current.files :=
    mem_files_iff_seeksLeft.mpr ⟨_, hleft _ fun r hr => List.eq_of_mem_replicate hr⟩
  have hrequest := (h (List.replicate f.allowedSeeks f.number) f.number (fun r hr => by
    rcases List.mem_append.mp hr with hr | hr
    · exact List.eq_of_mem_replicate hr ▸ hlive
    · exact List.mem_singleton.mp hr ▸ hlive) f hf hmem).2 rfl (by simp)
  unfold registerFileAccess at hrequest
  dsimp only at hrequest
  split at hrequest
  · exact absurd hrequest (by simp)
  · rename_i h0
    split at hrequest
    · exact absurd hrequest (by simp)
    · split at hrequest
      · exact (hmod.resolve_left h0) (Option.some.inj hrequest)
      · exact absurd hrequest (by simp)

/-- A file that is read again when its allowance is zero gets a new allowance. -/
theorem not_requested_of_exhausted (hnumber : 0 < n ∧ n < 2 ^ 16)
    (hleft : vc.current.seeksLeft n = some 0) :
    (vc.registerFileAccess n).1 ≠ some n := by
  rw [registerFileAccess_request (asUInt16_of_lt hnumber.2) hnumber.1.ne' hleft,
    decrement_zero, if_neg (by decide)]
  exact Option.some_ne_none n |>.symm

/-- A sequence of reads after which a file has been read as often as its allowance says and is
still in `files_`, and the next read does not request its move. -/
structure Missed (vc : VersionControl) (reads : List ℕ) (f : FileMetaData) : Prop where
  mem : f ∈ vc.current.files.entries
  live : ∀ r ∈ reads, r ∈ vc.current.files
  left : f.number ∈ (vc.accessAll reads).current.files
  count : f.allowedSeeks ≤ reads.count f.number
  missed : ((vc.accessAll reads).registerFileAccess f.number).1 ≠ some f.number

theorem Missed.not_seekAccounting (h : Missed vc reads f) : ¬ SeekAccounting vc := by
  intro hacc
  refine h.missed ((hacc reads f.number (fun r hr => ?_) f h.mem h.left).2 rfl h.count)
  rcases List.mem_append.mp hr with hr | hr
  · exact Or.inl (h.live r hr)
  · exact List.mem_singleton.mp hr ▸ Or.inl (KeyedMap.mem_of_mem_entries h.mem)

/-- With more files than candidates are allowed for, the files are moved one after the other
until a move is refused; by induction on the number of candidates that are missing. -/
theorem exists_missed (d : ℕ) : ∀ vc : VersionControl, vc.current.Disjoint →
    (∀ f ∈ vc.current.files.entries, 0 < f.number ∧ f.number < 2 ^ 16) →
    (∀ f ∈ vc.current.files.entries, 0 < f.allowedSeeks ∧ f.allowedSeeks < 2 ^ 32) →
    0 < vc.current.files.size →
    Config.stopWritesTrigger + 1 < vc.current.files.size + vc.current.mergeCandidates.size →
    Config.stopWritesTrigger < vc.current.mergeCandidates.size + d →
    ∃ reads f, Missed vc reads f := by
  induction d with
  | zero =>
    intro vc hdisj hnumber hseeks hpos _ hmany
    obtain ⟨f, hf⟩ := List.exists_mem_of_length_pos hpos
    have hall := accessAll_replicate_all hdisj (asUInt16_of_lt (hnumber f hf).2)
      (hnumber f hf).1.ne' (seeksLeft_of_mem hf) (hseeks f hf).2 (hseeks f hf).1
    rw [if_neg (by omega)] at hall
    have hleft : (vc.accessAll (List.replicate f.allowedSeeks f.number)).current.seeksLeft
        f.number = some 0 := by
      rw [hall, Function.update_self]
    refine ⟨List.replicate f.allowedSeeks f.number, f, hf, fun r hr => ?_,
      mem_files_iff_seeksLeft.mpr ⟨0, hleft⟩, by simp,
      not_requested_of_exhausted (hnumber f hf) hleft⟩
    exact List.eq_of_mem_replicate hr ▸ KeyedMap.mem_of_mem_entries hf
  | succ d ih =>
    intro vc hdisj hnumber hseeks hpos hsum hmany
    by_cases hfull : Config.stopWritesTrigger < vc.current.mergeCandidates.size + d
    · exact ih vc hdisj hnumber hseeks hpos hsum hfull
    · obtain ⟨f₀, hf₀⟩ := List.exists_mem_of_length_pos hpos
      have hall := accessAll_replicate_all hdisj (asUInt16_of_lt (hnumber f₀ hf₀).2)
        (hnumber f₀ hf₀).1.ne' (seeksLeft_of_mem hf₀) (hseeks f₀ hf₀).2 (hseeks f₀ hf₀).1
      rw [if_pos (by omega)] at hall
      set first := List.replicate f₀.allowedSeeks f₀.number with hfirst
      have hdisj' := (accessAll_moved vc first).disjoint hdisj
      have hsize := accessAll_size hdisj first
      -- the files that are left have their old numbers and allowances
      have hback : ∀ g ∈ (vc.accessAll first).current.files.entries,
          g.number ≠ f₀.number ∧ ∃ f ∈ vc.current.files.entries,
            f.number = g.number ∧ f.allowedSeeks = g.allowedSeeks := by
        intro g hg
        have hleft := seeksLeft_of_mem hg
        rw [hall.1, Function.update_apply] at hleft
        split_ifs at hleft with hne
        obtain ⟨f, hfind, hfseeks⟩ := Option.map_eq_some_iff.mp hleft
        obtain ⟨hf, hfnumber⟩ := KeyedMap.find?_eq_some_iff.mp hfind
        exact ⟨hne, f, hf, hfnumber, hfseeks⟩
      obtain ⟨reads, g, hmissed⟩ := ih (vc.accessAll first) hdisj' (fun g hg => by
          obtain ⟨-, f, hf, hfnumber, -⟩ := hback g hg
          exact hfnumber ▸ hnumber f hf)
        (fun g hg => by
          obtain ⟨-, f, hf, -, hfseeks⟩ := hback g hg
          exact hfseeks ▸ hseeks f hf)
        (by omega) (by omega) (by omega)
      obtain ⟨hne, f, hf, hfnumber, hfseeks⟩ := hback g hmissed.mem
      refine ⟨first ++ reads, f, hf, fun r hr => ?_, ?_, ?_, ?_⟩
      · rcases List.mem_append.mp hr with hr | hr
        · exact List.eq_of_mem_replicate hr ▸ KeyedMap.mem_of_mem_entries hf₀
        · obtain ⟨g', hg', rfl⟩ := KeyedMap.mem_def.mp (hmissed.live r hr)
          obtain ⟨-, f', hf', hnumber', -⟩ := hback g' hg'
          exact hnumber' ▸ KeyedMap.mem_of_mem_entries hf'
      · rw [accessAll_append, hfnumber]
        exact hmissed.left
      · rw [List.count_append, hfnumber, hfseeks]
        exact hmissed.count.trans (Nat.le_add_left _ _)
      · rw [accessAll_append, hfnumber]
        exact hmissed.missed

end Accountable

/-- **When seek accounting is right.** For every version: exactly when it has no files, or at
most 31 files and candidates, with file numbers from 1 to 65535, allowances above zero, and no
live file whose number is that of another one modulo 65536. -/
theorem seekAccounting_iff (vc : VersionControl) (hdisj : vc.current.Disjoint)
    (hseeks : ∀ f ∈ vc.current.files.entries, f.allowedSeeks < 2 ^ 32) :
    SeekAccounting vc ↔ vc.current.files.size = 0 ∨ Accountable vc.current := by
  constructor
  · intro h
    rw [or_iff_not_imp_left]
    intro hne
    have hnumber : ∀ f ∈ vc.current.files.entries, 0 < f.number ∧ f.number < 2 ^ 16 := by
      intro f hf
      by_contra hbad
      exact not_seekAccounting_of_number hdisj hf hbad h
    have hpos : ∀ f ∈ vc.current.files.entries, 0 < f.allowedSeeks := by
      intro f hf
      by_contra h0
      have h0' : f.allowedSeeks = 0 := Nat.eq_zero_of_not_pos h0
      have hleft : vc.current.seeksLeft f.number = some 0 := by rw [seeksLeft_of_mem hf, h0']
      have hmissed : Missed vc [] f :=
        ⟨hf, by simp, KeyedMap.mem_of_mem_entries hf, by simp [h0'],
          not_requested_of_exhausted (hnumber f hf) hleft⟩
      exact hmissed.not_seekAccounting h
    have hsize : vc.current.files.size + vc.current.mergeCandidates.size ≤
        Config.stopWritesTrigger + 1 := by
      by_contra hmany
      obtain ⟨reads, f, hmissed⟩ := exists_missed (Config.stopWritesTrigger + 1) vc hdisj hnumber
        (fun f hf => ⟨hpos f hf, hseeks f hf⟩) (Nat.pos_of_ne_zero hne) (by omega) (by omega)
      exact hmissed.not_seekAccounting h
    refine ⟨hsize, hnumber, hpos, fun r hr hmem => ?_⟩
    by_contra hbig
    -- the file is moved by reads of the other one
    obtain ⟨f, hf, hfr⟩ := KeyedMap.mem_def.mp hmem
    have hleft : vc.current.seeksLeft f.number = some f.allowedSeeks := seeksLeft_of_mem hf
    obtain ⟨i, hi⟩ := Nat.exists_eq_succ_of_ne_zero (hpos f hf).ne'
    have hbefore := accessAll_replicate hdisj hfr.symm (hnumber f hf).1.ne' hleft (hseeks f hf) i
      (by omega)
    have hafter := accessAll_replicate_all hdisj hfr.symm (hnumber f hf).1.ne' hleft (hseeks f hf)
      (hpos f hf)
    have hcand : vc.current.mergeCandidates.size ≤ Config.stopWritesTrigger := by
      have hone := KeyedMap.size_erase _ (KeyedMap.mem_of_mem_entries hf)
      omega
    rw [if_pos hcand, hi, Nat.succ_eq_add_one, List.replicate_succ'] at hafter
    have hmoved := (h (List.replicate i r) r (fun x hx => by
      rw [← List.replicate_succ'] at hx
      exact List.eq_of_mem_replicate hx ▸ hr) f hf
      (mem_files_iff_seeksLeft.mpr ⟨_, by rw [hbefore.1, Function.update_self]⟩)).1
      (fun hin => by
        obtain ⟨b, hb⟩ := mem_files_iff_seeksLeft.mp hin
        rw [hafter.1, Function.update_self] at hb
        exact absurd hb (by simp))
    have hcount : (List.replicate i r ++ [r]).count f.number = 0 := by
      rw [← List.replicate_succ', List.count_replicate, if_neg]
      have := (hnumber f hf).2
      simp only [beq_iff_eq]
      omega
    have := hpos f hf
    omega
  · rintro (h0 | h)
    · intro reads n _ f hf
      exact absurd (List.length_pos_of_mem hf) (by
        unfold KeyedMap.size at h0
        omega)
    · exact h.seekAccounting hdisj hseeks

/-- Files 2 and 3, and the merge candidate 4: whatever is read, the accounts are right. -/
theorem seekAccounting_iff_threeFiles :
    SeekAccounting
      (controlWith ⟨[rangeFile 2, rangeFile 3], by decide⟩ ⟨[rangeFile 4], by decide⟩) := by
  have hfiles : ∀ n ∈ [2, 3], n < 4 := by decide
  refine (seekAccounting_iff _ (fun n hn hn' => ?_) (by decide)).mpr
    (Or.inr ⟨by decide, by decide, by decide, fun r halive _ => ?_⟩)
  · exact (hfiles n hn).ne (List.mem_singleton.mp hn')
  · rcases halive with hr | hr
    · exact (hfiles r hr).trans (by decide)
    · exact (List.mem_singleton.mp hr).trans_lt (by decide)

/-- Files 2 and 65538. -/
def aliasControl : VersionControl := controlWith ⟨[rangeFile 2, rangeFile 65538], by decide⟩ ∅

/-- File 40, and 31 merge candidates. -/
def saturatedControl : VersionControl :=
  controlWith ⟨[rangeFile 40], by decide⟩ ⟨(List.range 31).map fun i => rangeFile (i + 1), by decide⟩

/-- **Two ways in which the accounts go wrong.** A hundred reads of file 65538 move file 2, which
has not been read, and leave file 65538 with its allowance. And with 31 candidates, the hundredth
read of file 40 requests its move, which is refused; the read after that does not request it, and
the file has a new allowance. -/
theorem reads_move_other_file_and_reset_allowance :
    (2 ∈ aliasControl.current.files ∧
      2 ∉ (aliasControl.accessAll (List.replicate 100 65538)).current.files ∧
      (aliasControl.accessAll (List.replicate 100 65538)).current.seeksLeft 65538 = some 100) ∧
    ((saturatedControl.accessAll (List.replicate 99 40)).registerFileAccess 40).1 = some 40 ∧
      (saturatedControl.accessAll (List.replicate 100 40)).current.seeksLeft 40 = some 0 ∧
      ((saturatedControl.accessAll (List.replicate 100 40)).registerFileAccess 40).1 = none ∧
      (saturatedControl.accessAll (List.replicate 101 40)).current.seeksLeft 40 =
        some (2 ^ 32 - 1) := by
  refine ⟨⟨?_, ?_, ?_⟩, ?_, ?_, ?_, ?_⟩ <;> decide +kernel

end VersionControl

end McfKv
