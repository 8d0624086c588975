import McfKv.Db.CheckCounts
import McfKv.Db.Filename
import McfKv.Db.LogAndApply

/-!
# The files that recovery finds (`DBImpl::Recover` in `db/db_impl.cc`)

After the version has been recovered from the manifest, `DBImpl::Recover` walks over the directory
once. It collects the logs that are to be replayed, and it checks the table files.

The check is the wrong way round. A database whose live tables are not all in the directory has
lost data; the loop instead looks for a table in the directory that is not live, which is what an
interrupted flush or compaction leaves behind, and reports that file as missing.
`reportsMissing_iff` says for which directories the outcome is still the right one.
-/

namespace McfKv

open Filename

namespace DirectoryScan

/-- The text of a file name in a message. -/
def text (name : Slice) : String := String.ofList (name.map fun b => Char.ofNat b.toNat)

/-- The loop over the names in the directory: the table that ends it, if there is one, and the
numbers of the logs found so far. -/
def scan (v : Version) (minLog prevLog : ℕ) : List Slice → List ℕ → Option ℕ × List ℕ
  | [], logs => (none, logs)
  | filename :: filenames, logs =>
    match parseFileName filename with
    | none => scan v minLog prevLog filenames logs
    | some (number, type) =>
      if type = .table ∧ ¬ v.IsAlive number then (some number, logs)
      else if type = .log ∧ (number ≥ minLog ∨ number = prevLog) then
        scan v minLog prevLog filenames (logs ++ [number])
      else scan v minLog prevLog filenames logs

/-- The error for a file that is called missing. -/
def missingFile (dbname : Slice) (number : ℕ) : Status :=
  .corruption "missing some files; e.g." (text (tableFileName dbname number))

/-- `DBImpl::Recover` between the recovery of the version and the replay of the logs: the error, or
the logs in the order in which they are replayed. -/
def recoverFiles (dbname : Slice) (vc : VersionControl) (filenames : List Slice) :
    Except Status (List ℕ) :=
  match scan vc.current vc.logNumber vc.prevLogNumber filenames [] with
  | (some number, _) => .error (missingFile dbname number)
  | (none, logs) => .ok (logs.insertionSort (· ≤ ·))

/-! ## What the scan should do -/

section Listing

variable (v : Version) (filenames : List Slice)

/-- The directory has a table with this number. -/
def HasTable (n : ℕ) : Prop := ∃ filename ∈ filenames, parseFileName filename = some (n, .table)

theorem hasTable_cons {filename : Slice} {n : ℕ} : HasTable (filename :: filenames) n ↔
    parseFileName filename = some (n, .table) ∨ HasTable filenames n :=
  List.exists_mem_cons_iff _ _ _

/-- A table in the directory is not live. -/
def Leftover : Prop := ∃ n, HasTable filenames n ∧ ¬ v.IsAlive n

/-- A live table is not in the directory. -/
def Missing : Prop := ∃ n, v.IsAlive n ∧ ¬ HasTable filenames n

end Listing

/-- The number of a log that is to be replayed. -/
def logToReplay (minLog prevLog : ℕ) (filename : Slice) : Option ℕ :=
  match parseFileName filename with
  | some (number, .log) => if number ≥ minLog ∨ number = prevLog then some number else none
  | _ => none

/-- **What recovery should report**: files are called missing exactly when a live table is missing,
and without an error all logs that are to be replayed have been collected, in ascending order. -/
structure ReportsMissing (dbname : Slice) (vc : VersionControl) (filenames : List Slice) : Prop where
  error : (∃ number, recoverFiles dbname vc filenames = .error (missingFile dbname number)) ↔
    Missing vc.current filenames
  logs : ∀ logs, recoverFiles dbname vc filenames = .ok logs →
    logs.Pairwise (· ≤ ·) ∧
      logs.Perm (filenames.filterMap (logToReplay vc.logNumber vc.prevLogNumber))

/-! ## What the scan does -/

/-- **What the loop finds**: it ends at a table that is not live, or there is none and it collects
all the logs. -/
theorem scan_spec (v : Version) (minLog prevLog : ℕ) (filenames : List Slice) : ∀ logs : List ℕ,
    (∃ number logs', scan v minLog prevLog filenames logs = (some number, logs') ∧
      HasTable filenames number ∧ ¬ v.IsAlive number) ∨ (scan v minLog prevLog filenames logs =
        (none, logs ++ filenames.filterMap (logToReplay minLog prevLog)) ∧
      ∀ n, HasTable filenames n → v.IsAlive n) := by
  induction filenames with
  | nil => exact fun logs => Or.inr ⟨by simp [scan], by simp [HasTable]⟩
  | cons filename filenames ih =>
    -- the rest of the loop, after a file that is no leftover
    have hrest : ∀ logs', (∀ n, parseFileName filename = some (n, .table) → v.IsAlive n) →
        (∃ number logs'', scan v minLog prevLog filenames logs' = (some number, logs'') ∧
          HasTable (filename :: filenames) number ∧ ¬ v.IsAlive number) ∨
        (scan v minLog prevLog filenames logs' =
            (none, logs' ++ filenames.filterMap (logToReplay minLog prevLog)) ∧
          ∀ n, HasTable (filename :: filenames) n → v.IsAlive n) := by
      intro logs' hfirst
      rcases ih logs' with ⟨number, logs'', hscan, htable, hdead⟩ | ⟨hscan, hall⟩
      · exact Or.inl ⟨number, logs'', hscan, (hasTable_cons _).mpr (Or.inr htable), hdead⟩
      · exact Or.inr ⟨hscan, fun n hn => ((hasTable_cons _).mp hn).elim (hfirst n) (hall n)⟩
    intro logs
    unfold scan
    cases hparse : parseFileName filename with
    | none =>
      have hlog : logToReplay minLog prevLog filename = none := by simp [logToReplay, hparse]
      rw [List.filterMap_cons_none hlog]
      exact hrest logs (by simp [hparse])
    | some found =>
      obtain ⟨number, type⟩ := found
      dsimp only
      split_ifs with hdead hlog
      · obtain ⟨rfl, hdead⟩ := hdead
        exact Or.inl ⟨number, logs, rfl, (hasTable_cons _).mpr (Or.inl hparse), hdead⟩
      · obtain ⟨rfl, hrange⟩ := hlog
        have hlog : logToReplay minLog prevLog filename = some number := by
          simp [logToReplay, hparse, hrange]
        have hnext := hrest (logs ++ [number]) (by simp [hparse])
        rw [List.append_assoc, List.singleton_append] at hnext
        rw [List.filterMap_cons_some hlog]
        exact hnext
      · have hnone : logToReplay minLog prevLog filename = none := by
          unfold logToReplay
          rw [hparse]
          cases type with
          | log => exact if_neg fun hrange => hlog ⟨rfl, hrange⟩
          | dbLock | table | descriptor | current | temp | infoLog => rfl
        rw [List.filterMap_cons_none hnone]
        refine hrest logs fun n hn => ?_
        rw [hparse, Option.some.injEq, Prod.mk.injEq] at hn
        obtain ⟨rfl, rfl⟩ := hn
        exact not_not.mp fun hn => hdead ⟨rfl, hn⟩

theorem recoverFiles_error_iff (dbname : Slice) (vc : VersionControl) (filenames : List Slice) :
    (∃ number, recoverFiles dbname vc filenames = .error (missingFile dbname number)) ↔
      Leftover vc.current filenames := by
  unfold recoverFiles
  rcases scan_spec vc.current vc.logNumber vc.prevLogNumber filenames [] with
    ⟨number, logs, hscan, htable, hdead⟩ | ⟨hscan, hall⟩
  · rw [hscan]
    exact iff_of_true ⟨number, rfl⟩ ⟨number, htable, hdead⟩
  · rw [hscan]
    refine iff_of_false (by simp) ?_
    rintro ⟨n, htable, hdead⟩
    exact hdead (hall n htable)

theorem recoverFiles_logs {dbname : Slice} {vc : VersionControl} {filenames : List Slice}
    {logs : List ℕ} (h : recoverFiles dbname vc filenames = .ok logs) : logs.Pairwise (· ≤ ·) ∧
      logs.Perm (filenames.filterMap (logToReplay vc.logNumber vc.prevLogNumber)) := by
  unfold recoverFiles at h
  rcases scan_spec vc.current vc.logNumber vc.prevLogNumber filenames [] with
    ⟨number, logs', hscan, -⟩ | ⟨hscan, -⟩
  · rw [hscan] at h
    exact nomatch h
  · rw [hscan, List.nil_append] at h
    obtain rfl := Except.ok.inj h
    exact ⟨List.pairwise_insertionSort _ _, List.perm_insertionSort _ _⟩

/-- **For which directories recovery reports missing files as it should**: a table that is not live
is in the directory exactly when a live table is not. -/
theorem reportsMissing_iff (dbname : Slice) (vc : VersionControl) (filenames : List Slice) :
    ReportsMissing dbname vc filenames ↔
      (Leftover vc.current filenames ↔ Missing vc.current filenames) := by
  constructor
  · intro h
    exact (recoverFiles_error_iff dbname vc filenames).symm.trans h.error
  · intro h
    exact ⟨(recoverFiles_error_iff dbname vc filenames).trans h, fun _ => recoverFiles_logs⟩

/-- File 2 is live, and log 3 is to be replayed. -/
def liveTwo : VersionControl :=
  { VersionControl.oneFileControl with logNumber := 3 }

/-- **Both ways to be wrong.** With table 5 left behind by a flush, recovery fails although nothing
is missing, and calls table 5 missing. Without table 2, which is live, it succeeds. -/
theorem leftover_reported_missing_accepted :
    recoverFiles (ascii "db") liveTwo
        [ascii "000002.ldb", ascii "000005.ldb", ascii "000003.log"] =
      .error (.corruption "missing some files; e.g." "db/000005.ldb") ∧
    recoverFiles (ascii "db") liveTwo [ascii "000003.log"] = .ok [3] ∧
      liveTwo.current.IsAlive 2 := by
  refine ⟨?_, ?_, ?_⟩ <;> decide +kernel

end DirectoryScan

end McfKv
