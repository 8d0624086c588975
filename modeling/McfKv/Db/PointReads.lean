import McfKv.Db.DBImpl

/-!
# Point reads across flushes

After a flush a key is found through the number that `fast_atoi` makes of it. Two keys with
one number share one entry of the index, so a flush that has one of them hides the other one,
unless that is in a memtable.
-/

namespace McfKv.DBImpl

open Assign Coding Run

/-- The last write of a key. -/
def State.lastWrite (s : State) (userKey : Slice) : Option Entry :=
  s.log.find? fun e => e.userKey = userKey

/-- **Each key put so far reads the value of its last `Put`.** -/
def ReadsLastPut (s : State) : Prop :=
  ∀ userKey e, s.lastWrite userKey = some e → s.get none userKey = .ok e.value

/-- The steps of the runs: puts, and flushes of memtables. -/
def Step.PutOrFlush : Step → Prop
  | .put _ _ => True
  | .newMemTable _ => True
  | .flush _ => True
  | _ => False

/-- The entries have a version of the user key. -/
def Has (entries : List Entry) (userKey : Slice) : Prop := ∃ e ∈ entries, e.userKey = userKey

/-- **The keys of a flush are apart from those that are in no memtable**: they have other index
keys, and neither the new file nor a file that the index names for such a key is lost. -/
def State.Apart (s : State) : Step → Prop
  | .flush lost => ∀ imm userKey, s.imm = some imm → Has s.log userKey → ¬ Has s.mem userKey →
      (Has imm userKey → s.nextFile ∉ lost) ∧
      (¬ Has imm userKey → (∀ e ∈ imm, fastAtoi e.userKey ≠ fastAtoi userKey) ∧
        ∀ f, s.index (fastAtoi userKey) = some f → f ∉ lost)
  | _ => True

instance decidableHas (entries : List Entry) (userKey : Slice) : Decidable (Has entries userKey) :=
  inferInstanceAs (Decidable (∃ e ∈ entries, e.userKey = userKey))

instance decidablePutOrFlush : ∀ a : Step, Decidable a.PutOrFlush
  | .put _ _ | .newMemTable _ | .flush _ => isTrue trivial
  | .delete _ | .getSnapshot | .releaseSnapshot _ | .compact _ _ _ => isFalse id

/-- It is enough to look at the keys of the writes. -/
instance decidableApart (s : State) : ∀ a : Step, Decidable (s.Apart a)
  | .flush lost => decidable_of_iff (∀ imm ∈ s.imm, ∀ e ∈ s.log, Has s.mem e.userKey ∨
      (Has imm e.userKey → s.nextFile ∉ lost) ∧
      (¬ Has imm e.userKey → (∀ e' ∈ imm, fastAtoi e'.userKey ≠ fastAtoi e.userKey) ∧
        ∀ f ∈ s.index (fastAtoi e.userKey), f ∉ lost))
    ⟨fun h imm _ himm ⟨e, he, hkey⟩ => hkey ▸ (h imm himm e he).resolve_left,
      fun h imm himm e he => or_iff_not_imp_left.mpr (h imm e.userKey himm ⟨e, he, rfl⟩)⟩
  | .put _ _ | .newMemTable _ | .delete _ | .getSnapshot | .releaseSnapshot _ | .compact _ _ _ =>
    isTrue trivial

variable {s s' : State}

variable {userKey : Slice} {entries : List Entry}

theorem lastWrite_eq_some {e : Entry} (h : s.lastWrite userKey = some e) :
    e ∈ s.log ∧ e.userKey = userKey :=
  ⟨List.mem_of_find?_eq_some h, by simpa using List.find?_some h⟩

theorem exists_lastWrite (h : Has s.log userKey) : ∃ e, s.lastWrite userKey = some e := by
  obtain ⟨e, he, hkey⟩ := h
  have hsome : s.lastWrite userKey ≠ none := fun hnone =>
    List.find?_eq_none.mp hnone e he (by simpa using hkey)
  exact Option.ne_none_iff_exists'.mp hsome

/-- The invariant of the runs. -/
structure PutInv (s : State) : Prop where
  wf : Wf s
  value : ∀ e ∈ s.log, e.type = .value
  reads : ReadsLastPut s

theorem init_putInv : PutInv State.init where
  wf := init_wf
  value _ he := absurd he List.not_mem_nil
  reads _ _ he := absurd he (by simp [State.lastWrite, State.init])

/-! ## Puts and new memtables -/

/-- A read does not depend on the number where no write of the key is between. -/
theorem get_congr_seq (h : Wf s) {S S' : ℕ} (hS : S ≤ s.lastSequence) (hS' : S' ≤ s.lastSequence)
    (heq : ∀ e ∈ s.log, e.userKey = userKey → (e.sequence ≤ S ↔ e.sequence ≤ S')) :
    s.get (some S) userKey = s.get (some S') userKey := by
  have hfind : ∀ {entries}, Part s entries →
      findEntry entries userKey S = findEntry entries userKey S' := fun hp =>
    Versions.find_congr_seq fun e he hkey => heq e (hp.logged e he) hkey
  have himm : findEntry (s.imm.getD []) userKey S = findEntry (s.imm.getD []) userKey S' := by
    cases hi : s.imm with
    | none => rfl
    | some imm => exact hfind (h.imm imm hi)
  have hversion : s.versionGet userKey S = s.versionGet userKey S' := by
    rw [h.versionGet_eq userKey hS, h.versionGet_eq userKey hS']
    cases s.index (fastAtoi userKey) with
    | none => rfl
    | some f =>
      dsimp only
      cases ht : s.tables f with
      | none => rfl
      | some table => exact congrArg readOr (hfind (h.tables f table ht).1)
  rw [h.get_eq userKey hS, h.get_eq userKey hS', hfind h.mem, himm, hversion]

theorem put_inv {value : Slice} (h : PutInv s) (hseq : s.lastSequence < maxSequenceNumber)
    (hkey : 8 ≤ userKey.length) : PutInv (s.write .value userKey value) := by
  have hwf := h.wf
  have hwf' : Wf (s.write .value userKey value) := write_wf hwf hseq hkey
  have hlast : s.lastSequence + 1 ≤ (s.write .value userKey value).lastSequence := le_rfl
  refine ⟨hwf', fun e he => ?_, fun userKey' e he => ?_⟩
  · rcases List.mem_cons.mp he with rfl | he
    · rfl
    · exact h.value e he
  · show (s.write .value userKey value).get (some (s.lastSequence + 1)) userKey' = .ok e.value
    unfold State.lastWrite at he
    change List.find? _ (_ :: s.log) = some e at he
    by_cases hsame : userKey = userKey'
    · -- the entry that was written is the newest one
      rw [List.find?_cons_of_pos (by simpa using hsame)] at he
      have hshows : Shows (s.write .value userKey value).mem userKey' (s.lastSequence + 1)
          ⟨userKey, s.lastSequence + 1, .value, value⟩ :=
        ⟨mem_memTableAdd.mpr (Or.inl rfl), hsame, le_rfl,
          fun b hb _ _ => hwf'.log_le b (hwf'.mem.logged b hb)⟩
      rw [hwf'.get_eq userKey' hlast, (hwf'.mem.find_eq_some_iff hwf').mpr hshows,
        ← Option.some.inj he]
      rfl
    · rw [List.find?_cons_of_neg (by simpa using hsame)] at he
      have hbetween : ∀ e ∈ (s.write .value userKey value).log, e.userKey = userKey' →
          (e.sequence ≤ s.lastSequence + 1 ↔ e.sequence ≤ s.lastSequence) := by
        intro e he hek
        rcases List.mem_cons.mp he with rfl | he
        · exact absurd hek hsame
        · have hle := hwf.log_le e he
          exact iff_of_true (hle.trans (Nat.le_succ _)) hle
      calc (s.write .value userKey value).get (some (s.lastSequence + 1)) userKey'
          = (s.write .value userKey value).get (some s.lastSequence) userKey' :=
            get_congr_seq hwf' hlast (Nat.le_succ _) hbetween
        _ = s.get (some s.lastSequence) userKey' := get_write hwf hseq hkey le_rfl userKey'
        _ = .ok e.value := h.reads userKey' e he

theorem newMemTable_inv {newLog : Bool} (h : PutInv s) (hrange : s.nextFile < noFile)
    (hstep : step s (.newMemTable newLog) = some s') : PutInv s' := by
  have hwf' := newMemTable_wf h.wf hrange hstep
  obtain ⟨hlog, hlast⟩ : s'.log = s.log ∧ s'.lastSequence = s.lastSequence := by
    obtain ⟨-, rfl⟩ := newMemTable_cases hstep
    exact ⟨rfl, rfl⟩
  refine ⟨hwf', hlog ▸ h.value, fun userKey e he => ?_⟩
  show s'.get (some s'.lastSequence) userKey = .ok e.value
  unfold State.lastWrite at he
  rw [hlog] at he
  rw [hlast, get_newMemTable h.wf hwf' hstep le_rfl userKey]
  exact h.reads userKey e he

/-! ## Flushes -/

theorem find_eq_none_of_not_has (hp : Part s entries) (h : Wf s) (hhas : ¬ Has entries userKey)
    (S : ℕ) : findEntry entries userKey S = none :=
  (hp.find_eq_none_iff h).mpr fun e he hkey => absurd ⟨e, he, hkey⟩ hhas

theorem not_has_of_find_eq_none (hp : Part s entries) (h : Wf s)
    (hfind : findEntry entries userKey s.lastSequence = none) : ¬ Has entries userKey := by
  rintro ⟨e, he, hkey⟩
  exact absurd ((hp.find_eq_none_iff h).mp hfind e he hkey)
    (not_lt.mpr (h.log_le e (hp.logged e he)))

section Flush

variable {lost : List ℕ} {imm : List Entry} {userKey : Slice}

theorem get_flush_of_not_has (h : Wf s) (h' : Wf s') (hstep : s.flush lost = some s')
    (hmem : ¬ Has s.mem userKey) : s'.get none userKey = s'.versionGet userKey s.lastSequence := by
  obtain ⟨-, -, hmem', himm', -, -, -, hlast, -, hlog⟩ := flush_cases hstep
  have hfind : findEntry s'.mem userKey s.lastSequence = none := by
    rw [hmem']
    exact find_eq_none_of_not_has h.mem h hmem _
  have hfind' : findEntry (s'.imm.getD []) userKey s.lastSequence = none := by
    rw [himm']
    rfl
  show s'.get (some s'.lastSequence) userKey = _
  rw [hlast, h'.get_eq userKey hlast.ge, hfind, hfind']

theorem flush_inv (h : PutInv s) (hrange : s.nextFile < noFile) (hapart : s.Apart (.flush lost))
    (hstep : s.flush lost = some s') : PutInv s' := by
  have hwf := h.wf
  have hwf' := flush_wf hwf hrange hstep
  obtain ⟨imm, himm, hmem, -, -, -, -, hlast, -, hlog⟩ := flush_cases hstep
  refine ⟨hwf', hlog ▸ h.value, fun userKey e he => ?_⟩
  unfold State.lastWrite at he
  rw [hlog] at he
  have hread : s.get (some s.lastSequence) userKey = .ok e.value := h.reads userKey e he
  rw [hwf.get_eq userKey le_rfl] at hread
  cases hfind : findEntry s.mem userKey s.lastSequence with
  | some a =>
    show s'.get (some s'.lastSequence) userKey = _
    rw [hlast, hwf'.get_eq userKey hlast.ge, hmem, hfind]
    simpa only [hfind] using hread
  | none =>
    have hnot := not_has_of_find_eq_none hwf.mem hwf hfind
    obtain ⟨hin, hout⟩ := hapart imm userKey himm
      ⟨e, (lastWrite_eq_some he).1, (lastWrite_eq_some he).2⟩ hnot
    have himmPart := hwf.imm imm himm
    rw [get_flush_of_not_has hwf hwf' hstep hnot]
    simp only [hfind, himm, Option.getD_some] at hread
    by_cases hhas : Has imm userKey
    · -- the file has the version that the memtable had
      have hsame : findEntry (buildTable [] imm) userKey s.lastSequence =
          findEntry imm userKey s.lastSequence := by
        refine (himmPart.sublist (himmPart.buildTable_sublist hwf)).find_congr himmPart hwf
          fun a => ?_
        rw [himmPart.shows_buildTable_iff hwf]
        exact and_iff_left fun b hb _ => hwf.log_le b (himmPart.logged b hb)
      obtain ⟨e', he', hkey'⟩ := hhas
      rw [versionGet_flush_moved hwf hwf' hstep himm le_rfl ⟨e', he', by rw [hkey']⟩,
        if_neg (hin ⟨e', he', hkey'⟩), hsame]
      cases hfound : findEntry imm userKey s.lastSequence with
      | none => exact absurd ⟨e', he', hkey'⟩ (not_has_of_find_eq_none himmPart hwf hfound)
      | some a =>
        simp only [hfound] at hread
        exact hread
    · obtain ⟨hatoi, hkept⟩ := hout hhas
      rw [versionGet_flush_other hwf hwf' hstep himm le_rfl hatoi, if_neg]
      · rw [find_eq_none_of_not_has himmPart hwf hhas] at hread
        exact hread
      · rintro ⟨f, hf, hindex⟩
        exact hkept f hindex hf

theorem flush_violates (h : PutInv s) (hrange : s.nextFile < noFile)
    (hapart : ¬ s.Apart (.flush lost)) :
    ∃ s', step s (.flush lost) = some s' ∧ ¬ ReadsLastPut s' := by
  have hwf := h.wf
  unfold State.Apart at hapart
  push Not at hapart
  obtain ⟨imm, userKey, himm, hlogged, hmem, hbad⟩ := hapart
  obtain ⟨s', hstep⟩ : ∃ s', s.flush lost = some s' := by
    unfold State.flush
    rw [himm]
    exact ⟨_, rfl⟩
  refine ⟨s', hstep, fun hreads => ?_⟩
  have hwf' := flush_wf hwf hrange hstep
  obtain ⟨-, -, -, -, -, -, -, -, -, hlog⟩ := flush_cases hstep
  obtain ⟨e, he⟩ := exists_lastWrite hlogged
  have hread : s'.get none userKey = .ok e.value := by
    refine hreads userKey e ?_
    unfold State.lastWrite
    rw [hlog]
    exact he
  rw [get_flush_of_not_has hwf hwf' hstep hmem] at hread
  have himmPart := hwf.imm imm himm
  -- the key is looked for in the new file, which does not have it, or its file is lost
  by_cases hmoved : ∃ e ∈ imm, fastAtoi e.userKey = fastAtoi userKey
  · rw [versionGet_flush_moved hwf hwf' hstep himm le_rfl hmoved] at hread
    split_ifs at hread with hlost
    obtain ⟨hhas, -⟩ := hbad fun _ => hlost
    have hpart := himmPart.sublist (himmPart.buildTable_sublist hwf)
    rw [find_eq_none_of_not_has hpart hwf fun ⟨e', he', hkey⟩ =>
      hhas ⟨e', (himmPart.buildTable_sublist hwf).subset he', hkey⟩] at hread
    exact absurd hread (by simp [readOr])
  · push Not at hmoved
    have hhas : ¬ Has imm userKey := fun ⟨e', he', hkey⟩ => hmoved e' he' (by rw [hkey])
    obtain ⟨f, hindex, hlost⟩ := (hbad fun hin => absurd hin hhas).2 hmoved
    rw [versionGet_flush_other hwf hwf' hstep himm le_rfl hmoved,
      if_pos ⟨f, hlost, hindex⟩] at hread
    exact absurd hread (by simp)

end Flush

/-! ## Runs -/

/-- **Point reads across flushes.** In a run of puts, new memtables and flushes, each key put
so far reads the value of its last `Put` in every state, if and only if the keys of each flush
are apart from the keys that are in no memtable. -/
theorem readsLastPut_iff_apart {steps : List Step}
    (hsteps : Meets step (fun s a => a.PutOrFlush ∧ s.InRange a) State.init steps) :
    Always step ReadsLastPut State.init steps ↔ Meets step State.Apart State.init steps := by
  refine always_iff_meets (fun s h => h.reads) (fun s a s' h hrange hapart hstep => ?_)
    (fun s a h hrange hapart => ?_) init_putInv hsteps
  · cases a with
    | put userKey value =>
      obtain rfl := Option.some.inj hstep
      exact put_inv h hrange.2.1 hrange.2.2
    | newMemTable newLog => exact newMemTable_inv h hrange.2 hstep
    | flush lost => exact flush_inv h hrange.2 hapart hstep
    | delete | getSnapshot | releaseSnapshot | compact => exact absurd hrange.1 id
  · cases a with
    | flush lost => exact flush_violates h hrange.2 hapart
    | put | newMemTable | delete | getSnapshot | releaseSnapshot | compact =>
      exact absurd trivial hapart

/-- Eight bytes of one letter. -/
def letters (byte : UInt8) : Slice := List.replicate 8 byte

/-- Two keys with different numbers, put and flushed one after the other. -/
def twoNumbers : List Step :=
  [.put (letters 49) [1], .newMemTable false, .flush [],
    .put (letters 50) [2], .newMemTable false, .flush []]

theorem readsLastPut_iff_apart_twoNumbers :
    Meets step State.Apart State.init twoNumbers ∧
      Always step ReadsLastPut State.init twoNumbers := by
  have hsteps : Meets step (fun s a => a.PutOrFlush ∧ s.InRange a) State.init twoNumbers := by
    decide +kernel
  have hapart : Meets step State.Apart State.init twoNumbers := by decide +kernel
  exact ⟨hapart, (readsLastPut_iff_apart hsteps).mpr hapart⟩

/-- Two keys of letters only, put and flushed one after the other. -/
def twoLetters : List Step :=
  [.put (letters 97) [1], .newMemTable false, .flush [],
    .put (letters 98) [2], .newMemTable false, .flush []]

/-- **A flush hides a key.** `fast_atoi` makes `0` of both keys, so the index leads to the
second file for both, and the first key is not found. -/
theorem flush_hides_key :
    ∃ s, runFrom step State.init twoLetters = some s ∧
      s.lastWrite (letters 97) = some ⟨letters 97, 1, .value, [1]⟩ ∧
      s.get none (letters 97) = .error (.notFound "") :=
  ⟨_, rfl, by decide +kernel, by decide +kernel⟩

end McfKv.DBImpl
