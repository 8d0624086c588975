import Mathlib.Data.List.Pairwise
import McfKv.Db.DBImpl

/-!
# The merge loop of a compaction

`DoCompactionWork` goes through the entries of its inputs in order and distributes those that
it keeps over output files. An entry is kept if the index leads to an input for its key, and
if it is not hidden: the version of the key before it is newer than the smallest snapshot.

`MergeInv` is the invariant of the loop. It assumes that no output ends between two entries
with one index key, so that whether the index already knows the finished outputs does not
matter for the entries to come. Its main parts:

* an entry that is not kept has a newer kept version of its key that every reader sees who
  would have seen the entry (`newest`);
* the entries with one index key are in one output (`apart`).
-/

namespace McfKv.DBImpl

open Assign Coding

/-- All outputs, the unfinished one at the end. -/
def Merge.all (c : Merge) : List (ℕ × List Entry) := c.outputs ++ c.output.toList

/-- The entries of all outputs. -/
def Merge.kept (c : Merge) : List Entry := c.all.flatMap Prod.snd

/-- No two entries have the same index key. -/
def IndexApart (entries entries' : List Entry) : Prop :=
  ∀ x ∈ entries, ∀ y ∈ entries', fastAtoi x.userKey ≠ fastAtoi y.userKey

/-- The index leads to an input. -/
def State.InInput (s : State) (inputs : List ℕ) (userKey : Slice) : Prop :=
  ∃ f ∈ inputs, s.index (fastAtoi userKey) = some f

/-- **The invariant of the merge loop** with the entries that are `done` and the `rest`. -/
structure MergeInv (s : State) (inputs : List ℕ) (smallest : ℕ) (done rest : List Entry)
    (c : Merge) : Prop where
  current : ∀ k, c.currentUserKey = some k →
    ∃ e ∈ done, e.userKey = k ∧ e.sequence = c.lastSequenceForKey
  target : assign c.index c.queue = assign s.index (c.outputs.flatMap fun o => batch o.1 o.2)
  queue : ∀ nf ∈ c.queue, ∃ o ∈ c.outputs, ∃ e ∈ o.2, fastAtoi e.userKey = nf.1
  index : ∀ n, (∀ o ∈ c.outputs, ∀ e ∈ o.2, fastAtoi e.userKey ≠ n) → c.index n = s.index n
  sublist : c.kept.Sublist done
  input : ∀ e ∈ c.kept, s.InInput inputs e.userKey
  newest : ∀ S, smallest ≤ S → ∀ x ∈ done, s.InInput inputs x.userKey → x.sequence ≤ S →
    ∃ y ∈ c.kept, y.userKey = x.userKey ∧ x.sequence ≤ y.sequence ∧ y.sequence ≤ S
  apart : c.all.Pairwise fun o o' => o.1 < o'.1 ∧ IndexApart o.2 o'.2
  finished : ∀ o ∈ c.outputs, IndexApart o.2 rest
  numbers : ∀ o ∈ c.all, s.nextFile ≤ o.1 ∧ o.1 < c.nextFile
  nextFile_le : s.nextFile ≤ c.nextFile ∧ c.nextFile ≤ s.nextFile + done.length

variable {s : State} {inputs : List ℕ} {smallest : ℕ} {done rest : List Entry} {c : Merge}
  {e : Entry}

theorem start_mergeInv (rest : List Entry) : MergeInv s inputs smallest [] rest (Merge.start s) where
  current _ hk := absurd hk (by simp [Merge.start])
  target := rfl
  queue _ hnf := absurd hnf List.not_mem_nil
  index _ _ := rfl
  sublist := List.Sublist.refl _
  input _ he := absurd he List.not_mem_nil
  newest _ _ _ hx := absurd hx List.not_mem_nil
  apart := List.Pairwise.nil
  finished _ ho := absurd ho List.not_mem_nil
  numbers _ ho := absurd ho List.not_mem_nil
  nextFile_le := ⟨le_rfl, le_rfl⟩

/-! ## The parts of a round -/

theorem MergeInv.apply (h : MergeInv s inputs smallest done rest c) (n : ℕ) :
    MergeInv s inputs smallest done rest (c.apply n) := by
  refine ⟨h.current, ?_, fun nf hnf => h.queue nf (List.mem_of_mem_drop hnf), fun m hm => ?_,
    h.sublist, h.input, h.newest, h.apart, h.finished, h.numbers, h.nextFile_le⟩
  · show assign (assign c.index (c.queue.take n)) (c.queue.drop n) = _
    rw [← assign_append, List.take_append_drop]
    exact h.target
  · show assign c.index (c.queue.take n) m = s.index m
    rw [assign_of_forall_ne (fun nf hnf => ?_), h.index m hm]
    obtain ⟨o, ho, e, he, heq⟩ := h.queue nf (List.mem_of_mem_take hnf)
    rw [← heq]
    exact hm o ho e he

/-- **An entry is dropped**, because its key is in no input, or because of a version before it
that every snapshot sees. -/
theorem MergeInv.drop (h : MergeInv s inputs smallest done (e :: rest) c)
    (hsorted : ∀ p ∈ done, p.userKey = e.userKey → e.sequence ≤ p.sequence)
    (hdrop : ¬ s.InInput inputs e.userKey ∨
      ∃ p ∈ done, p.userKey = e.userKey ∧ p.sequence ≤ smallest) :
    MergeInv s inputs smallest (done ++ [e]) rest (c.advance e) := by
  refine ⟨fun k hk => ?_, h.target, h.queue, h.index,
    h.sublist.trans (List.sublist_append_left done [e]), h.input, fun S hS x hx hin hxS => ?_,
    h.apart, fun o ho x hx y hy => h.finished o ho x hx y (List.mem_cons_of_mem _ hy), h.numbers,
    h.nextFile_le.1, ?_⟩
  · exact ⟨e, List.mem_append_right _ List.mem_cons_self, Option.some.inj hk, rfl⟩
  · rcases List.mem_append.mp hx with hx | hx
    · exact h.newest S hS x hx hin hxS
    · obtain rfl := List.mem_singleton.mp hx
      rcases hdrop with hnot | ⟨p, hp, hkey, hle⟩
      · exact absurd hin hnot
      · have hpin : s.InInput inputs p.userKey := hkey ▸ hin
        obtain ⟨y, hy, hyk, hle', hyS⟩ := h.newest S hS p hp hpin (hle.trans hS)
        exact ⟨y, hy, hyk.trans hkey, (hsorted p hp hkey).trans hle', hyS⟩
  · have hle := h.nextFile_le.2
    rw [List.length_append]
    exact hle.trans (Nat.add_le_add_left (Nat.le_add_right _ _) _)

theorem Merge.add_cases (c : Merge) (e : Entry) :
    ∃ file entries, (c.add e).output = some (file, entries ++ [e]) ∧
      (c.add e).outputs = c.outputs ∧ (c.add e).index = c.index ∧ (c.add e).queue = c.queue ∧
      ((c.output = some (file, entries) ∧ (c.add e).nextFile = c.nextFile) ∨
        (c.output = none ∧ file = c.nextFile ∧ entries = [] ∧
          (c.add e).nextFile = c.nextFile + 1)) := by
  unfold Merge.add
  cases ho : c.output with
  | none => exact ⟨c.nextFile, [], rfl, rfl, rfl, rfl, Or.inr ⟨rfl, rfl, rfl, rfl⟩⟩
  | some o => exact ⟨o.1, o.2, rfl, rfl, rfl, rfl, Or.inl ⟨rfl, rfl⟩⟩

theorem Merge.kept_add (c : Merge) (e : Entry) : (c.add e).kept = c.kept ++ [e] := by
  obtain ⟨file, entries, hout, houtputs, -, -, hcase⟩ := c.add_cases e
  unfold Merge.kept Merge.all
  rw [hout, houtputs]
  rcases hcase with ⟨ho, -⟩ | ⟨ho, -, rfl, -⟩ <;> simp [ho]

theorem MergeInv.keep (h : MergeInv s inputs smallest done (e :: rest) c)
    (hin : s.InInput inputs e.userKey) :
    MergeInv s inputs smallest (done ++ [e]) rest ((c.advance e).add e) := by
  obtain ⟨file, entries, hout, houtputs, hindex, hqueue, hcase⟩ := (c.advance e).add_cases e
  have hkept : ((c.advance e).add e).kept = c.kept ++ [e] := Merge.kept_add _ _
  have hlength : (done ++ [e]).length = done.length + 1 := by simp
  have hnext := h.nextFile_le
  -- the output that the entry goes to
  have hfile : s.nextFile ≤ file ∧ file < ((c.advance e).add e).nextFile ∧
      c.nextFile ≤ ((c.advance e).add e).nextFile ∧
      ((c.advance e).add e).nextFile ≤ c.nextFile + 1 ∧
      ∀ o ∈ c.outputs, o.1 < file ∧ IndexApart o.2 (entries ++ [e]) := by
    have hfinished : ∀ o ∈ c.outputs, ∀ x ∈ o.2, fastAtoi x.userKey ≠ fastAtoi e.userKey :=
      fun o ho x hx => h.finished o ho x hx e List.mem_cons_self
    rcases hcase with ⟨ho, hn⟩ | ⟨-, rfl, rfl, hn⟩
    · have ho' : c.output = some (file, entries) := ho
      have hmem : (file, entries) ∈ c.all := by simp [Merge.all, ho']
      have hnumber := h.numbers _ hmem
      have hn' : ((c.advance e).add e).nextFile = c.nextFile := hn
      refine ⟨hnumber.1, hn' ▸ hnumber.2, hn'.ge, hn'.le.trans (Nat.le_succ _), fun o hmem' => ?_⟩
      have hapart := h.apart
      unfold Merge.all at hapart
      rw [ho', List.pairwise_append] at hapart
      obtain ⟨hlt, hap⟩ := hapart.2.2 o hmem' (file, entries) (by simp)
      refine ⟨hlt, fun x hx y hy => ?_⟩
      rcases List.mem_append.mp hy with hy | hy
      · exact hap x hx y hy
      · rw [List.mem_singleton.mp hy]
        exact hfinished o hmem' x hx
    · have hn' : ((c.advance e).add e).nextFile = c.nextFile + 1 := hn
      refine ⟨hnext.1, hn' ▸ Nat.lt_succ_self _, hn' ▸ Nat.le_succ _, hn'.le, fun o ho => ?_⟩
      refine ⟨(h.numbers o (List.mem_append_left _ ho)).2, fun x hx y hy => ?_⟩
      rw [List.mem_singleton.mp hy]
      exact hfinished o ho x hx
  have hall : ((c.advance e).add e).all = c.outputs ++ [(file, entries ++ [e])] := by
    unfold Merge.all
    rw [hout, houtputs]
    rfl
  have hsub : c.outputs.Sublist c.all := List.sublist_append_left _ _
  refine ⟨fun k hk => ?_, ?_, ?_, ?_, ?_, fun x hx => ?_, fun S hS x hx hxin hxS => ?_, ?_,
    fun o ho x hx y hy => ?_, fun o ho => ?_, hnext.1.trans hfile.2.2.1, ?_⟩
  · have hadvance : ((c.advance e).add e).currentUserKey = some e.userKey ∧
        ((c.advance e).add e).lastSequenceForKey = e.sequence := by
      unfold Merge.add
      cases (c.advance e).output <;> exact ⟨rfl, rfl⟩
    rw [hadvance.1] at hk
    exact ⟨e, List.mem_append_right _ List.mem_cons_self, Option.some.inj hk, hadvance.2.symm⟩
  · rw [hindex, hqueue, houtputs]
    exact h.target
  · rw [hqueue, houtputs]
    exact h.queue
  · rw [hindex, houtputs]
    exact h.index
  · rw [hkept]
    exact h.sublist.append (List.Sublist.refl _)
  · rw [hkept] at hx
    rcases List.mem_append.mp hx with hx | hx
    · exact h.input x hx
    · rw [List.mem_singleton.mp hx]
      exact hin
  · rw [hkept]
    rcases List.mem_append.mp hx with hx | hx
    · obtain ⟨y, hy, hrest⟩ := h.newest S hS x hx hxin hxS
      exact ⟨y, List.mem_append_left _ hy, hrest⟩
    · obtain rfl := List.mem_singleton.mp hx
      exact ⟨x, List.mem_append_right _ List.mem_cons_self, rfl, le_rfl, hxS⟩
  · rw [hall, List.pairwise_append]
    refine ⟨h.apart.sublist hsub, List.pairwise_singleton _ _, fun o ho o' ho' => ?_⟩
    rw [List.mem_singleton.mp ho']
    exact hfile.2.2.2.2 o ho
  · rw [houtputs] at ho
    exact h.finished o ho x hx y (List.mem_cons_of_mem _ hy)
  · rw [hall] at ho
    rcases List.mem_append.mp ho with ho | ho
    · obtain ⟨hge, hlt⟩ := h.numbers o (hsub.subset ho)
      exact ⟨hge, hlt.trans_le hfile.2.2.1⟩
    · rw [List.mem_singleton.mp ho]
      exact ⟨hfile.1, hfile.2.1⟩
  · rw [hlength]
    have hle := hfile.2.2.2.1
    omega

theorem Merge.all_finish (c : Merge) : c.finish.all = c.all ∧ c.finish.outputs = c.all := by
  unfold Merge.finish Merge.all
  cases ho : c.output with
  | none => simp [ho]
  | some o => simp

/-- **An output ends**, with no entry to come that has an index key of it. -/
theorem MergeInv.finish (h : MergeInv s inputs smallest done rest c)
    (hrest : IndexApart c.kept rest) : MergeInv s inputs smallest done rest c.finish := by
  obtain ⟨hall, houtputs⟩ := c.all_finish
  have hkept : c.finish.kept = c.kept := by
    unfold Merge.kept
    rw [hall]
  have hmem : ∀ o ∈ c.outputs, o ∈ c.all := fun o ho => List.mem_append_left _ ho
  obtain ⟨hcurrent, hlast, hindex, hnext⟩ : c.finish.currentUserKey = c.currentUserKey ∧
      c.finish.lastSequenceForKey = c.lastSequenceForKey ∧ c.finish.index = c.index ∧
      c.finish.nextFile = c.nextFile := by
    unfold Merge.finish
    cases c.output <;> exact ⟨rfl, rfl, rfl, rfl⟩
  have hqueue : c.finish.queue = c.queue ++ c.output.toList.flatMap fun o => batch o.1 o.2 := by
    unfold Merge.finish
    cases ho : c.output with
    | none => simp
    | some o => simp
  refine ⟨by rw [hcurrent, hlast]; exact h.current, ?_, fun nf hnf => ?_, fun n hn => ?_,
    hkept ▸ h.sublist, hkept ▸ h.input, hkept ▸ h.newest, hall ▸ h.apart,
    fun o ho x hx y hy => ?_, by rw [hall, hnext]; exact h.numbers, hnext ▸ h.nextFile_le⟩
  · rw [hindex, hqueue, houtputs, assign_append, h.target]
    unfold Merge.all
    rw [List.flatMap_append, assign_append]
  · rw [hqueue] at hnf
    rw [houtputs]
    rcases List.mem_append.mp hnf with hnf | hnf
    · obtain ⟨o, ho, he⟩ := h.queue nf hnf
      exact ⟨o, hmem o ho, he⟩
    · obtain ⟨o, ho, hb⟩ := List.mem_flatMap.mp hnf
      exact ⟨o, List.mem_append_right _ ho, (mem_batch.mp hb).1⟩
  · rw [houtputs] at hn
    rw [hindex]
    exact h.index n fun o ho => hn o (hmem o ho)
  · rw [houtputs] at ho
    exact hrest x (List.mem_flatMap.mpr ⟨o, ho, hx⟩) y hy

/-! ## The loop -/

/-- No output ends between two entries with one index key. The entries are all that the inputs hold:
one that the loop drops counts as well, although it is in no output. -/
def NoSplit (rounds : ℕ → Round) (entries : List Entry) : Prop :=
  ∀ m, (rounds m).full = true → IndexApart (entries.take (m + 1)) (entries.drop (m + 1))

theorem contains_indexGet_iff {index : ℕ → Option ℕ} {userKey : Slice}
    (hinputs : ∀ f ∈ inputs, f < noFile) : inputs.contains (indexGet index userKey) = true ↔
      ∃ f ∈ inputs, index (fastAtoi userKey) = some f := by
  rw [List.contains_iff_mem]
  unfold indexGet
  cases hf : index (fastAtoi userKey) with
  | none => exact iff_of_false (fun hin => absurd (hinputs _ hin) (lt_irrefl _)) (by simp)
  | some f => simp

theorem MergeInv.round {r : Round} (h : MergeInv s inputs smallest done (e :: rest) c)
    (hinputs : ∀ f ∈ inputs, f < noFile) (hsmallest : smallest < maxSequenceNumber)
    (hsorted : ∀ p ∈ done, p.userKey = e.userKey → e.sequence ≤ p.sequence)
    (hcut : r.full = true → IndexApart (done ++ [e]) rest) :
    MergeInv s inputs smallest (done ++ [e]) rest (c.round inputs smallest r e) := by
  have happlied := h.apply r.applied
  -- the finished outputs have no entry with the index key of `e`
  have hindex : (c.apply r.applied).index (fastAtoi e.userKey) = s.index (fastAtoi e.userKey) :=
    happlied.index _ fun o ho x hx => happlied.finished o ho x hx e List.mem_cons_self
  have hin : inputs.contains (indexGet (c.apply r.applied).index e.userKey) = true ↔
      s.InInput inputs e.userKey := by
    rw [contains_indexGet_iff hinputs, hindex]
    rfl
  unfold Merge.round
  dsimp only
  split_ifs with hkey hdrop hfull hdrop hfull
  all_goals simp only [Bool.or_eq_true, decide_eq_true_eq, Bool.not_eq_true',
    ← Bool.not_eq_true, hin, not_or, not_not] at hdrop
  · refine happlied.drop hsorted ?_
    rcases hdrop with hhidden | hnot
    · obtain ⟨p, hp, hpk, hseq⟩ := happlied.current _ hkey
      exact Or.inr ⟨p, hp, hpk, hseq ▸ hhidden⟩
    · exact Or.inl hnot
  · exact (happlied.keep hdrop.2).finish fun x hx => hcut hfull x
      ((happlied.keep hdrop.2).sublist.subset hx)
  · exact happlied.keep hdrop.2
  · refine happlied.drop hsorted (Or.inl ?_)
    exact hdrop.resolve_left (not_le.mpr hsmallest)
  · exact (happlied.keep hdrop.2).finish fun x hx => hcut hfull x
      ((happlied.keep hdrop.2).sublist.subset hx)
  · exact happlied.keep hdrop.2

theorem MergeInv.loop {rounds : ℕ → Round} (h : MergeInv s inputs smallest done rest c)
    (hinputs : ∀ f ∈ inputs, f < noFile) (hsmallest : smallest < maxSequenceNumber)
    (hsorted : (done ++ rest).Pairwise fun a b => a.userKey = b.userKey → b.sequence ≤ a.sequence)
    (hcut : NoSplit rounds (done ++ rest)) : MergeInv s inputs smallest (done ++ rest) []
      (Merge.loop inputs smallest rounds done.length rest c) := by
  induction rest generalizing done c with
  | nil =>
    rw [List.append_nil]
    exact h
  | cons e rest ih =>
    have hassoc : done ++ e :: rest = (done ++ [e]) ++ rest := by simp
    have hlength : done.length + 1 = (done ++ [e]).length := by simp
    rw [hassoc] at hsorted hcut ⊢
    have hhead : ∀ p ∈ done, p.userKey = e.userKey → e.sequence ≤ p.sequence := fun p hp =>
      (List.pairwise_append.mp (List.pairwise_append.mp hsorted).1).2.2 p hp e List.mem_cons_self
    have hend : (rounds done.length).full = true → IndexApart (done ++ [e]) rest := by
      intro hfull
      have hapart := hcut _ hfull
      rw [hlength, List.take_left, List.drop_left] at hapart
      exact hapart
    unfold Merge.loop
    rw [hlength]
    exact ih (h.round hinputs hsmallest hhead hend) hsorted hcut

/-! ## The outputs -/

section Outputs

variable {entries : List Entry} {o o' : ℕ × List Entry}

theorem MergeInv.apart_of_ne (h : MergeInv s inputs smallest done rest c) (ho : o ∈ c.all)
    (ho' : o' ∈ c.all) (hne : o ≠ o') : o.1 ≠ o'.1 ∧ IndexApart o.2 o'.2 := by
  have hpairwise : c.all.Pairwise fun o o' => o.1 ≠ o'.1 ∧ IndexApart o.2 o'.2 :=
    h.apart.imp fun hlt => ⟨hlt.1.ne, hlt.2⟩
  have hsymm : Std.Symm fun o o' : ℕ × List Entry => o.1 ≠ o'.1 ∧ IndexApart o.2 o'.2 :=
    ⟨fun a b hab => ⟨hab.1.symm, fun x hx y hy => (hab.2 y hy x hx).symm⟩⟩
  exact hpairwise.forall ho ho' hne

theorem MergeInv.mem_kept_iff (ho : o ∈ c.all) (h : MergeInv s inputs smallest done rest c)
    {n : ℕ} (hn : ∃ x ∈ o.2, fastAtoi x.userKey = n) (hx : fastAtoi e.userKey = n) :
    e ∈ c.kept ↔ e ∈ o.2 := by
  refine ⟨fun he => ?_, fun he => List.mem_flatMap.mpr ⟨o, ho, he⟩⟩
  obtain ⟨o', ho', he'⟩ := List.mem_flatMap.mp he
  obtain ⟨x, hxo, hxn⟩ := hn
  by_cases hne : o = o'
  · exact hne ▸ he'
  · exact absurd (hxn.trans hx.symm) ((h.apart_of_ne ho ho' hne).2 x hxo e he')

theorem MergeInv.index_moved (h : MergeInv s inputs smallest done [] c) (hall : c.outputs = c.all)
    (hnext : c.nextFile ≤ noFile) (ho : o ∈ c.outputs) {n : ℕ}
    (hn : ∃ x ∈ o.2, fastAtoi x.userKey = n) : assign c.index c.queue n = some o.1 := by
  have hmod : o.1 % 2 ^ 32 = o.1 := by
    have hlt := (h.numbers o (hall ▸ ho)).2
    exact Nat.mod_eq_of_lt (by unfold noFile at hnext; omega)
  have hmem : ∃ nf ∈ c.outputs.flatMap fun o => batch o.1 o.2, nf.1 = n :=
    ⟨(n, o.1), List.mem_flatMap.mpr ⟨o, ho, mem_batch.mpr ⟨hn, hmod.symm⟩⟩, rfl⟩
  obtain ⟨f, hf, heq⟩ := assign_of_mem hmem s.index
  obtain ⟨o', ho', hb⟩ := List.mem_flatMap.mp hf
  obtain ⟨⟨y, hy, hyn⟩, rfl⟩ := mem_batch.mp hb
  -- only one output has the index key
  have hsame : o = o' := by
    by_contra hne
    obtain ⟨x, hx, hxn⟩ := hn
    exact (h.apart_of_ne (hall ▸ ho) (hall ▸ ho') hne).2 x hx y hy (hxn.trans hyn.symm)
  rw [h.target, heq, ← hsame, hmod]

theorem MergeInv.index_other (h : MergeInv s inputs smallest done rest c) {n : ℕ}
    (hn : ∀ x ∈ c.kept, fastAtoi x.userKey ≠ n) : assign c.index c.queue n = s.index n := by
  rw [h.target]
  refine assign_of_forall_ne (fun nf hnf => ?_) _
  rintro rfl
  obtain ⟨o, ho, hb⟩ := List.mem_flatMap.mp hnf
  obtain ⟨⟨y, hy, hyn⟩, -⟩ := mem_batch.mp hb
  exact hn y (List.mem_flatMap.mpr ⟨o, List.mem_append_left _ ho, hy⟩) hyn

theorem MergeInv.exists_output (h : MergeInv s inputs smallest done [] c)
    (hall : c.outputs = c.all) (he : e ∈ done) (hin : s.InInput inputs e.userKey) :
    ∃ o ∈ c.outputs, ∃ x ∈ o.2, fastAtoi x.userKey = fastAtoi e.userKey := by
  obtain ⟨y, hy, hyk, -⟩ := h.newest (max smallest e.sequence) (le_max_left _ _) e he hin
    (le_max_right _ _)
  obtain ⟨o, ho, hyo⟩ := List.mem_flatMap.mp hy
  exact ⟨o, hall ▸ ho, y, hyo, by rw [hyk]⟩

/-- **Readers see in the output what they would see in all inputs**, from the smallest snapshot
on. -/
theorem MergeInv.shows_output_iff (h : MergeInv s inputs smallest done [] c)
    (hall : c.outputs = c.all) (hinj : ∀ x ∈ done, ∀ y ∈ done, x.sequence = y.sequence → x = y)
    {userKey : Slice} (hin : s.InInput inputs userKey) (ho : o ∈ c.outputs)
    (hn : ∃ x ∈ o.2, fastAtoi x.userKey = fastAtoi userKey) {S : ℕ} (hS : smallest ≤ S) :
    Shows o.2 userKey S e ↔ Shows done userKey S e := by
  have hmem : ∀ x, x.userKey = userKey → (x ∈ c.kept ↔ x ∈ o.2) := fun x hx =>
    MergeInv.mem_kept_iff (hall ▸ ho) h hn (by rw [hx])
  constructor
  · rintro ⟨he, hkey, hle, hnewest⟩
    refine ⟨h.sublist.subset ((hmem e hkey).mpr he), hkey, hle, fun b hb hbk hbS => ?_⟩
    obtain ⟨y, hy, hyk, hby, hyS⟩ := h.newest S hS b hb (hbk ▸ hin) hbS
    exact hby.trans (hnewest y ((hmem y (hyk.trans hbk)).mp hy) (hyk.trans hbk) hyS)
  · rintro ⟨he, hkey, hle, hnewest⟩
    obtain ⟨y, hy, hyk, hey, hyS⟩ := h.newest S hS e he (hkey ▸ hin) hle
    have hydone := h.sublist.subset hy
    obtain rfl : e = y := hinj e he y hydone (hey.antisymm (hnewest y hydone (hyk.trans hkey) hyS))
    refine ⟨(hmem e hkey).mp hy, hkey, hle, fun b hb hbk hbS => ?_⟩
    exact hnewest b (h.sublist.subset ((hmem b hbk).mpr hb)) hbk hbS

end Outputs

end McfKv.DBImpl
