import McfKv.Db.DbFormat
import McfKv.Lib.Versions

/-!
# Memtables and tables (`db/memtable.cc`, `db/builder.cc`, `table/table.cc`)

A memtable and a table file are lists of entries in the order of `InternalKeyComparator`.
Both are searched in the same way: go to the first entry that is not before the lookup key,
and look whether it has the user key. Blocks, their index and their filter only make this
search fast and are left out.

The order, the search and `BuildTable` compare bytes, as the source does. The results of
this module say what that means for versions of user keys:

* `memTableGet_eq`, `tableGet_eq` — a lookup returns the newest version of the key that is
  not newer than the sequence number of the lookup;
* `buildTable_eq` — `BuildTable` writes the newest version of each key, although it compares
  *user* keys with the comparator for internal keys.
-/

namespace McfKv

/-- An entry: the parts of its internal key, and its value. -/
structure Entry where
  userKey : Slice
  sequence : ℕ
  type : ValueType
  value : Slice
deriving DecidableEq, Repr

namespace Entry

/-- The internal key of an entry. -/
def internalKey (e : Entry) : Slice := appendInternalKey e.userKey e.sequence e.type

/-- The key and the value of an entry in a table. -/
def record (e : Entry) : Slice × Slice := (e.internalKey, e.value)

theorem length_internalKey (e : Entry) : e.internalKey.length = e.userKey.length + 8 := by
  simp [internalKey, appendInternalKey]

/-- The order of entries. -/
def Le (a b : Entry) : Prop := internalKeyCompare a.internalKey b.internalKey ≠ .gt

instance : DecidableRel Le := fun a b =>
  inferInstanceAs (Decidable (internalKeyCompare a.internalKey b.internalKey ≠ .gt))

/-- What `Get` returns for an entry: its value, or `NotFound` for a deletion. -/
def read (e : Entry) : Except Status Slice :=
  match e.type with
  | .value => .ok e.value
  | .deletion => .error (.notFound "")

end Entry

/-- `Iterator::Seek`: the first entry that is not before the target. -/
def seek (entries : List Entry) (target : Slice) : Option Entry :=
  entries.find? fun e => internalKeyCompare e.internalKey target ≠ .lt

/-- `MemTable::Add`. -/
def memTableAdd (table : List Entry) (e : Entry) : List Entry := table.orderedInsert Entry.Le e

/-- `MemTable::Get`; `none` where it returns `false`. -/
def memTableGet (table : List Entry) (userKey : Slice) (snapshot : ℕ) :
    Option (Except Status Slice) :=
  match seek table (lookupKey userKey snapshot) with
  | some e => if compareSlices e.userKey userKey = .eq then some e.read else none
  | none => none

/-- `Table::InternalGet` with `SaveValue`, and the `switch` of `Version::Get`. -/
def tableGet (table : List Entry) (userKey : Slice) (snapshot : ℕ) : Except Status Slice :=
  match seek table (lookupKey userKey snapshot) with
  | some e =>
    if compareSlices e.userKey userKey = .eq then e.read else .error (.notFound "")
  | none => .error (.notFound "")

/-- The loop of `BuildTable`: an entry is added if there is no previous key, or if the
comparator of the options, which is that for *internal* keys, tells the user keys apart. -/
def buildTable : Slice → List Entry → List Entry
  | _, [] => []
  | prevKey, e :: entries =>
    if prevKey.isEmpty ∨
        internalKeyCompare (extractUserKey prevKey) (extractUserKey e.internalKey) ≠ .eq then
      e :: buildTable e.internalKey entries
    else buildTable prevKey entries

/-! ## Order -/

namespace Entry

theorem le_iff (a b : Entry) :
    Le a b ↔ Versions.Le userKey (fun e => packSequenceAndType e.sequence e.type) a b := by
  unfold Le internalKey
  rw [Ne, internalKeyCompare_eq_gt_iff]
  simp only [extractUserKey_append, extractNumber_append, Versions.Le, not_or, not_and, not_lt]
  constructor
  · rintro ⟨hle, hnum⟩
    rcases hle.lt_or_eq with hlt | heq
    · exact Or.inl hlt
    · exact Or.inr ⟨heq, hnum heq⟩
  · rintro (hlt | ⟨heq, hnum⟩)
    · exact ⟨hlt.le, fun heq => absurd heq hlt.ne⟩
    · exact ⟨heq.le, fun _ => hnum⟩

instance : IsTrans Entry Le where
  trans a b c hab hbc := by
    rw [le_iff] at hab hbc ⊢
    exact IsTrans.trans _ _ _ hab hbc

instance : Std.Total Le where
  total a b := by
    rw [le_iff, le_iff]
    exact total_of _ a b

theorem Le.versions {a b : Entry} (h : Le a b) (ha : a.sequence ≤ maxSequenceNumber)
    (hb : b.sequence ≤ maxSequenceNumber) : Versions.Le userKey sequence a b := by
  rw [le_iff] at h
  rcases h with hlt | ⟨heq, hnum⟩
  · exact Or.inl hlt
  · refine Or.inr ⟨heq, ?_⟩
    dsimp only at hnum
    rw [packSequenceAndType_eq ha, packSequenceAndType_eq hb] at hnum
    have hcode : a.type.code ≤ 1 := by cases a.type <;> decide
    omega

end Entry

/-- A list of entries in order, with sequence numbers in range. -/
structure Sorted (entries : List Entry) : Prop where
  sorted : entries.Pairwise Entry.Le
  range : ∀ e ∈ entries, e.sequence ≤ maxSequenceNumber

variable {entries table : List Entry} {userKey : Slice} {S : ℕ}

theorem Sorted.versions (h : Sorted entries) :
    entries.Pairwise (Versions.Le Entry.userKey Entry.sequence) :=
  h.sorted.imp_of_mem fun ha hb hle => hle.versions (h.range _ ha) (h.range _ hb)

theorem eq_of_packed_eq (h : (entries.map Entry.internalKey).Nodup) {a b : Entry} (ha : a ∈ entries)
    (hb : b ∈ entries) (hkey : a.userKey = b.userKey)
    (hnumber : packSequenceAndType a.sequence a.type = packSequenceAndType b.sequence b.type) :
    a = b := by
  refine List.inj_on_of_nodup_map h ha hb ?_
  unfold Entry.internalKey appendInternalKey
  rw [hkey, hnumber]

/-! ## Lookups -/

/-- The version of a user key that a lookup finds. -/
abbrev findEntry : List Entry → Slice → ℕ → Option Entry :=
  Versions.find Entry.userKey Entry.sequence

/-- Where `Seek` stops: at a greater user key, or at a version that is not too new. -/
theorem not_before_lookupKey_iff {e : Entry} (he : e.sequence ≤ maxSequenceNumber)
    (hS : S ≤ maxSequenceNumber) : internalKeyCompare e.internalKey (lookupKey userKey S) ≠ .lt ↔
      userKey < e.userKey ∨ (e.userKey = userKey ∧ e.sequence ≤ S) := by
  unfold Entry.internalKey lookupKey
  rw [Ne, internalKeyCompare_eq_lt_iff]
  simp only [extractUserKey_append, extractNumber_append, not_or, not_and, not_lt]
  rw [packSequenceAndType_le_iff he hS]
  constructor
  · rintro ⟨hle, hseq⟩
    rcases hle.lt_or_eq with hlt | heq
    · exact Or.inl hlt
    · exact Or.inr ⟨heq.symm, hseq heq.symm⟩
  · rintro (hlt | ⟨heq, hseq⟩)
    · exact ⟨hlt.le, fun heq => absurd heq.symm hlt.ne⟩
    · exact ⟨heq.ge, fun _ => hseq⟩

theorem seek_filter (hrange : ∀ e ∈ entries, e.sequence ≤ maxSequenceNumber)
    (hS : S ≤ maxSequenceNumber) :
    ((seek entries (lookupKey userKey S)).filter fun e => compareSlices e.userKey userKey = .eq) =
      findEntry entries userKey S := by
  have hseek : ∀ p : Entry → Bool, (∀ e ∈ entries, p e = true ↔
      (userKey < e.userKey ∨ (e.userKey = userKey ∧ e.sequence ≤ S))) →
      seek entries (lookupKey userKey S) = entries.find? p := by
    intro p hp
    unfold seek
    induction entries with
    | nil => rfl
    | cons e entries ih =>
      have he : decide (internalKeyCompare e.internalKey (lookupKey userKey S) ≠ .lt) = p e := by
        rw [Bool.eq_iff_iff, decide_eq_true_iff, hp e List.mem_cons_self]
        exact not_before_lookupKey_iff (hrange e List.mem_cons_self) hS
      rw [List.find?_cons, List.find?_cons, he,
        ih (fun e' he' => hrange e' (List.mem_cons_of_mem _ he'))
          fun e' he' => hp e' (List.mem_cons_of_mem _ he')]
  unfold findEntry Versions.find
  congr 1
  · funext e
    exact decide_eq_decide.mpr (compareSlices_eq_iff _ _)
  · exact hseek _ fun e _ => by simp only [decide_eq_true_eq]

/-- **`MemTable::Get` reads the newest version that is not too new.** -/
theorem memTableGet_eq (h : Sorted table) (userKey : Slice) (hS : S ≤ maxSequenceNumber) :
    memTableGet table userKey S = (findEntry table userKey S).map Entry.read := by
  rw [← seek_filter h.range hS]
  unfold memTableGet
  cases seek table (lookupKey userKey S) with
  | none => rfl
  | some e =>
    show (if compareSlices e.userKey userKey = .eq then some e.read else none) = _
    by_cases heq : compareSlices e.userKey userKey = .eq
    · simp [heq, Option.filter]
    · simp [heq, Option.filter]

/-- **A table lookup reads the newest version that is not too new.** -/
theorem tableGet_eq (h : Sorted table) (userKey : Slice) (hS : S ≤ maxSequenceNumber) :
    tableGet table userKey S =
      ((findEntry table userKey S).map Entry.read).getD (.error (.notFound "")) := by
  rw [← memTableGet_eq h userKey hS]
  unfold tableGet memTableGet
  cases seek table (lookupKey userKey S) with
  | none => rfl
  | some e =>
    dsimp only
    split_ifs <;> rfl

/-! ## `BuildTable` -/

theorem buildTable_eq_firsts {prevKey : Slice} {prev : Option Slice}
    (hkeys : ∀ e ∈ entries, 8 ≤ e.userKey.length) (hprev : (prevKey = [] ∧ prev = none) ∨
      ∃ p : Entry, prevKey = p.internalKey ∧ prev = some p.userKey ∧ 8 ≤ p.userKey.length) :
    buildTable prevKey entries = Versions.firsts Entry.userKey prev entries := by
  induction entries generalizing prevKey prev with
  | nil => rfl
  | cons e entries ih =>
    have hkeys' : ∀ e' ∈ entries, 8 ≤ e'.userKey.length := fun e' he' =>
      hkeys e' (List.mem_cons_of_mem _ he')
    have he : 8 ≤ e.userKey.length := hkeys e List.mem_cons_self
    -- the test of the loop: has the previous key another user key?
    have htest : (prevKey.isEmpty = true ∨
        internalKeyCompare (extractUserKey prevKey) (extractUserKey e.internalKey) ≠ .eq) ↔
        prev ≠ some e.userKey := by
      rcases hprev with ⟨rfl, rfl⟩ | ⟨p, rfl, rfl, hp⟩
      · simp
      · have hne : p.internalKey.isEmpty = false := by
          simp [Entry.internalKey, appendInternalKey, Coding.encodeFixed64]
        unfold Entry.internalKey at hne ⊢
        rw [hne, extractUserKey_append, extractUserKey_append, Ne, internalKeyCompare_eq_iff hp he]
        simp
    unfold buildTable Versions.firsts
    by_cases hsame : prev = some e.userKey
    · rw [if_neg (by rw [htest]; exact fun h => h hsame), if_pos hsame]
      exact ih hkeys' hprev
    · rw [if_pos (htest.mpr hsame), if_neg hsame]
      exact congrArg (e :: ·) (ih hkeys' (Or.inr ⟨e, rfl, rfl, he⟩))

/-- **`BuildTable` writes the first version of each user key**, for user keys of at least
eight bytes. -/
theorem buildTable_eq (hkeys : ∀ e ∈ entries, 8 ≤ e.userKey.length) :
    buildTable [] entries = Versions.firsts Entry.userKey none entries :=
  buildTable_eq_firsts hkeys (Or.inl ⟨rfl, rfl⟩)

end McfKv
