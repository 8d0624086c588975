import Mathlib.Data.Prod.Lex
import McfKv.Db.DbFormat
import McfKv.Lib.Cursor

/-!
# Short keys between keys (`util/comparator.cc`, `db/dbformat.cc`)

The index of a table has a key for each data block that is not less than the keys of the block
and less than those of the next block. `FindShortestSeparator` makes that key short. For
internal keys it shortens the user key, and the result is then between two *different* user
keys: `internalSeparator_spec`. A version of a user key is never separated from the next one in
this way.
-/

namespace McfKv

open Coding

/-! ## The order of internal keys as a linear order -/

/-- The place of an internal key in the order of `InternalKeyComparator`. -/
def keyRank (key : Slice) : Slice ×ₗ ℕᵒᵈ :=
  toLex (extractUserKey key, OrderDual.toDual (extractNumber key))

theorem keyRank_lt_iff (a b : Slice) : keyRank a < keyRank b ↔ extractUserKey a < extractUserKey b ∨
    (extractUserKey a = extractUserKey b ∧ extractNumber b < extractNumber a) := by
  unfold keyRank
  rw [Prod.Lex.toLex_lt_toLex]
  rfl

theorem internalKeyCompare_eq_lt_iff_rank (a b : Slice) :
    internalKeyCompare a b = .lt ↔ keyRank a < keyRank b :=
  (internalKeyCompare_eq_lt_iff a b).trans (keyRank_lt_iff a b).symm

theorem internalKeyCompare_eq_gt_iff_rank (a b : Slice) :
    internalKeyCompare a b = .gt ↔ keyRank b < keyRank a := by
  rw [internalKeyCompare_eq_gt_iff, keyRank_lt_iff, @eq_comm _ (extractUserKey a)]

/-- `InternalKeyComparator` is a total preorder. -/
instance : Std.TransCmp internalKeyCompare :=
  Cursor.transCmp_of_rank keyRank internalKeyCompare_eq_lt_iff_rank internalKeyCompare_eq_gt_iff_rank

/-- The bytewise comparator is a total order. -/
instance : Std.TransCmp compareSlices :=
  Cursor.transCmp_of_rank id compareSlices_eq_lt_iff compareSlices_eq_gt_iff

variable {a b start limit : Slice}

theorem keyRank_lt_of_userKey_lt (h : extractUserKey a < extractUserKey b) :
    keyRank a < keyRank b :=
  (keyRank_lt_iff a b).mpr (.inl h)

theorem userKey_le_of_keyRank_le (h : keyRank a ≤ keyRank b) :
    extractUserKey a ≤ extractUserKey b := by
  by_contra hlt
  exact absurd (keyRank_lt_of_userKey_lt (not_le.mp hlt)) (not_lt.mpr h)

/-! ## User keys -/

/-- `BytewiseComparatorImpl::FindShortestSeparator`: behind the common part, count the first
byte up if there is room. -/
def findShortestSeparator : Slice → Slice → Slice
  | a :: as, b :: bs =>
    if a = b then a :: findShortestSeparator as bs
    else if a < 0xff ∧ a.toNat + 1 < b.toNat then [a + 1]
    else a :: as
  | as, _ => as

/-- `BytewiseComparatorImpl::FindShortSuccessor`: count the first byte up that can be. -/
def findShortSuccessor : Slice → Slice
  | [] => []
  | a :: as => if a ≠ 0xff then [a + 1] else a :: findShortSuccessor as

theorem toNat_succ {a : UInt8} (h : a < 0xff) : (a + 1).toNat = a.toNat + 1 := by
  have hlt : a.toNat < 255 := UInt8.lt_iff_toNat_lt.mp h
  rw [UInt8.toNat_add]
  exact Nat.mod_eq_of_lt (show a.toNat + 1 < 2 ^ 8 by omega)

theorem lt_succ {a : UInt8} (h : a < 0xff) : a < a + 1 :=
  UInt8.lt_iff_toNat_lt.mpr (by rw [toNat_succ h]; exact Nat.lt_succ_self _)

/-- A separator is the start itself, or strictly between the two. -/
theorem findShortestSeparator_spec (h : start < limit) : findShortestSeparator start limit = start ∨
    (start < findShortestSeparator start limit ∧ findShortestSeparator start limit < limit) := by
  induction start generalizing limit with
  | nil => exact .inl (by cases limit <;> rfl)
  | cons a as ih =>
    cases limit with
    | nil => exact .inl rfl
    | cons b bs =>
      unfold findShortestSeparator
      rcases List.cons_lt_cons_iff.mp h with hlt | ⟨rfl, hlt⟩
      · rw [if_neg hlt.ne]
        split_ifs with hroom
        · refine .inr ⟨List.cons_lt_cons_iff.mpr (.inl (lt_succ hroom.1)),
            List.cons_lt_cons_iff.mpr (.inl ?_)⟩
          rw [UInt8.lt_iff_toNat_lt, toNat_succ hroom.1]
          exact hroom.2
        · exact .inl rfl
      · rw [if_pos rfl]
        rcases ih hlt with heq | ⟨h1, h2⟩
        · exact .inl (by rw [heq])
        · exact .inr ⟨List.cons_lt_cons_iff.mpr (.inr ⟨rfl, h1⟩),
            List.cons_lt_cons_iff.mpr (.inr ⟨rfl, h2⟩)⟩

theorem findShortestSeparator_self (s : Slice) : findShortestSeparator s s = s := by
  induction s with
  | nil => rfl
  | cons a as ih => rw [findShortestSeparator, if_pos rfl, ih]

/-! ## Internal keys -/

/-- A shortened user key with the earliest possible number. -/
def earliestKey (userKey : Slice) : Slice := appendInternalKey userKey maxSequenceNumber .value

/-- `InternalKeyComparator::FindShortestSeparator`. -/
def internalSeparator (start limit : Slice) : Slice :=
  let userStart := extractUserKey start
  let tmp := findShortestSeparator userStart (extractUserKey limit)
  if tmp.length < userStart.length ∧ compareSlices userStart tmp = .lt then earliestKey tmp
  else start

/-- `InternalKeyComparator::FindShortSuccessor`. -/
def internalSuccessor (key : Slice) : Slice :=
  let userKey := extractUserKey key
  let tmp := findShortSuccessor userKey
  if tmp.length < userKey.length ∧ compareSlices userKey tmp = .lt then earliestKey tmp
  else key

/-- **A separator of internal keys** is the start itself, or has a user key strictly between
those of the two keys. -/
theorem internalSeparator_spec (h : extractUserKey start ≤ extractUserKey limit) :
    internalSeparator start limit = start ∨
      (extractUserKey start < extractUserKey (internalSeparator start limit) ∧
        extractUserKey (internalSeparator start limit) < extractUserKey limit) := by
  unfold internalSeparator
  dsimp only
  split_ifs with hshort
  · refine .inr ?_
    rw [earliestKey, extractUserKey_append]
    refine ⟨(compareSlices_eq_lt_iff _ _).mp hshort.2, ?_⟩
    rcases h.lt_or_eq with hlt | heq
    · rcases findShortestSeparator_spec hlt with hsame | ⟨-, hlimit⟩
      · rw [hsame] at hshort
        exact absurd hshort.1 (lt_irrefl _)
      · exact hlimit
    · rw [heq, findShortestSeparator_self] at hshort
      exact absurd hshort.1 (lt_irrefl _)
  · exact .inl rfl

theorem internalSuccessor_spec (key : Slice) : internalSuccessor key = key ∨
    extractUserKey key < extractUserKey (internalSuccessor key) := by
  unfold internalSuccessor
  dsimp only
  split_ifs with hshort
  · refine .inr ?_
    rw [earliestKey, extractUserKey_append]
    exact (compareSlices_eq_lt_iff _ _).mp hshort.2
  · exact .inl rfl

theorem keyRank_internalSeparator (h : keyRank start < keyRank limit) :
    keyRank start ≤ keyRank (internalSeparator start limit) ∧
      keyRank (internalSeparator start limit) < keyRank limit := by
  rcases internalSeparator_spec (userKey_le_of_keyRank_le h.le) with hsame | ⟨hstart, hlimit⟩
  · rw [hsame]
    exact ⟨le_rfl, h⟩
  · exact ⟨(keyRank_lt_of_userKey_lt hstart).le, keyRank_lt_of_userKey_lt hlimit⟩

theorem keyRank_internalSuccessor (key : Slice) :
    keyRank key ≤ keyRank (internalSuccessor key) := by
  rcases internalSuccessor_spec key with hsame | hlt
  · rw [hsame]
  · exact (keyRank_lt_of_userKey_lt hlt).le

theorem length_earliestKey (userKey : Slice) : 8 ≤ (earliestKey userKey).length := by
  rw [earliestKey, appendInternalKey, List.length_append, length_encodeFixed64]
  omega

theorem length_internalSeparator (h : 8 ≤ start.length) :
    8 ≤ (internalSeparator start limit).length := by
  unfold internalSeparator
  dsimp only
  split_ifs
  · exact length_earliestKey _
  · exact h

theorem length_internalSuccessor {key : Slice} (h : 8 ≤ key.length) :
    8 ≤ (internalSuccessor key).length := by
  unfold internalSuccessor
  dsimp only
  split_ifs
  · exact length_earliestKey _
  · exact h

theorem internalKeyCompare_ne_gt_iff_rank (a b : Slice) :
    internalKeyCompare a b ≠ .gt ↔ keyRank a ≤ keyRank b := by
  rw [Ne, internalKeyCompare_eq_gt_iff_rank, not_lt]

/-- **Separator keys separate**, and the order that they refer to is a strict total order of internal
keys: of all strings that have room for a tag, whatever the user key and the tag are. -/
theorem separators_separate :
    (∀ a b : Slice, 8 ≤ a.length → 8 ≤ b.length → internalKeyCompare a b = .lt →
      internalKeyCompare a (internalSeparator a b) ≠ .gt ∧
        internalKeyCompare (internalSeparator a b) b = .lt ∧
        8 ≤ (internalSeparator a b).length) ∧
    (∀ a : Slice, 8 ≤ a.length →
      internalKeyCompare a (internalSuccessor a) ≠ .gt ∧ 8 ≤ (internalSuccessor a).length) ∧
    (∀ a b : Slice, internalKeyCompare b a = (internalKeyCompare a b).swap) ∧
    (∀ a b c : Slice, internalKeyCompare a b = .lt → internalKeyCompare b c = .lt →
      internalKeyCompare a c = .lt) ∧
    ∀ a b : Slice, 8 ≤ a.length → 8 ≤ b.length → (internalKeyCompare a b = .eq ↔ a = b) := by
  refine ⟨fun a b ha _ hlt => ?_, fun a ha => ⟨?_, length_internalSuccessor ha⟩,
    fun a b => Std.OrientedCmp.eq_swap, fun a b c => Std.TransCmp.lt_trans,
    fun a b => internalKeyCompare_eq_iff⟩
  · obtain ⟨hstart, hlimit⟩ :=
      keyRank_internalSeparator ((internalKeyCompare_eq_lt_iff_rank a b).mp hlt)
    exact ⟨(internalKeyCompare_ne_gt_iff_rank _ _).mpr hstart,
      (internalKeyCompare_eq_lt_iff_rank _ _).mpr hlimit, length_internalSeparator ha⟩
  · exact (internalKeyCompare_ne_gt_iff_rank _ _).mpr (keyRank_internalSuccessor a)

/-- The user keys `abc` and `az`, between which is `ac`. -/
theorem separators_separate_shorter :
    let a : Slice := [97, 98, 99] ++ List.replicate 8 1
    let b : Slice := [97, 122] ++ List.replicate 8 1
    extractUserKey (internalSeparator a b) = [97, 99] ∧
      internalKeyCompare a (internalSeparator a b) ≠ .gt ∧
      internalKeyCompare (internalSeparator a b) b = .lt := by
  intro a b
  obtain ⟨hbelow, habove, -⟩ := separators_separate.1 a b (by decide) (by decide) (by decide)
  exact ⟨by decide, hbelow, habove⟩

end McfKv
