import Mathlib.Data.List.Basic
import Mathlib.Data.Nat.Bitwise

/-!
# Bitmaps in bytes

A list of bytes as a set of positions: position `i` is bit `i % 8` of byte `i / 8`. `test_set` says
that `set` adds exactly one position, and `test_setAll` is the same for a list of them.
-/

namespace McfKv.Bitmap

/-- The position is in the set. -/
def test (bytes : List UInt8) (i : ℕ) : Bool :=
  (bytes.getD (i / 8) 0).toNat &&& (1 <<< (i % 8)) ≠ 0

/-- The set with one more position. -/
def set (bytes : List UInt8) (i : ℕ) : List UInt8 :=
  bytes.set (i / 8) (UInt8.ofNat ((bytes.getD (i / 8) 0).toNat ||| (1 <<< (i % 8))))

/-- The set with more positions. -/
def setAll (bytes : List UInt8) (is : List ℕ) : List UInt8 := is.foldl set bytes

variable {bytes rest : List UInt8} {i j : ℕ}

theorem length_set : (set bytes i).length = bytes.length := List.length_set

theorem length_setAll {is : List ℕ} : (setAll bytes is).length = bytes.length := by
  induction is generalizing bytes with
  | nil => rfl
  | cons i is ih =>
    show (setAll (set bytes i) is).length = _
    rw [ih, length_set]

theorem test_eq_testBit : test bytes i = (bytes.getD (i / 8) 0).toNat.testBit (i % 8) := by
  rw [test, Nat.one_shiftLeft, Nat.and_two_pow]
  cases (bytes.getD (i / 8) 0).toNat.testBit (i % 8) <;> simp

/-- **`set` adds one position.** -/
theorem test_set (hi : i < 8 * bytes.length) :
    test (set bytes i) j = (decide (j = i) || test bytes j) := by
  have hlt : i / 8 < bytes.length := by omega
  rw [test_eq_testBit, test_eq_testBit]
  by_cases hbyte : i / 8 = j / 8
  · have hget : (set bytes i).getD (j / 8) 0 =
        UInt8.ofNat ((bytes.getD (j / 8) 0).toNat ||| (1 <<< (i % 8))) := by
      rw [set, ← hbyte, List.getD_eq_getElem?_getD, List.getElem?_set_self hlt, Option.getD_some]
    have hbound : (bytes.getD (j / 8) 0).toNat ||| (1 <<< (i % 8)) < 2 ^ 8 := by
      refine Nat.or_lt_two_pow (UInt8.toNat_lt _) ?_
      rw [Nat.one_shiftLeft]
      exact Nat.pow_lt_pow_right (by decide) (Nat.mod_lt _ (by decide))
    have hbit : i % 8 = j % 8 ↔ j = i := by omega
    rw [hget, UInt8.toNat_ofNat', Nat.mod_eq_of_lt hbound, Nat.testBit_or, Nat.one_shiftLeft,
      Nat.testBit_two_pow, Bool.or_comm]
    simp only [hbit]
  · have hne : j ≠ i := fun h => hbyte (by rw [h])
    rw [set, List.getD_eq_getElem?_getD, List.getElem?_set_ne hbyte, ← List.getD_eq_getElem?_getD]
    simp [hne]

/-- **`setAll` adds the positions of a list.** -/
theorem test_setAll {is : List ℕ} (h : ∀ i ∈ is, i < 8 * bytes.length) :
    test (setAll bytes is) j = (decide (j ∈ is) || test bytes j) := by
  induction is generalizing bytes with
  | nil => simp [setAll]
  | cons i is ih =>
    have htail : ∀ k ∈ is, k < 8 * (set bytes i).length := fun k hk => by
      rw [length_set]
      exact h k (List.mem_cons_of_mem _ hk)
    show test (setAll (set bytes i) is) j = _
    rw [ih htail, test_set (h i List.mem_cons_self), ← Bool.or_assoc, ← Bool.decide_or]
    simp only [List.mem_cons, or_comm]

theorem test_append (hi : i < 8 * bytes.length) : test (bytes ++ rest) i = test bytes i := by
  have hlt : i / 8 < bytes.length := by omega
  rw [test, test, List.getD_eq_getElem?_getD, List.getElem?_append_left hlt,
    ← List.getD_eq_getElem?_getD]

end McfKv.Bitmap
