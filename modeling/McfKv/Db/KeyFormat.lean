import McfKv.Db.DbFormat
import McfKv.Util.Decimal

/-!
# Formatted keys (`config::key_format` in `db/dbformat.h`)

The keys of the benchmark are numbers with twenty decimal digits. The tables order them as byte
strings and the index orders them as numbers, after `fast_atoi`. Every 64-bit number has at most
twenty digits, so a key is exactly that long, and texts of digits of one length are ordered as
their values (`compareSlices_of_digits`).
-/

namespace McfKv

open Coding

/-- `config::key_format`, which is `"%020lu"`, applied to a number. -/
def keyFormat (n : ℕ) : Slice := formatted 20 n

/-- The first digit weighs more than all others together. -/
theorem leading_lt {d d' v v' weight : ℕ} (hd : d < d') (hv : v < weight) :
    d * weight + v < d' * weight + v' := by
  calc d * weight + v < (d + 1) * weight := by rw [Nat.succ_mul]; omega
    _ ≤ d' * weight := Nat.mul_le_mul_right _ hd
    _ ≤ d' * weight + v' := Nat.le_add_right _ _

/-- **Texts of digits of one length are ordered as numbers.** -/
theorem compareSlices_of_digits {a b : Slice} (ha : ∀ c ∈ a, isDigit c = true)
    (hb : ∀ c ∈ b, isDigit c = true) (hlen : a.length = b.length) :
    compareSlices a b = compare (decimalValue a) (decimalValue b) := by
  induction a generalizing b with
  | nil =>
    obtain rfl := List.length_eq_zero_iff.mp hlen.symm
    rfl
  | cons x as ih =>
    cases b with
    | nil => simp at hlen
    | cons y bs =>
      have hlen' : as.length = bs.length := Nat.succ.inj hlen
      have hx := isDigit_iff.mp (ha x List.mem_cons_self)
      have hy := isDigit_iff.mp (hb y List.mem_cons_self)
      have has : ∀ c ∈ as, isDigit c = true := fun c hc => ha c (List.mem_cons_of_mem _ hc)
      have hbs : ∀ c ∈ bs, isDigit c = true := fun c hc => hb c (List.mem_cons_of_mem _ hc)
      have hvas := decimalValue_lt has
      have hvbs := decimalValue_lt hbs
      rw [hlen'] at hvas
      rw [decimalValue_cons, decimalValue_cons, hlen']
      unfold compareSlices
      split_ifs with hlt hgt
      · exact (compare_lt_iff_lt.mpr (leading_lt (by omega) hvas)).symm
      · exact (compare_gt_iff_gt.mpr (leading_lt (by omega) hvbs)).symm
      · rw [show x.toNat = y.toNat by omega, ih has hbs hlen', Nat.compare_eq_ite_lt,
          Nat.compare_eq_ite_lt]
        simp only [Nat.add_lt_add_iff_left]

theorem isDigit_of_mem_keyFormat (n : ℕ) : ∀ c ∈ keyFormat n, isDigit c = true :=
  isDigit_of_mem_formatted 20 n

theorem decimalValue_keyFormat (n : ℕ) : decimalValue (keyFormat n) = n :=
  decimalValue_formatted 20 n

theorem length_keyFormat {n : ℕ} (hn : n < 2 ^ 64) : (keyFormat n).length = 20 :=
  length_formatted (by norm_num) (hn.trans (by norm_num))

theorem fastAtoi_keyFormat {n : ℕ} (hn : n < 2 ^ 64) : fastAtoi (keyFormat n) = n := by
  rw [fastAtoi_of_digits (isDigit_of_mem_keyFormat n), decimalValue_keyFormat, Nat.mod_eq_of_lt hn]

theorem compareSlices_keyFormat {n m : ℕ} (hn : n < 2 ^ 64) (hm : m < 2 ^ 64) :
    compareSlices (keyFormat n) (keyFormat m) = compare n m := by
  rw [compareSlices_of_digits (isDigit_of_mem_keyFormat n) (isDigit_of_mem_keyFormat m)
    ((length_keyFormat hn).trans (length_keyFormat hm).symm), decimalValue_keyFormat,
    decimalValue_keyFormat]

/-- No digit makes `fast_atoi` wrap around. -/
theorem fastAtoi_start {n : ℕ} (hn : n < 2 ^ 64) {start : Slice} (hstart : start <+: keyFormat n) :
    fastAtoi start = decimalValue start := by
  have hdigits : ∀ c ∈ start, isDigit c = true := fun c hc =>
    isDigit_of_mem_keyFormat n c (hstart.subset hc)
  obtain ⟨more, hmore⟩ := hstart
  have hle : decimalValue start ≤ n := by
    calc decimalValue start ≤ decimalValue (start ++ more) := decimalValue_le_append _ _
      _ = n := by rw [hmore, decimalValue_keyFormat]
  rw [fastAtoi_of_digits hdigits, Nat.mod_eq_of_lt (hle.trans_lt hn)]

/-- **Formatted keys and index keys correspond.** A key has twenty bytes, `fast_atoi` reads its
number back without a wrap-around at any digit, and the order of the keys is that of the numbers, and
so of the index keys. -/
theorem keyFormat_corresponds {n m : ℕ} (hn : n < 2 ^ 64) (hm : m < 2 ^ 64) :
    (keyFormat n).length = 20 ∧ fastAtoi (keyFormat n) = n ∧
      (∀ start, start <+: keyFormat n → fastAtoi start = decimalValue start) ∧
      compareSlices (keyFormat n) (keyFormat m) = compare n m ∧
      compareSlices (keyFormat n) (keyFormat m) =
        compare (fastAtoi (keyFormat n)) (fastAtoi (keyFormat m)) := by
  refine ⟨length_keyFormat hn, fastAtoi_keyFormat hn, fun _ => fastAtoi_start hn,
    compareSlices_keyFormat hn hm, ?_⟩
  rw [fastAtoi_keyFormat hn, fastAtoi_keyFormat hm, compareSlices_keyFormat hn hm]

/-- The largest key and the one before it. -/
theorem keyFormat_corresponds_max :
    compareSlices (keyFormat (2 ^ 64 - 2)) (keyFormat (2 ^ 64 - 1)) = .lt :=
  (keyFormat_corresponds (n := 2 ^ 64 - 2) (m := 2 ^ 64 - 1) (by norm_num)
    (by norm_num)).2.2.2.1.trans (by decide)

end McfKv
