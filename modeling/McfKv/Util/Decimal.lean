import Mathlib.Data.Nat.Digits.Lemmas
import McfKv.Util.Coding

/-!
# Decimal texts

Numbers are written with `snprintf`, with leading zeros up to a width, in the names of files and in
the keys of the benchmark. `decimalValue` is the number that a text of digits stands for, and
`formatted` is the text that `%0<width>lu` makes of a number.

* `decimalValue_formatted`, `length_formatted` — the text stands for the number, and has exactly the
  width if the number has no more digits;
* `fastAtoi_of_digits` — `fast_atoi` computes the value modulo `2 ^ 64`.
-/

namespace McfKv.Coding

/-- `c >= '0' && c <= '9'`. -/
def isDigit (c : UInt8) : Bool := 48 ≤ c.toNat ∧ c.toNat ≤ 57

/-- The number that a text of decimal digits stands for. -/
def decimalValue (digits : Slice) : ℕ := Nat.ofDigits 10 (digits.reverse.map fun c => c.toNat - 48)

/-- A number in the format `%0<width>lu`. -/
def formatted (width n : ℕ) : Slice :=
  List.replicate (width - (decimalText n).length) 48 ++ decimalText n

theorem isDigit_iff {c : UInt8} : isDigit c = true ↔ 48 ≤ c.toNat ∧ c.toNat ≤ 57 := by
  simp [isDigit]

theorem isDigit_ofNat {d : ℕ} (hd : d < 10) : isDigit (UInt8.ofNat (48 + d)) = true := by
  rw [isDigit_iff, toNat_ofNat_of_lt (by omega)]
  omega

/-! ## The value of a text -/

@[simp] theorem decimalValue_nil : decimalValue [] = 0 := rfl

theorem decimalValue_append_digit (digits : Slice) (c : UInt8) :
    decimalValue (digits ++ [c]) = decimalValue digits * 10 + (c.toNat - 48) := by
  unfold decimalValue
  rw [List.reverse_append, List.reverse_singleton, List.singleton_append, List.map_cons,
    Nat.ofDigits_cons]
  ring

theorem decimalValue_cons (c : UInt8) (digits : Slice) :
    decimalValue (c :: digits) = (c.toNat - 48) * 10 ^ digits.length + decimalValue digits := by
  unfold decimalValue
  rw [List.reverse_cons, List.map_append, Nat.ofDigits_append, List.length_map,
    List.length_reverse, List.map_singleton, Nat.ofDigits_singleton]
  ring

theorem decimalValue_lt {digits : Slice} (h : ∀ c ∈ digits, isDigit c = true) :
    decimalValue digits < 10 ^ digits.length := by
  have hlt : ∀ d ∈ digits.reverse.map (fun c => c.toNat - 48), d < 10 := by
    intro d hd
    obtain ⟨c, hc, rfl⟩ := List.mem_map.mp hd
    have := isDigit_iff.mp (h c (List.mem_reverse.mp hc))
    omega
  have hbound := Nat.ofDigits_lt_base_pow_length (by norm_num) hlt
  rwa [List.length_map, List.length_reverse] at hbound

theorem decimalValue_le_append (digits more : Slice) :
    decimalValue digits ≤ decimalValue (digits ++ more) := by
  induction more using List.reverseRecOn with
  | nil => rw [List.append_nil]
  | append_singleton more c ih =>
    rw [← List.append_assoc, decimalValue_append_digit]
    omega

theorem decimalValue_zeros (k : ℕ) (digits : Slice) :
    decimalValue (List.replicate k 48 ++ digits) = decimalValue digits := by
  induction k with
  | zero => rfl
  | succ k ih =>
    rw [List.replicate_succ, List.cons_append, decimalValue_cons, ih]
    simp

/-! ## The text of a number -/

theorem decimalText_of_lt {n : ℕ} (h : n < 10) : decimalText n = [UInt8.ofNat (48 + n)] := by
  rw [decimalText, if_pos h]

theorem decimalText_of_le {n : ℕ} (h : 10 ≤ n) :
    decimalText n = decimalText (n / 10) ++ [UInt8.ofNat (48 + n % 10)] := by
  rw [decimalText, if_neg (Nat.not_lt.mpr h)]

theorem isDigit_of_mem_decimalText (n : ℕ) : ∀ c ∈ decimalText n, isDigit c = true := by
  induction n using Nat.strongRecOn with
  | ind n ih =>
    intro c hc
    rcases Nat.lt_or_ge n 10 with hlt | hge
    · rw [decimalText_of_lt hlt, List.mem_singleton] at hc
      exact hc ▸ isDigit_ofNat hlt
    · rw [decimalText_of_le hge, List.mem_append, List.mem_singleton] at hc
      rcases hc with hc | rfl
      · exact ih (n / 10) (by omega) c hc
      · exact isDigit_ofNat (Nat.mod_lt n (by norm_num))

theorem decimalValue_decimalText (n : ℕ) : decimalValue (decimalText n) = n := by
  induction n using Nat.strongRecOn with
  | ind n ih =>
    rcases Nat.lt_or_ge n 10 with hlt | hge
    · rw [decimalText_of_lt hlt, ← List.nil_append [_], decimalValue_append_digit,
        toNat_ofNat_of_lt (by omega)]
      simp
    · rw [decimalText_of_le hge, decimalValue_append_digit, ih (n / 10) (by omega),
        toNat_ofNat_of_lt (by omega)]
      omega

theorem length_decimalText_le {k : ℕ} (hk : 0 < k) {n : ℕ} (hn : n < 10 ^ k) :
    (decimalText n).length ≤ k := by
  induction k, hk using Nat.le_induction generalizing n with
  | base => rw [decimalText_of_lt (by simpa using hn)]; rfl
  | succ k _ ih =>
    rcases Nat.lt_or_ge n 10 with hlt | hge
    · rw [decimalText_of_lt hlt]
      simp
    · rw [decimalText_of_le hge, List.length_append]
      have := ih (n := n / 10) (by rw [Nat.pow_succ] at hn; omega)
      simp only [List.length_singleton]
      omega

theorem decimalText_ne_nil (n : ℕ) : decimalText n ≠ [] := by
  rcases Nat.lt_or_ge n 10 with hlt | hge
  · rw [decimalText_of_lt hlt]
    exact List.cons_ne_nil _ _
  · rw [decimalText_of_le hge]
    exact List.append_ne_nil_of_right_ne_nil _ (List.cons_ne_nil _ _)

/-! ## The text of a number in a given width -/

theorem isDigit_of_mem_formatted (width n : ℕ) : ∀ c ∈ formatted width n, isDigit c = true := by
  intro c hc
  rcases List.mem_append.mp hc with hc | hc
  · rw [List.eq_of_mem_replicate hc]
    rfl
  · exact isDigit_of_mem_decimalText n c hc

theorem decimalValue_formatted (width n : ℕ) : decimalValue (formatted width n) = n := by
  unfold formatted
  rw [decimalValue_zeros, decimalValue_decimalText]

theorem length_formatted {width n : ℕ} (hwidth : 0 < width) (hn : n < 10 ^ width) :
    (formatted width n).length = width := by
  unfold formatted
  rw [List.length_append, List.length_replicate]
  have := length_decimalText_le hwidth hn
  omega

theorem formatted_ne_nil (width n : ℕ) : formatted width n ≠ [] :=
  List.append_ne_nil_of_right_ne_nil _ (decimalText_ne_nil n)

/-! ## `fast_atoi` -/

theorem fastAtoiLoop_of_digits (done : Slice) {digits : Slice}
    (h : ∀ c ∈ digits, isDigit c = true) :
    fastAtoiLoop (decimalValue done % 2 ^ 64) digits = decimalValue (done ++ digits) % 2 ^ 64 := by
  induction digits generalizing done with
  | nil => rw [List.append_nil, fastAtoiLoop]
  | cons c digits ih =>
    have hstep : (decimalValue done % 2 ^ 64 * 10 + (c.toNat - 48)) % 2 ^ 64 =
        decimalValue (done ++ [c]) % 2 ^ 64 := by
      rw [decimalValue_append_digit]
      omega
    rw [fastAtoiLoop, if_pos (isDigit_iff.mp (h c List.mem_cons_self)), hstep,
      ih (done ++ [c]) fun d hd => h d (List.mem_cons_of_mem _ hd), List.append_assoc,
      List.singleton_append]

/-- **`fast_atoi`** computes the value of a text of digits, modulo `2 ^ 64`. -/
theorem fastAtoi_of_digits {digits : Slice} (h : ∀ c ∈ digits, isDigit c = true) :
    fastAtoi digits = decimalValue digits % 2 ^ 64 :=
  fastAtoiLoop_of_digits [] h

end McfKv.Coding
