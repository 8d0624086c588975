import Mathlib.Data.Nat.Bitwise
import Mathlib.Tactic.Linarith
import Mathlib.Tactic.Ring

/-!
# Byte coding (`util/coding.h`, `util/coding.cc`)

Fixed-width integers, varints, length-prefixed slices and `fast_atoi`. A slice
is a list of bytes, a machine integer is a natural number with an explicit
reduction modulo its width, and a reader takes the unread input and returns the
value together with what is left of it (`none` where the C++ reader returns
`false` or a null pointer). `Status` is `leveldb/status.h`.

The two varint readers differ only in the width of their accumulator and in how
many bytes they look at, so they are one loop, `getVarintLoop`, at two widths.
`getVarintLoop_encodeVarintLoop` is the round trip through it; the readers of
the manifest format (`McfKv.Db.VersionEdit`) rest on its two instances
`getVarint32_encodeVarint32` and `getVarint64_encodeVarint64`.
-/

namespace McfKv

/-- A `Slice` or `std::string`: its bytes. -/
abbrev Slice := List UInt8

/-- `class Status`: the code, with its message where the source gives one. -/
inductive Status where
  | ok
  | notFound (msg : String)
  | corruption (msg msg2 : String)
  | notSupported (msg : String)
  | invalidArgument (msg msg2 : Slice)
  | ioError (msg : String)
  | alreadyExist (msg : String)
deriving DecidableEq, Repr

/-- `Status::ok`. -/
def Status.isOk : Status → Bool
  | .ok => true
  | _ => false

namespace Coding

/-! ## Fixed-width integers -/

/-- `EncodeFixed64` on a little-endian machine. -/
def encodeFixed64 (value : ℕ) : Slice :=
  (List.range 8).map fun i => UInt8.ofNat (value >>> (8 * i))

/-- `DecodeFixed64`: the little-endian value of the first eight bytes. -/
def decodeFixed64 (bytes : Slice) : ℕ :=
  (bytes.take 8).foldr (fun b acc => b.toNat + 256 * acc) 0

/-- `EncodeFixed32` on a little-endian machine. -/
def encodeFixed32 (value : ℕ) : Slice :=
  (List.range 4).map fun i => UInt8.ofNat (value >>> (8 * i))

/-- `DecodeFixed32`: the little-endian value of the first four bytes. -/
def decodeFixed32 (bytes : Slice) : ℕ :=
  (bytes.take 4).foldr (fun b acc => b.toNat + 256 * acc) 0

/-! ## Varint writers -/

/-- `EncodeVarint32`, branch for branch. -/
def encodeVarint32 (v : ℕ) : Slice :=
  if v < 2 ^ 7 then
    [UInt8.ofNat v]
  else if v < 2 ^ 14 then
    [UInt8.ofNat (v ||| 128), UInt8.ofNat (v >>> 7)]
  else if v < 2 ^ 21 then
    [UInt8.ofNat (v ||| 128), UInt8.ofNat ((v >>> 7) ||| 128), UInt8.ofNat (v >>> 14)]
  else if v < 2 ^ 28 then
    [UInt8.ofNat (v ||| 128), UInt8.ofNat ((v >>> 7) ||| 128),
      UInt8.ofNat ((v >>> 14) ||| 128), UInt8.ofNat (v >>> 21)]
  else
    [UInt8.ofNat (v ||| 128), UInt8.ofNat ((v >>> 7) ||| 128),
      UInt8.ofNat ((v >>> 14) ||| 128), UInt8.ofNat ((v >>> 21) ||| 128),
      UInt8.ofNat (v >>> 28)]

/-- The loop of `EncodeVarint64` with room for `n` continuation bytes. The
buffer of `PutVarint64` holds ten bytes, and ten are enough for 64 bits. -/
def encodeVarintLoop : ℕ → ℕ → Slice
  | 0, v => [UInt8.ofNat v]
  | n + 1, v =>
    if v < 128 then [UInt8.ofNat v]
    else UInt8.ofNat ((v &&& 127) ||| 128) :: encodeVarintLoop n (v >>> 7)

/-- `EncodeVarint64`. -/
def encodeVarint64 (v : ℕ) : Slice := encodeVarintLoop 9 v

/-- `PutVarint32`. -/
def putVarint32 (dst : Slice) (v : ℕ) : Slice := dst ++ encodeVarint32 v

/-- `PutVarint64`. -/
def putVarint64 (dst : Slice) (v : ℕ) : Slice := dst ++ encodeVarint64 v

/-- `PutLengthPrefixedSlice`; the size argument of `PutVarint32` is a `uint32_t`. -/
def putLengthPrefixedSlice (dst value : Slice) : Slice :=
  putVarint32 dst (value.length % 2 ^ 32) ++ value

/-! ## Varint readers -/

/-- The loop of `GetVarint32PtrFallback` (`width = 32`) and `GetVarint64Ptr`
(`width = 64`), with `n` bytes still allowed. -/
def getVarintLoop (width : ℕ) : ℕ → ℕ → ℕ → Slice → Option (ℕ × Slice)
  | 0, _, _, _ => none
  | _ + 1, _, _, [] => none
  | n + 1, shift, result, byte :: rest =>
    if byte.toNat &&& 128 ≠ 0 then
      getVarintLoop width n (shift + 7)
        (result ||| ((byte.toNat &&& 127) <<< shift) % 2 ^ width) rest
    else
      some (result ||| (byte.toNat <<< shift) % 2 ^ width, rest)

/-- `GetVarint32Ptr`: the inlined one-byte path, then the fallback loop. -/
def getVarint32 (input : Slice) : Option (ℕ × Slice) :=
  match input with
  | [] => getVarintLoop 32 5 0 0 []
  | byte :: rest =>
    if byte.toNat &&& 128 = 0 then some (byte.toNat, rest)
    else getVarintLoop 32 5 0 0 (byte :: rest)

/-- `GetVarint64`. -/
def getVarint64 (input : Slice) : Option (ℕ × Slice) := getVarintLoop 64 10 0 0 input

/-- `GetLengthPrefixedSlice(Slice*, Slice*)`: the slice and the unread input. -/
def getLengthPrefixedSlice (input : Slice) : Option (Slice × Slice) :=
  (getVarint32 input).bind fun (len, input) =>
    if len ≤ input.length then some (input.take len, input.drop len) else none

/-! ## `fast_atoi` -/

/-- The loop of `fast_atoi`: it stops at the first byte that is not a decimal
digit, and `val * 10 + digit` wraps around at 64 bits. -/
def fastAtoiLoop : ℕ → Slice → ℕ
  | val, [] => val
  | val, byte :: rest =>
    if 48 ≤ byte.toNat ∧ byte.toNat ≤ 57 then
      fastAtoiLoop ((val * 10 + (byte.toNat - 48)) % 2 ^ 64) rest
    else val

/-- `fast_atoi(Slice)`: the index key of a user key. -/
def fastAtoi (slice : Slice) : ℕ := fastAtoiLoop 0 slice

/-- The decimal text of a number. -/
def decimalText (n : ℕ) : Slice :=
  if n < 10 then [UInt8.ofNat (48 + n)]
  else decimalText (n / 10) ++ [UInt8.ofNat (48 + n % 10)]

/-! ## Fixed-width integers -/

@[simp] theorem length_encodeFixed32 (v : ℕ) : (encodeFixed32 v).length = 4 := by
  simp [encodeFixed32]

@[simp] theorem length_encodeFixed64 (v : ℕ) : (encodeFixed64 v).length = 8 := by
  simp [encodeFixed64]

/-- The little-endian bytes of a number give it back, up to their width. -/
theorem littleEndian_map_range (k v : ℕ) :
    ((List.range k).map fun i => UInt8.ofNat (v >>> (8 * i))).foldr
      (fun b acc => b.toNat + 256 * acc) 0 = v % 256 ^ k := by
  induction k generalizing v with
  | zero => simp [Nat.mod_one]
  | succ k ih =>
    have hshift : ∀ i, v >>> (8 * (i + 1)) = (v / 256) >>> (8 * i) := fun i => by
      rw [Nat.mul_succ, Nat.add_comm, Nat.shiftRight_add, Nat.shiftRight_eq_div_pow v 8]
    rw [List.range_succ_eq_map, List.map_cons, List.map_map, List.foldr_cons]
    simp only [Function.comp_def, Nat.succ_eq_add_one, hshift, ih, UInt8.toNat_ofNat',
      Nat.mul_zero, Nat.shiftRight_zero]
    rw [show 256 ^ (k + 1) = 256 * 256 ^ k from Nat.pow_succ', Nat.mod_mul]

theorem decodeFixed32_append (v : ℕ) (rest : Slice) :
    decodeFixed32 (encodeFixed32 v ++ rest) = v % 2 ^ 32 := by
  rw [decodeFixed32, List.take_left' (length_encodeFixed32 v)]
  exact littleEndian_map_range 4 v

theorem decodeFixed64_append (v : ℕ) (rest : Slice) :
    decodeFixed64 (encodeFixed64 v ++ rest) = v % 2 ^ 64 := by
  rw [decodeFixed64, List.take_left' (length_encodeFixed64 v)]
  exact littleEndian_map_range 8 v

theorem littleEndian_lt (bytes : Slice) :
    bytes.foldr (fun b acc => b.toNat + 256 * acc) 0 < 256 ^ bytes.length := by
  induction bytes with
  | nil => simp
  | cons b bytes ih =>
    have hb := b.toNat_lt
    rw [List.foldr_cons, List.length_cons, Nat.pow_succ]
    omega

theorem littleEndian_take_lt (k : ℕ) (bytes : Slice) :
    (bytes.take k).foldr (fun b acc => b.toNat + 256 * acc) 0 < 256 ^ k :=
  (littleEndian_lt _).trans_le (Nat.pow_le_pow_right (by norm_num) (List.length_take_le k bytes))

theorem decodeFixed32_lt (bytes : Slice) : decodeFixed32 bytes < 2 ^ 32 :=
  littleEndian_take_lt 4 bytes

theorem decodeFixed64_lt (bytes : Slice) : decodeFixed64 bytes < 2 ^ 64 :=
  littleEndian_take_lt 8 bytes

theorem drop_flatMap_encodeFixed32 {numbers : List ℕ} {i : ℕ} (hi : i < numbers.length)
    (more : Slice) : ∃ rest, (numbers.flatMap encodeFixed32 ++ more).drop (i * 4) =
      encodeFixed32 numbers[i] ++ rest := by
  induction numbers generalizing i with
  | nil => simp at hi
  | cons v numbers ih =>
    cases i with
    | zero => exact ⟨numbers.flatMap encodeFixed32 ++ more, by simp⟩
    | succ i =>
      obtain ⟨rest, hrest⟩ := ih (i := i) (by simpa using hi)
      refine ⟨rest, ?_⟩
      rw [List.flatMap_cons, List.append_assoc, Nat.succ_mul, Nat.add_comm, ← List.drop_drop,
        List.drop_left' (length_encodeFixed32 v), hrest]
      rfl

theorem length_flatMap_encodeFixed32 (numbers : List ℕ) :
    (numbers.flatMap encodeFixed32).length = numbers.length * 4 := by
  induction numbers with
  | nil => rfl
  | cons v numbers ih =>
    rw [List.flatMap_cons, List.length_append, ih, length_encodeFixed32, List.length_cons]
    omega

/-! ## Strings in pieces -/

/-- The offset at which a piece starts. -/
def offsetOf (pieces : List Slice) (k : ℕ) : ℕ := (pieces.take k).flatten.length

theorem offsetOf_succ {pieces : List Slice} {piece : Slice} {k : ℕ} (hk : pieces[k]? = some piece) :
    offsetOf pieces (k + 1) = offsetOf pieces k + piece.length := by
  unfold offsetOf
  rw [List.take_add_one, hk]
  simp

theorem offsetOf_of_length_le {pieces : List Slice} {k : ℕ} (hk : pieces.length ≤ k) :
    offsetOf pieces k = pieces.flatten.length := by
  rw [offsetOf, List.take_of_length_le hk]

theorem offsetOf_le (pieces : List Slice) (k : ℕ) : offsetOf pieces k ≤ pieces.flatten.length := by
  conv_rhs => rw [← List.take_append_drop k pieces, List.flatten_append, List.length_append]
  exact Nat.le_add_right _ _

/-! ## Bytes of a varint -/

variable {n v u width : ℕ} {value rest input : Slice}

theorem toNat_ofNat_of_lt (h : n < 256) : (UInt8.ofNat n).toNat = n := by
  rw [UInt8.toNat_ofNat']
  exact Nat.mod_eq_of_lt h

theorem and_127 (v : ℕ) : v &&& 127 = v % 128 := by
  simpa using Nat.and_two_pow_sub_one_eq_mod v 7

theorem or_128 (h : v < 128) : v ||| 128 = v + 128 := by
  have := Nat.two_pow_add_eq_or_of_lt (i := 7) h 1
  rw [Nat.or_comm, ← this]
  omega

/-- Truncating `v | 0x80` to a byte keeps the low seven bits and the flag. -/
theorem ofNat_or_128 (v : ℕ) : UInt8.ofNat (v ||| 128) = UInt8.ofNat (v % 128 + 128) := by
  apply UInt8.toNat_inj.mp
  have hor : (v ||| 128) % 2 ^ 8 = (v % 2 ^ 8) ||| 128 := Nat.or_mod_two_pow
  have hbyte : ∀ u < 2 ^ 8, u ||| 128 = u % 128 + 128 := by decide +kernel
  rw [UInt8.toNat_ofNat', UInt8.toNat_ofNat', hor, hbyte _ (Nat.mod_lt v (by norm_num))]
  omega

theorem and_128_continuation (h : u < 128) : (u + 128) &&& 128 ≠ 0 := by
  have hbit : ((u + 128) &&& 128).testBit 7 = true := by
    rw [Nat.testBit_and, ← or_128 h, Nat.testBit_or]
    have h128 : Nat.testBit 128 7 = true := by decide
    simp [h128]
  intro hzero
  simp [hzero] at hbit

theorem and_128_last (h : u < 128) : u &&& 128 = 0 := by
  have := Nat.and_two_pow u 7
  have hbit : u.testBit 7 = false := Nat.testBit_lt_two_pow (by simpa using h)
  simpa [hbit] using this

theorem or_shiftLeft {acc shift : ℕ} (h : acc < 2 ^ shift) (x : ℕ) :
    acc ||| x <<< shift = acc + x * 2 ^ shift := by
  rw [Nat.or_comm, ← Nat.shiftLeft_add_eq_or_of_lt h x, Nat.shiftLeft_eq, Nat.add_comm]

/-! ## Round trips -/

theorem getVarintLoop_last {shift acc : ℕ} (hv : v < 128) (hwidth : v * 2 ^ shift < 2 ^ width)
    (hacc : acc < 2 ^ shift) (rest : Slice) :
    getVarintLoop width (n + 1) shift acc (UInt8.ofNat v :: rest) =
      some (acc + v * 2 ^ shift, rest) := by
  rw [getVarintLoop, toNat_ofNat_of_lt (by omega), if_neg (not_not.mpr (and_128_last hv)),
    Nat.mod_eq_of_lt (by rwa [Nat.shiftLeft_eq]), or_shiftLeft hacc]

/-- **The varint round trip.** Reading what the writer's loop wrote for `v`, with
`acc` already collected below bit `shift`, adds `v` at that position and leaves
exactly the bytes that follow. -/
theorem getVarintLoop_encodeVarintLoop (width : ℕ) (rest : Slice) {n v shift acc : ℕ}
    (hv : v < 2 ^ (7 * (n + 1))) (hwidth : v * 2 ^ shift < 2 ^ width) (hacc : acc < 2 ^ shift) :
    getVarintLoop width (n + 1) shift acc (encodeVarintLoop n v ++ rest) =
      some (acc + v * 2 ^ shift, rest) := by
  induction n generalizing v shift acc with
  | zero => exact getVarintLoop_last (by simpa using hv) hwidth hacc rest
  | succ n ih =>
    by_cases hlt : v < 128
    · rw [encodeVarintLoop, if_pos hlt]
      exact getVarintLoop_last hlt hwidth hacc rest
    · have hmod : v % 128 < 128 := Nat.mod_lt v (by norm_num)
      have hpow : (2 : ℕ) ^ (shift + 7) = 128 * 2 ^ shift := by rw [Nat.pow_add]; ring
      have hsplit : v * 2 ^ shift = v % 128 * 2 ^ shift + v / 128 * 2 ^ (shift + 7) := by
        rw [hpow, ← mul_assoc, ← Nat.add_mul, Nat.mul_comm (v / 128), Nat.mod_add_div]
      rw [encodeVarintLoop, if_neg hlt, List.cons_append, getVarintLoop, and_127, or_128 hmod,
        toNat_ofNat_of_lt (by omega), if_pos (and_128_continuation hmod), and_127,
        Nat.add_mod_right, Nat.mod_mod, Nat.shiftLeft_eq, Nat.mod_eq_of_lt (by omega),
        ← Nat.shiftLeft_eq, or_shiftLeft hacc, Nat.shiftRight_eq_div_pow, ih, hsplit, Nat.add_assoc]
      · rw [Nat.div_lt_iff_lt_mul (by norm_num), ← Nat.pow_add]
        exact hv
      · exact (Nat.le_add_left ..).trans_lt (hsplit.symm.trans_lt hwidth)
      · rw [hpow]
        nlinarith [Nat.mul_le_mul_right (2 ^ shift) (Nat.le_of_lt_succ hmod)]

theorem getVarintLoop_encode (hv : v < 2 ^ (7 * (n + 1))) (hwidth : v < 2 ^ width) (rest : Slice) :
    getVarintLoop width (n + 1) 0 0 (encodeVarintLoop n v ++ rest) = some (v, rest) := by
  have hshift : v * 2 ^ 0 < 2 ^ width := by simpa using hwidth
  simpa using getVarintLoop_encodeVarintLoop width rest hv hshift Nat.one_pos

theorem getVarint64_encodeVarint64 (hv : v < 2 ^ 64) (rest : Slice) :
    getVarint64 (encodeVarint64 v ++ rest) = some (v, rest) :=
  getVarintLoop_encode (lt_trans hv (by norm_num)) hv rest

/-- `EncodeVarint32` spells its loop out. -/
theorem encodeVarint32_eq_loop (v : ℕ) : encodeVarint32 v = encodeVarintLoop 4 v := by
  have hstep : ∀ u : ℕ, UInt8.ofNat ((u &&& 127) ||| 128) = UInt8.ofNat (u ||| 128) := by
    intro u
    rw [ofNat_or_128, ofNat_or_128, and_127, Nat.mod_mod]
  have hlt : ∀ k, v >>> k < 128 ↔ v < 2 ^ (7 + k) := by
    intro k
    rw [Nat.shiftRight_eq_div_pow, Nat.div_lt_iff_lt_mul (by positivity), Nat.pow_add]
  unfold encodeVarint32
  simp only [encodeVarintLoop, hstep, ← Nat.shiftRight_add, hlt, Nat.reduceAdd, Nat.reducePow]
  split_ifs <;> rfl

/-- The inlined one-byte path of `GetVarint32Ptr` agrees with the fallback. -/
theorem getVarint32_eq_loop (input : Slice) : getVarint32 input = getVarintLoop 32 5 0 0 input := by
  cases input with
  | nil => rfl
  | cons byte rest =>
    unfold getVarint32
    by_cases hlast : byte.toNat &&& 128 = 0
    · simp [getVarintLoop, hlast]
    · simp [hlast]

theorem getVarint32_encodeVarint32 (hv : v < 2 ^ 32) (rest : Slice) :
    getVarint32 (encodeVarint32 v ++ rest) = some (v, rest) := by
  rw [getVarint32_eq_loop, encodeVarint32_eq_loop]
  exact getVarintLoop_encode (lt_trans hv (by norm_num)) hv rest

theorem getLengthPrefixedSlice_put (hlen : value.length < 2 ^ 32) (rest : Slice) :
    getLengthPrefixedSlice (putLengthPrefixedSlice [] value ++ rest) = some (value, rest) := by
  have hsplit : putLengthPrefixedSlice [] value ++ rest =
      encodeVarint32 value.length ++ (value ++ rest) := by
    rw [putLengthPrefixedSlice, putVarint32, Nat.mod_eq_of_lt hlen]
    simp
  rw [getLengthPrefixedSlice, hsplit, getVarint32_encodeVarint32 hlen]
  simp

/-! ## Readers do not look past what they take -/

/-- A reader takes the bytes of the varint, one at least, and does not look past them. -/
theorem getVarintLoop_takes {n shift result : ℕ}
    (h : getVarintLoop width n shift result input = some (v, rest)) :
    ∃ taken, taken ≠ [] ∧ input = taken ++ rest ∧
      ∀ more, getVarintLoop width n shift result (taken ++ more) = some (v, more) := by
  induction n generalizing shift result input with
  | zero => cases h
  | succ n ih =>
    cases input with
    | nil => cases h
    | cons byte input =>
      unfold getVarintLoop at h
      split_ifs at h with hmore
      · obtain ⟨taken, -, rfl, htaken⟩ := ih h
        exact ⟨byte :: taken, by simp, rfl, fun more => by
          simpa [getVarintLoop, hmore] using htaken more⟩
      · cases h
        exact ⟨[byte], by simp, rfl, fun more => by simp [getVarintLoop, hmore]⟩

theorem getVarintLoop_append {n shift result : ℕ} (more : Slice)
    (h : getVarintLoop width n shift result input = some (v, rest)) :
    getVarintLoop width n shift result (input ++ more) = some (v, rest ++ more) := by
  obtain ⟨taken, -, rfl, htaken⟩ := getVarintLoop_takes h
  rw [List.append_assoc, htaken]

theorem getVarint32_append (h : getVarint32 input = some (v, rest)) (more : Slice) :
    getVarint32 (input ++ more) = some (v, rest ++ more) := by
  rw [getVarint32_eq_loop] at h ⊢
  exact getVarintLoop_append more h

theorem getLengthPrefixedSlice_append (h : getLengthPrefixedSlice input = some (value, rest))
    (more : Slice) : getLengthPrefixedSlice (input ++ more) = some (value, rest ++ more) := by
  obtain ⟨⟨len, body⟩, hlen, hbody⟩ := Option.bind_eq_some_iff.mp h
  dsimp only at hbody
  split_ifs at hbody with hle
  cases hbody
  unfold getLengthPrefixedSlice
  rw [getVarint32_append hlen, Option.bind_some]
  dsimp only
  rw [if_pos (by rw [List.length_append]; omega), List.take_append_of_le_length hle,
    List.drop_append_of_le_length hle]

theorem getVarint32_length_lt (h : getVarint32 input = some (v, rest)) :
    rest.length < input.length := by
  rw [getVarint32_eq_loop] at h
  obtain ⟨taken, htaken, rfl, -⟩ := getVarintLoop_takes h
  have := List.length_pos_iff.mpr htaken
  rw [List.length_append]
  omega

theorem getLengthPrefixedSlice_length_le (h : getLengthPrefixedSlice input = some (value, rest)) :
    rest.length ≤ input.length := by
  obtain ⟨⟨len, body⟩, hlen, hbody⟩ := Option.bind_eq_some_iff.mp h
  dsimp only at hbody
  split_ifs at hbody
  cases hbody
  rw [List.length_drop]
  exact (Nat.sub_le _ _).trans (getVarint32_length_lt hlen).le

/-! ## Decimal texts -/

theorem fastAtoiLoop_digit (val d : ℕ) (hd : d < 10) (rest : Slice) :
    fastAtoiLoop val (UInt8.ofNat (48 + d) :: rest) =
      fastAtoiLoop ((val * 10 + d) % 2 ^ 64) rest := by
  have hbyte : (UInt8.ofNat (48 + d)).toNat = 48 + d := toNat_ofNat_of_lt (by omega)
  rw [fastAtoiLoop, hbyte, if_pos (by omega), show 48 + d - 48 = d by omega]

theorem fastAtoiLoop_decimalText (n : ℕ) (rest : Slice) :
    fastAtoiLoop 0 (decimalText n ++ rest) = fastAtoiLoop (n % 2 ^ 64) rest := by
  induction n using Nat.strongRecOn generalizing rest with
  | ind n ih =>
    unfold decimalText
    split_ifs with hlt
    · rw [List.singleton_append, fastAtoiLoop_digit 0 n hlt, Nat.zero_mul, Nat.zero_add]
    · rw [List.append_assoc, ih (n / 10) (by omega), List.singleton_append,
        fastAtoiLoop_digit _ _ (Nat.mod_lt n (by omega))]
      congr 1
      omega

/-- **`fast_atoi` reads the decimal text of a 64-bit number.** -/
theorem fastAtoi_decimalText (hn : n < 2 ^ 64) : fastAtoi (decimalText n) = n := by
  have h := fastAtoiLoop_decimalText n []
  rw [List.append_nil, Nat.mod_eq_of_lt hn] at h
  exact h

end Coding

end McfKv
