import McfKv.Util.Coding

/-!
# The varint codec (`util/coding.cc`, `util/coding.h`)

`GetVarint32` and `GetVarint64` move their argument, a `Slice*`, past what they read, and leave it
where it is if there is no varint. `IsCodec` says what the manifest, the log, the blocks and the
batches need of such a reader and its writer, and `isCodec_of_loop` proves it from the two loops of
`McfKv.Util.Coding`.

A proper initial segment of an encoding is rejected because of two facts that hold for any reader:
the whole encoding is read with nothing left over, and a reader does not look past what it takes.
-/

namespace McfKv.Coding

/-- The loop of `VarintLength`. -/
def varintLengthLoop (v len : ℕ) : ℕ :=
  if 128 ≤ v then varintLengthLoop (v >>> 7) (len + 1) else len
termination_by v
decreasing_by
  rw [Nat.shiftRight_eq_div_pow]
  omega

/-- `VarintLength`. -/
def varintLength (v : ℕ) : ℕ := varintLengthLoop v 1

/-- `GetVarint32PtrFallback`. -/
def getVarint32Fallback (input : Slice) : Option (ℕ × Slice) := getVarintLoop 32 5 0 0 input

/-- What `GetVarint32` and `GetVarint64` leave behind: the result, `*input` and `*value`. -/
structure Reading where
  ok : Bool
  input : Slice
  value : ℕ
deriving DecidableEq, Repr

/-- The body of `GetVarint32` and `GetVarint64` around the pointer-based reader. -/
def advance (get : Slice → Option (ℕ × Slice)) (input : Slice) (value : ℕ) : Reading :=
  match get input with
  | none => ⟨false, input, value⟩
  | some (v, rest) => ⟨true, rest, v⟩

/-- `GetVarint32`. -/
def getVarint32Slice : Slice → ℕ → Reading := advance getVarint32

/-- `GetVarint64`. -/
def getVarint64Slice : Slice → ℕ → Reading := advance getVarint64

/-! ## The number of bytes -/

theorem varintLengthLoop_eq {n v : ℕ} (hv : v < 2 ^ (7 * (n + 1))) (len : ℕ) :
    varintLengthLoop v len + 1 = len + (encodeVarintLoop n v).length := by
  induction n generalizing v len with
  | zero =>
    have hlast : ¬ 128 ≤ v := by omega
    rw [varintLengthLoop, if_neg hlast]
    rfl
  | succ n ih =>
    rw [varintLengthLoop, encodeVarintLoop]
    split_ifs with hmore hlast hlast
    · omega
    · have hshift : v >>> 7 < 2 ^ (7 * (n + 1)) := by
        rw [Nat.shiftRight_eq_div_pow, Nat.div_lt_iff_lt_mul (by norm_num), ← Nat.pow_add]
        exact hv
      rw [ih hshift, List.length_cons]
      omega
    · rfl
    · omega

theorem length_encodeVarintLoop {n v : ℕ} (hv : v < 2 ^ (7 * (n + 1))) :
    (encodeVarintLoop n v).length = varintLength v := by
  have h := varintLengthLoop_eq hv 1
  unfold varintLength
  omega

/-! ## Readers and writers -/

/-- **What a varint codec is for**: every value is read back and exactly what follows it is left,
the encoding has the announced length, and the input stays as it is if it ends too early. -/
structure IsCodec (width : ℕ) (encode : ℕ → Slice) (get : Slice → ℕ → Reading) : Prop where
  roundTrip : ∀ v < 2 ^ width, ∀ rest old, get (encode v ++ rest) old = ⟨true, rest, v⟩
  length : ∀ v < 2 ^ width, (encode v).length = varintLength v
  rejected : ∀ v < 2 ^ width, ∀ start, start <+: encode v → start ≠ encode v →
    ∀ old, get start old = ⟨false, start, old⟩

variable {get : Slice → Option (ℕ × Slice)} {v : ℕ} {code : Slice}

/-- If a code is read with nothing left over, no proper initial segment of it is read. -/
theorem eq_none_of_isPrefix (happend : ∀ {v input rest}, get input = some (v, rest) →
      ∀ more, get (input ++ more) = some (v, rest ++ more))
    (hcode : get code = some (v, [])) {start : Slice} (hstart : start <+: code)
    (hproper : start ≠ code) : get start = none := by
  obtain ⟨more, rfl⟩ := hstart
  by_contra hread
  obtain ⟨⟨v', rest⟩, hread⟩ := Option.ne_none_iff_exists'.mp hread
  have hall := (happend hread more).symm.trans hcode
  have hnil : rest ++ more = [] := (Prod.mk.inj (Option.some.inj hall)).2
  exact hproper (by rw [(List.append_eq_nil_iff.mp hnil).2, List.append_nil])

/-- The loop of the reader and the loop of the writer are a codec, at any width that the bytes of
the writer cover. -/
theorem isCodec_of_loop {width n : ℕ} {encode : ℕ → Slice} (hwidth : width ≤ 7 * (n + 1))
    (hencode : ∀ v < 2 ^ width, encode v = encodeVarintLoop n v)
    (hget : ∀ input, get input = getVarintLoop width (n + 1) 0 0 input) :
    IsCodec width encode (advance get) := by
  have hlarge : ∀ v < 2 ^ width, v < 2 ^ (7 * (n + 1)) := fun v hv =>
    hv.trans_le (Nat.pow_le_pow_right (by norm_num) hwidth)
  have hread : ∀ v < 2 ^ width, ∀ rest, get (encode v ++ rest) = some (v, rest) := by
    intro v hv rest
    rw [hget, hencode v hv]
    exact getVarintLoop_encode (hlarge v hv) hv rest
  refine ⟨fun v hv rest old => ?_, fun v hv => ?_, fun v hv start hstart hproper old => ?_⟩
  · unfold advance
    rw [hread v hv]
  · rw [hencode v hv]
    exact length_encodeVarintLoop (hlarge v hv)
  · have hcode : get (encode v) = some (v, []) := by simpa using hread v hv []
    have hnone : get start = none := by
      refine eq_none_of_isPrefix (fun {v input rest} h more => ?_) hcode hstart hproper
      rw [hget] at h ⊢
      exact getVarintLoop_append more h
    unfold advance
    rw [hnone]

/-- **The varint codec.** Both pairs of functions are codecs, and the inlined path for one byte
gives what the fallback gives, on every input. -/
theorem varint_codec :
    IsCodec 32 encodeVarint32 getVarint32Slice ∧ IsCodec 64 encodeVarint64 getVarint64Slice ∧
      ∀ input, getVarint32 input = getVarint32Fallback input :=
  ⟨isCodec_of_loop (by norm_num) (fun v _ => encodeVarint32_eq_loop v) getVarint32_eq_loop,
    isCodec_of_loop (by norm_num) (fun _ _ => rfl) fun _ => rfl, getVarint32_eq_loop⟩

-- the first of the two bytes of `300` alone
example : getVarint32Slice [0xac] 7 = ⟨false, [0xac], 7⟩ := by decide

end McfKv.Coding
